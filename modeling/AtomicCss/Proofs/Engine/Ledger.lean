import AtomicCss.Proofs.Engine.Command

/-!
# Caches and the log

An engine remembers what it has written so as not to write it again. `Remembers` says how a cache
follows a log: it holds what it held, what was made known, and what was sent and taken; and nothing is
sent that is held. `Accounts` says this of both caches, with the number of animations and the sheet.
It holds of every command (`accounts_command`), it passes on to sequences (`Accounts.append`), and so
it holds of every run (`accounts_run`).
-/

namespace AtomicCss

theorem Command.writesGlobal_of_compiles {c : Command} (h : c.compiles = true) :
    c.writesGlobal = false := by
  cases c <;> simp_all [compiles, writesGlobal]

/-- How a cache comes from `before` to `after` while `log` is sent: `tries s x` says that the sending
`s` is one of the item `x`, and `seeds` are made known without sending. -/
structure Remembers (tries : Sending → String → Prop) (before after : OrderedSet)
    (seeds : List String) (log : List Sending) : Prop where
  mem_iff : ∀ x, x ∈ after ↔ x ∈ before ∨ x ∈ seeds ∨ ∃ s ∈ log, tries s x ∧ s.Accepted
  silent : ∀ x ∈ before, ∀ s ∈ log, ¬ tries s x
  once : ∀ x, log.Pairwise fun s t => tries s x → s.Accepted → ¬ tries t x

namespace Remembers

variable {tries : Sending → String → Prop} {a b c : OrderedSet} {m n : List String}
  {log log' : List Sending}

theorem of_silent (h : ∀ s ∈ log, ∀ x, ¬ tries s x) (hm : ∀ x, x ∈ b ↔ x ∈ a ∨ x ∈ m) :
    Remembers tries a b m log where
  mem_iff x := by
    rw [hm]
    refine or_congr_right ⟨.inl, fun hx => hx.resolve_right ?_⟩
    rintro ⟨s, hs, ht, -⟩
    exact h s hs x ht
  silent x _ s hs := h s hs x
  once x := by
    have hall : log.Pairwise fun _ _ => True := List.pairwise_of_forall fun _ _ => trivial
    refine hall.imp_of_mem ?_
    intro s t hs _ _ ht
    exact absurd ht (h s hs x)

theorem of_other {s : Sending} (h : ∀ x, ¬ tries s x) (hb : b = a) :
    Remembers tries a b [] [s] := by
  apply of_silent
  · intro t ht x
    rw [List.mem_singleton.1 ht]
    exact h x
  · simp [hb]

theorem of_single {s : Sending} {x : String} (hx : x ∉ a) (ht : ∀ y, tries s y ↔ y = x)
    (hm : ∀ y, y ∈ b ↔ y ∈ a ∨ (y = x ∧ s.Accepted)) : Remembers tries a b [] [s] where
  mem_iff y := by
    rw [hm]
    simp [ht]
  silent y hy t hs := by
    rw [List.mem_singleton.1 hs, ht]
    rintro rfl
    exact hx hy
  once y := List.pairwise_singleton _ s

theorem append (h : Remembers tries a b m log) (h' : Remembers tries b c n log') :
    Remembers tries a c (m ++ n) (log ++ log') where
  mem_iff x := by
    rw [h'.mem_iff, h.mem_iff]
    simp only [List.mem_append, or_and_right, exists_or, or_assoc]
    refine or_congr_right (or_congr_right ?_)
    exact or_left_comm
  silent x hx s hs ht := by
    rcases List.mem_append.1 hs with hs | hs
    · exact h.silent x hx s hs ht
    · exact h'.silent x ((h.mem_iff x).2 (.inl hx)) s hs ht
  once x := by
    refine List.pairwise_append.2 ⟨h.once x, h'.once x, fun s hs t ht hx hacc => ?_⟩
    exact h'.silent x ((h.mem_iff x).2 (.inr (.inr ⟨s, hs, hx, hacc⟩))) t ht

end Remembers

/-- What the engine `e'` remembers, compared with `e`, is what the log says. -/
structure Accounts (e e' : Engine) (seeds : List String) (animated : Nat) (log : List Sending) :
    Prop where
  took : e.sheet.Took (log.map (·.attempt)) e'.sheet
  classes : Remembers Sending.WritesClass e.injected e'.injected seeds log
  globals : Remembers Sending.WritesGlobal e.globals e'.globals [] log
  animations : e'.animations = e.animations + animated
  front : ∀ s ∈ log, s.attempt.index = 0

namespace Accounts

theorem refl (e : Engine) : Accounts e e [] 0 [] where
  took := by rw [List.map_nil, Sheet.Took]
  classes := .of_silent (by simp) (by simp)
  globals := .of_silent (by simp) (by simp)
  animations := by rw [Nat.add_zero]
  front := by simp

theorem append {e e' e'' : Engine} {m n : List String} {i j : Nat} {log log' : List Sending}
    (h : Accounts e e' m i log) (h' : Accounts e' e'' n j log') :
    Accounts e e'' (m ++ n) (i + j) (log ++ log') where
  took := by
    rw [List.map_append]
    exact Sheet.took_append h.took h'.took
  classes := h.classes.append h'.classes
  globals := h.globals.append h'.globals
  animations := by rw [h'.animations, h.animations, Nat.add_assoc]
  front s hs := (List.mem_append.1 hs).elim (h.front s) (h'.front s)

end Accounts

namespace Engine

/-! ## Actions inside a command -/

/-- The action sends something, as a part of the command, and what it remembers is what it sends. -/
def Accounted {α : Type} (c : Command) (a : Action α) (e : Engine) : Prop :=
  ∃ l, Action.Sends a e l ∧ Accounts e (a e).engine [] 0 (l.map (⟨c, ·⟩))

section accounted

variable {α β : Type} {c : Command} {a : Action α} {e : Engine}

theorem Accounted.of_unchanged (hs : Action.Sends a e []) (he : (a e).engine = e) :
    Accounted c a e :=
  ⟨[], hs, he.symm ▸ Accounts.refl e⟩

theorem Accounted.bind {next : α → Action β} (ha : Accounted c a e)
    (hn : ∀ x, (a e).result = .ok x → Accounted c (next x) (a e).engine) :
    Accounted c (a >>= next) e := by
  obtain ⟨l, hs, hl⟩ := ha
  cases hx : (a e).result with
  | error failure =>
    refine ⟨l, hs.bind_error hx, ?_⟩
    rwa [Action.bind_apply_of_error hx]
  | ok x =>
    obtain ⟨m, hs', hm⟩ := hn x hx
    refine ⟨l ++ m, hs.bind hx hs', ?_⟩
    rw [Action.bind_apply_of_ok hx, List.map_append]
    exact hl.append hm

theorem Accounted.sends (ha : Accounted c a e) : ∃ l, Action.Sends a e l := by
  obtain ⟨l, hs, -⟩ := ha
  exact ⟨l, hs⟩

theorem Accounted.pure (x : α) : Accounted c (Pure.pure x : Action α) e :=
  .of_unchanged (Action.Sends.done x e) rfl

theorem Accounted.congr {b : Action α} (h : a e = b e)
    (hs : ∀ sink, a (e.on sink) = b (e.on sink)) (hb : Accounted c b e) : Accounted c a e := by
  obtain ⟨l, hl, hacc⟩ := hb
  exact ⟨l, .congr h hs hl, h.symm ▸ hacc⟩

theorem Accounted.map {f : α → β} (ha : Accounted c a e) : Accounted c (f <$> a) e := by
  rw [← bind_pure_comp]
  exact ha.bind fun x _ => .pure (f x)

end accounted

theorem mem_insert_if {a : OrderedSet} {x y : String} {p : Prop} [Decidable p] :
    y ∈ (if p then a.insert x else a) ↔ y ∈ a ∨ (y = x ∧ p) := by
  split
  · next h => simp [h]
  · next h => simp [h]

theorem accounted_inject {c : Command} (hc : c.compiles = true) (o : Occurrence) (e : Engine) :
    Accounted c (inject (suffix o.state) o.name o.value) e := by
  by_cases hk : o.cls ∈ e.injected
  · exact .of_unchanged (.inject_known hk) (by rw [inject_known hk])
  have hs := Action.Sends.inject_unknown (s := suffix o.state) hk
  have he := inject_engine (s := suffix o.state) hk
  refine ⟨_, hs, ?_, ?_, ?_, ?_, ?_⟩
  · rw [List.map_map]
    simpa using hs.took
  · refine .of_single (x := o.cls) hk (fun y => ⟨?_, ?_⟩) fun y => ?_
    · rintro ⟨-, o', rfl, hr⟩
      exact (Occurrence.rule_inj hr).1.symm
    · rintro rfl
      exact ⟨hc, o, rfl, rfl⟩
    · rw [he]
      exact mem_insert_if
  · apply Remembers.of_other
    · intro y hy
      have hf := Command.writesGlobal_of_compiles hc
      rw [show c.writesGlobal = true from hy.1] at hf
      cases hf
    · rw [he, sending]
  · rw [he]
    rfl
  · intro s hs
    rw [List.mem_singleton.1 hs]

theorem accounted_injectGlobal {c : Command} (hc : c.writesGlobal = true) (rule : String)
    (e : Engine) : Accounted c (injectGlobal rule) e := by
  by_cases hk : rule ∈ e.globals
  · exact .of_unchanged (.injectGlobal_known hk) (by rw [injectGlobal_known hk])
  have hs := Action.Sends.injectGlobal_unknown hk
  have he := injectGlobal_engine hk
  refine ⟨_, hs, ?_, ?_, ?_, ?_, ?_⟩
  · rw [List.map_map]
    simpa using hs.took
  · apply Remembers.of_other
    · intro y hy
      have hf := Command.writesGlobal_of_compiles hy.1
      rw [hc] at hf
      cases hf
    · rw [he, sending]
  · refine .of_single (x := rule) hk (fun y => ⟨?_, ?_⟩) fun y => ?_
    · rintro ⟨-, rfl⟩
      rfl
    · rintro rfl
      exact ⟨hc, rfl⟩
    · rw [he]
      exact mem_insert_if
  · rw [he]
    rfl
  · intro s hs
    rw [List.mem_singleton.1 hs]

/-- Along a walk every entry is accounted for, also if the walk ends early. -/
theorem accounted_walk {c : Command} (hc : c.compiles = true) (vs : List Visit)
    (classes : ClassMap) (e : Engine) : Accounted c (walk vs classes) e := by
  induction vs generalizing classes e with
  | nil => exact .pure classes
  | cons v rest ih =>
    cases v with
    | entry o => exact (accounted_inject hc o e).bind fun id _ => ih _ _
    | nesting outer inner => exact .of_unchanged (.fail _ e) rfl

theorem accounted_compile {c : Command} (hc : c.compiles = true) (d : Declaration) (e : Engine) :
    Accounted c (compile d) e := by
  refine .bind (.of_unchanged (.look fun _ => rfl) rfl) fun mode _ => ?_
  refine .bind (.of_unchanged (.report _ e) rfl) fun _ _ => ?_
  split
  · exact .of_unchanged (.look fun _ => rfl) rfl
  · exact .congr (compileClasses_eq_walk d e) (fun sink => compileClasses_eq_walk d (e.on sink))
      (accounted_walk hc _ _ e)

theorem accounted_compileAll {c : Command} (hc : c.compiles = true)
    (namespaces : List (String × Declaration)) (e : Engine) :
    Accounted c (compileAll namespaces) e := by
  induction namespaces generalizing e with
  | nil => exact .pure []
  | cons n rest ih =>
    refine (accounted_compile hc n.2 e).bind fun m _ => ?_
    exact (ih _).bind fun ms _ => .pure _

/-! ## Commands and runs -/

theorem accounted_action {c : Command} (hc : c.compiles = true ∨ c.writesGlobal = true)
    (e : Engine) : Accounted c c.action e := by
  cases c with
  | compile d => exact .map (accounted_compile rfl d e)
  | create namespaces =>
    exact .map ((accounted_compileAll rfl namespaces e).bind fun ms _ => .pure _)
  | injectGlobal rule => exact .map (accounted_injectGlobal rfl rule e)
  | injectTheme selector theme => exact .map (accounted_injectGlobal rfl (theme.rule selector) e)
  | _ => exact absurd hc (by simp [Command.compiles, Command.writesGlobal])

theorem Accounted.command {c : Command} {e : Engine} (h : Accounted c c.action e) :
    Accounts e (e.after c) [] 0 (e.sendings c) := by
  obtain ⟨l, hs, hl⟩ := h
  rw [sendings, hs.sent_eq]
  exact hl

theorem accounts_of_silent {c : Command} {e : Engine}
    (hs : (c.action (e.on e.sheet.recorder)).engine.sheet = .host e.sheet.recorder)
    (ht : (e.after c).sheet = e.sheet) (hg : (e.after c).globals = e.globals)
    (hn : (e.after c).animations = e.animations)
    (hm : ∀ x, x ∈ (e.after c).injected ↔ x ∈ e.injected ∨ x ∈ c.seeds) :
    Accounts e (e.after c) c.seeds 0 (e.sendings c) := by
  have hlog : e.sendings c = [] := by
    rw [sendings, Action.sent, hs]
    simp
  rw [hlog]
  refine ⟨ht, .of_silent (by simp) hm, .of_silent (by simp) ?_, hn, by simp⟩
  intro x
  rw [hg]
  simp

theorem accounts_injectKeyframes (k : Keyframes) (e : Engine) :
    Accounts e (e.after (.injectKeyframes k)) [] (e.writesAnimation (.injectKeyframes k)).toNat
      (e.sendings (.injectKeyframes k)) := by
  have hs : (Command.injectKeyframes k).action.Sends e _ :=
    (Action.Sends.injectKeyframes k e).map Answer.name
  have he := (after_injectKeyframes e k).trans (injectKeyframes_engine k e)
  rw [sendings, hs.sent_eq]
  refine ⟨hs.took, ?_, ?_, ?_, ?_⟩
  · apply Remembers.of_other
    · intro x hx
      exact Bool.false_ne_true hx.1
    · rw [he, sending]
  · apply Remembers.of_other
    · intro x hx
      exact Bool.false_ne_true hx.1
    · rw [he, sending]
  · rw [writesAnimation_injectKeyframes, he]
  · intro s h
    rw [List.mem_singleton.1 h]

/-- A command remembers what it sends and what it is told, whether it fails or not. -/
theorem accounts_command (e : Engine) (c : Command) :
    Accounts e (e.after c) c.seeds (e.writesAnimation c).toNat (e.sendings c) := by
  cases c with
  | compile d => exact (accounted_action (.inl rfl) e).command
  | create namespaces => exact (accounted_action (.inl rfl) e).command
  | injectGlobal rule => exact (accounted_action (.inr rfl) e).command
  | injectTheme selector theme => exact (accounted_action (.inr rfl) e).command
  | injectKeyframes k => exact accounts_injectKeyframes k e
  | seed ids => exact accounts_of_silent rfl rfl rfl rfl fun x => OrderedSet.mem_insertAll
  | rehydrate c => exact accounts_of_silent rfl rfl rfl rfl fun x => OrderedSet.mem_insertAll
  | capture => exact accounts_of_silent rfl rfl rfl rfl fun x => (or_iff_left List.not_mem_nil).symm
  | inlineStyle d =>
    exact (Accounted.map (.of_unchanged (.look fun _ => rfl) rfl)).command

/-- Over a run the caches hold what was sent and taken and what was made known. -/
theorem accounts_run (e : Engine) (cs : List Command) :
    Accounts e (e.afterAll cs) (cs.flatMap (·.seeds)) (e.animated cs) (e.log cs) := by
  induction cs generalizing e with
  | nil => exact Accounts.refl e
  | cons c rest ih =>
    have h := (accounts_command e c).append (ih (e.after c))
    rwa [animated_cons]

theorem sheet_afterAll_host {e : Engine} {sink : Host} (h : e.sheet = .host sink)
    (cs : List Command) :
    (e.afterAll cs).sheet =
      .host { sink with attempts := sink.attempts ++ (e.log cs).map (·.attempt) } := by
  have htook := (accounts_run e cs).took
  rw [h] at htook
  exact Sheet.took_host htook

/-- The caches of an engine are the log of what its sheet has taken, over every run on every sheet:
an identifier is held if and only if it was made known or compilation sent it a rule that was taken,
which happens once at most and not after it was made known; a text is held as global if and only if
it was sent as one and taken, which happens once; the animations are those that were named; and all
is put at the front. The log is what the sheet was sent. -/
theorem caches_follow_log (options : Options) (sheet : Sheet) (cs : List Command) :
    let e := new options sheet
    sheet.Took ((e.log cs).map (·.attempt)) (e.afterAll cs).sheet ∧
    (∀ id, id ∈ (e.afterAll cs).injectedIds ↔
      (∃ c ∈ cs, id ∈ c.seeds) ∨ ∃ s ∈ e.log cs, s.WritesClass id ∧ s.Accepted) ∧
    (∀ id, (e.log cs).Pairwise fun s t => s.WritesClass id → s.Accepted → ¬ t.WritesClass id) ∧
    (∀ earlier c later, cs = earlier ++ c :: later →
      ∃ rest, e.log cs = e.log (earlier ++ [c]) ++ rest ∧
        ∀ id ∈ c.seeds, ∀ s ∈ rest, ¬ s.WritesClass id) ∧
    (∀ text, text ∈ (e.afterAll cs).globals ↔
      ∃ s ∈ e.log cs, s.WritesGlobal text ∧ s.Accepted) ∧
    (∀ text, (e.log cs).Pairwise fun s t =>
      s.WritesGlobal text → s.Accepted → ¬ t.WritesGlobal text) ∧
    (e.afterAll cs).animations = e.animated cs ∧
    ∀ s ∈ e.log cs, s.attempt.index = 0 := by
  intro e
  have h := accounts_run e cs
  refine ⟨h.took, fun id => ?_, h.classes.once, ?_, fun text => ?_, h.globals.once, ?_, h.front⟩
  · rw [injectedIds, ← OrderedSet.mem_def, h.classes.mem_iff, List.mem_flatMap]
    exact or_iff_right (OrderedSet.not_mem_empty id)
  · intro earlier c later hcs
    refine ⟨(e.afterAll (earlier ++ [c])).log later, ?_, fun id hid s hs => ?_⟩
    · rw [hcs, List.append_cons, log_append]
    · have hbefore := accounts_run e (earlier ++ [c])
      have hheld : id ∈ (e.afterAll (earlier ++ [c])).injected := by
        apply (hbefore.classes.mem_iff id).2
        simp [hid]
      exact (accounts_run _ later).classes.silent id hheld s hs
  · rw [h.globals.mem_iff]
    simp [e, new]
  · rw [h.animations]
    exact Nat.zero_add _

end Engine

end AtomicCss
