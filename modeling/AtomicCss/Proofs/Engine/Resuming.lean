import AtomicCss.Proofs.Engine.Ledger
import AtomicCss.Proofs.Engine.Rejecting
import AtomicCss.Proofs.Engine.Result

/-!
# Compiling again after a refusal

A compilation that is refused a rule stops there: what it has written before is remembered, the
refused class is not (`compile_refused`). So the declaration can be compiled again, as often as it
takes. Once the sheet takes everything, the compilation ends with the class map that an engine gets
whose sheet never refused anything, and over all the attempts every class that was not known at first
has been written once (`compile_resumes`).
-/

namespace AtomicCss

/-- Exactly one item of the list has the property. -/
def ExactlyOne {α : Type} (p : α → Prop) (l : List α) : Prop :=
  ∃ before x after, l = before ++ x :: after ∧ p x ∧ ∀ y ∈ before ++ after, ¬ p y

theorem ExactlyOne.of_pairwise {α : Type} {p : α → Prop} {l : List α} {x : α} (hx : x ∈ l)
    (hp : p x) (h : l.Pairwise fun x y => p x → ¬ p y) : ExactlyOne p l := by
  obtain ⟨before, after, rfl⟩ := List.append_of_mem hx
  obtain ⟨-, hafter, hbefore⟩ := List.pairwise_append.1 h
  refine ⟨before, x, after, rfl, hp, fun y hy => ?_⟩
  rcases List.mem_append.1 hy with hy | hy
  · exact fun hpy => hbefore y hy x List.mem_cons_self hpy hp
  · exact (List.pairwise_cons.1 hafter).1 y hy hp

/-- Where nothing is made known without sending, an item that becomes known has been sent and taken
once. -/
theorem Remembers.exactlyOne {tries : Sending → String → Prop} {before after : OrderedSet}
    {log : List Sending} {x : String} (h : Remembers tries before after [] log)
    (hnew : x ∉ before) (hknown : x ∈ after) :
    ExactlyOne (fun s => tries s x ∧ s.Accepted) log := by
  obtain ⟨s, hs, htries, haccepted⟩ :=
    (((h.mem_iff x).1 hknown).resolve_left hnew).resolve_left List.not_mem_nil
  refine .of_pairwise hs ⟨htries, haccepted⟩ ((h.once x).imp ?_)
  rintro s t hst ⟨hs, ha⟩ ⟨ht, -⟩
  exact hst hs ha ht

namespace Engine

/-! ## Where every rule is taken -/

theorem compile_takesAll {e : Engine} (hs : e.sheet.TakesAll) (hm : e.options.mode ≠ .noop)
    {d : Declaration} (hflat : Flat e.options.pipeline d) :
    (compile d e).result = .ok (ClassMap.ofList (assigned e.options.pipeline d)) := by
  rw [compile_result hm hs, firstNesting?_eq_none_iff.2 hflat, classesOf_eq_ofList,
    entered_visits (not_nests_visits_iff.2 hflat)]

/-! ## Where a rule is refused -/

section refused

variable {α β : Type} {a : Action α} {e : Engine} {o : Occurrence} {refusal : Refusal}

/-- All that the action sends is taken. -/
def AllTaken (a : Action α) (e : Engine) : Prop :=
  ∃ l, Action.Sends a e l ∧ ∀ x ∈ l, x.refusal = none

/-- The action fails because the rule of an entry is refused: all that it sends before is taken, and
the entry's class is not known afterwards. -/
structure RefusedAt (a : Action α) (e : Engine) (o : Occurrence) (refusal : Refusal) : Prop where
  result : (a e).result = .error (.refused refusal)
  unknown : o.cls ∉ (a e).engine.injected
  sends : ∃ l, Action.Sends a e (l ++ [⟨o.rule, 0, some refusal⟩]) ∧ ∀ x ∈ l, x.refusal = none

theorem RefusedAt.bind (h : RefusedAt a e o refusal) (next : α → Action β) :
    RefusedAt (a >>= next) e o refusal := by
  obtain ⟨l, hs, hl⟩ := h.sends
  refine ⟨?_, ?_, l, hs.bind_error h.result, hl⟩
  · rw [Action.bind_apply_of_error h.result]
  · rw [Action.bind_apply_of_error h.result]
    exact h.unknown

theorem RefusedAt.of_next {next : α → Action β} {x : α} (ha : AllTaken a e)
    (hx : (a e).result = .ok x) (h : RefusedAt (next x) (a e).engine o refusal) :
    RefusedAt (a >>= next) e o refusal := by
  obtain ⟨first, hfirst, htaken⟩ := ha
  obtain ⟨l, hs, hl⟩ := h.sends
  refine ⟨?_, ?_, first ++ l, ?_, fun x hx => (List.mem_append.1 hx).elim (htaken x) (hl x)⟩
  · rw [Action.bind_apply_of_ok hx]
    exact h.result
  · rw [Action.bind_apply_of_ok hx]
    exact h.unknown
  · rw [List.append_assoc]
    exact hfirst.bind hx hs

end refused

theorem inject_refusedAt {o : Occurrence} {e : Engine} {failure : StyleFailure}
    (h : (inject (suffix o.state) o.name o.value e).result = .error failure) :
    ∃ refusal, failure = .refused refusal ∧
      RefusedAt (inject (suffix o.state) o.name o.value) e o refusal := by
  obtain ⟨hk, refusal, ha, rfl⟩ := inject_eq_error_iff.1 h
  obtain ⟨hr, he⟩ := inject_refused hk ha
  have hs : Action.Sends (inject (suffix o.state) o.name o.value) e
      [⟨o.rule, 0, e.answer o.rule⟩] := .inject_unknown hk
  rw [show e.answer o.rule = some refusal from ha] at hs
  exact ⟨refusal, rfl, hr, he ▸ hk, [], hs, by simp⟩

theorem allTaken_of_inject_ok {o : Occurrence} {e : Engine} {id : String}
    (h : (inject (suffix o.state) o.name o.value e).result = .ok id) :
    AllTaken (inject (suffix o.state) o.name o.value) e := by
  by_cases hk : o.cls ∈ e.injected
  · exact ⟨[], .inject_known hk, by simp⟩
  · refine ⟨_, .inject_unknown hk, fun x hx => ?_⟩
    rw [List.mem_singleton.1 hx]
    exact (inject_eq_ok_iff.1 h).2.resolve_left hk

/-- A walk that meets no block inside a block fails only where a rule is refused. -/
theorem walk_refusedAt {vs : List Visit} (hflat : ¬ Nests vs) {classes : ClassMap} {e : Engine}
    {failure : StyleFailure} (h : (walk vs classes e).result = .error failure) :
    ∃ o ∈ entered vs, ∃ refusal, failure = .refused refusal ∧
      RefusedAt (walk vs classes) e o refusal := by
  induction vs generalizing classes e with
  | nil => cases h
  | cons v rest ih =>
    cases v with
    | nesting outer inner => exact absurd (nests_nesting outer inner rest) hflat
    | entry o =>
      cases hr : (inject (suffix o.state) o.name o.value e).result with
      | error failure' =>
        obtain ⟨refusal, rfl, hrefused⟩ := inject_refusedAt hr
        rw [walk, Action.bind_apply_of_error hr] at h
        exact ⟨o, List.mem_cons_self, refusal, (Except.error.inj h).symm, hrefused.bind _⟩
      | ok id =>
        rw [walk, Action.bind_apply_of_ok hr] at h
        obtain ⟨q, hq, refusal, hfailure, hrefused⟩ := ih (mt nests_entry.2 hflat) h
        refine ⟨q, List.mem_cons_of_mem o hq, refusal, hfailure, ?_⟩
        exact hrefused.of_next (allTaken_of_inject_ok hr) hr

/-- A compilation without a block inside a block fails only because the sheet refuses a rule. It is
the last one sent, and its class is not known afterwards. -/
theorem compile_refused {d : Declaration} {e : Engine} (hm : e.options.mode ≠ .noop)
    (hflat : Flat e.options.pipeline d) {failure : StyleFailure}
    (h : (compile d e).result = .error failure) :
    ∃ o refusal before, Occurs e.options.pipeline d o ∧ failure = .refused refusal ∧
      e.sendings (.compile d) = before ++ [⟨.compile d, ⟨o.rule, 0, some refusal⟩⟩] ∧
      (∀ s ∈ before, s.Accepted) ∧ o.cls ∉ (e.after (.compile d)).injected := by
  rw [(compile_eq_walk hm).1] at h
  obtain ⟨o, ho, refusal, hfailure, hrefused⟩ := walk_refusedAt (not_nests_visits_iff.2 hflat) h
  obtain ⟨l, hs, hl⟩ := hrefused.sends
  refine ⟨o, refusal, l.map (⟨.compile d, ·⟩), occurs_of_mem_visits (mem_of_mem_entered ho),
    hfailure, ?_, ?_, ?_⟩
  · rw [sendings_compile (sends_compile hm hs), List.map_append, List.map_singleton]
  · intro s hs
    obtain ⟨x, hx, rfl⟩ := List.mem_map.1 hs
    exact hl x hx
  · rw [after_compile, (compile_eq_walk hm).2]
    exact hrefused.unknown

/-! ## Compiling again -/

theorem remembers_replicate_compile (e : Engine) (n : Nat) (d : Declaration) :
    Remembers Sending.WritesClass e.injected (e.afterAll (.replicate n (.compile d))).injected []
      (e.log (.replicate n (.compile d))) := by
  have hseeds : (List.replicate n (Command.compile d)).flatMap (·.seeds) = [] := by
    rw [List.flatMap_eq_nil_iff]
    intro c hc
    rw [List.eq_of_mem_replicate hc]
    rfl
  have h := (accounts_run e (.replicate n (.compile d))).classes
  rwa [hseeds] at h

theorem mem_injected_of_compile_ok {e : Engine} (hm : e.options.mode ≠ .noop) {d : Declaration}
    {m : ClassMap} (hok : (compile d e).result = .ok m) {id : String}
    (hid : id ∈ (assigned e.options.pipeline d).map Prod.snd) :
    id ∈ (e.after (.compile d)).injected := by
  rw [after_compile, injected_of_compile_ok hm hok, OrderedSet.mem_insertAll]
  exact .inr hid

/-- A compilation that was refused rules can be taken up again. On any engine, let a declaration
without a block inside a block be compiled any number of times, whatever the sheet refuses meanwhile,
and let the sheet then take everything. The next compilation gives the class map that it gives where
every rule is taken. Over all these compilations, a class of the declaration that was not known at
first has been written and taken exactly once, and one that was known has not been sent. And a
compilation that fails does so at a rule that is refused, and does not remember its class. -/
theorem compile_resumes (e : Engine) (hm : e.options.mode ≠ .noop) (d : Declaration)
    (hflat : Flat e.options.pipeline d) (n : Nat)
    (htakes : (e.afterAll (.replicate n (.compile d))).sheet.TakesAll) :
    (∃ m, (compile d (e.afterAll (.replicate n (.compile d)))).result = .ok m ∧
      ∀ f : Engine, f.options = e.options → f.sheet.TakesAll → (compile d f).result = .ok m) ∧
    (∀ id ∈ (assigned e.options.pipeline d).map Prod.snd,
      (id ∉ e.injected → ExactlyOne (fun s => s.WritesClass id ∧ s.Accepted)
        (e.log (.replicate (n + 1) (.compile d)))) ∧
      (id ∈ e.injected → ∀ s ∈ e.log (.replicate (n + 1) (.compile d)), ¬ s.WritesClass id)) ∧
    ∀ k failure, let f := e.afterAll (.replicate k (.compile d))
      (compile d f).result = .error failure →
        ∃ o refusal before, Occurs e.options.pipeline d o ∧ failure = .refused refusal ∧
          f.sendings (.compile d) = before ++ [⟨.compile d, ⟨o.rule, 0, some refusal⟩⟩] ∧
          (∀ s ∈ before, s.Accepted) ∧ o.cls ∉ (f.after (.compile d)).injected := by
  have hopts : ∀ k, (e.afterAll (.replicate k (.compile d))).options = e.options :=
    fun k => afterAll_options e _
  have hok : (compile d (e.afterAll (.replicate n (.compile d)))).result =
      .ok (ClassMap.ofList (assigned e.options.pipeline d)) := by
    have h := compile_takesAll htakes (by rwa [hopts]) (d := d) (by rwa [hopts])
    rwa [hopts] at h
  refine ⟨⟨_, hok, fun f hf hs => ?_⟩, fun id hid => ?_, fun k failure => ?_⟩
  · have h := compile_takesAll hs (by rwa [hf]) (d := d) (by rwa [hf])
    rwa [hf] at h
  · have hrun := remembers_replicate_compile e (n + 1) d
    refine ⟨fun hnew => hrun.exactlyOne hnew ?_, hrun.silent id⟩
    rw [List.replicate_succ', afterAll_append]
    exact mem_injected_of_compile_ok (by rwa [hopts]) hok (by rwa [hopts])
  · intro f h
    have hrefused := compile_refused (by rwa [hopts]) (by rwa [hopts]) h
    rwa [hopts] at hrefused

/-- A property that has the same value by itself and, behind another one, under the pointer. -/
def echoed : Declaration :=
  Table.ofList [("color", .text "red"),
    (":hover", .nested (Table.ofList [("width", .text "1px"), ("color", .text "red")]))]

theorem flat_echoed : Flat Pipeline.empty echoed := by
  intro outer b hb inner c hc
  change (outer.key, Value.nested b) ∈ [("color", .text "red"),
    (":hover", .nested (Table.ofList [("width", .text "1px"), ("color", .text "red")]))] at hb
  simp only [List.mem_cons, Prod.mk.injEq, reduceCtorEq, and_false, List.not_mem_nil, or_false,
    false_or, Value.nested.injEq] at hb
  obtain ⟨-, rfl⟩ := hb
  change (inner.key, Value.nested c) ∈ [("width", Value.text "1px"), ("color", .text "red")] at hc
  simp at hc

/-- A sink that is busy at the second insertion. -/
def busySecond : Host :=
  ⟨fun earlier _ _ => if earlier.length = 1 then some (.unavailable "busy") else none, []⟩

theorem takesAll_busySecond {e : Engine} (h : e.sheet = .host busySecond) {cs : List Command}
    (hlog : 2 ≤ (e.log cs).length) : (e.afterAll cs).sheet.TakesAll := by
  rw [sheet_afterAll_host h]
  intro later rule index
  refine if_neg ?_
  rw [List.length_append, List.length_append, List.length_map]
  omega

/-- The first compilation is refused the rule of the block's first entry, the second sends that rule
again and not the one before it. -/
theorem echoed_resumes :
    let e := new Options.standard (.host busySecond)
    (compile echoed e).result.isOk = false ∧
    (∃ m, (compile echoed (e.afterAll [.compile echoed])).result = .ok m) ∧
    ∀ id ∈ [classId "color" (.text "red"), classId "width" (.text "1px")],
      ExactlyOne (fun s => s.WritesClass id ∧ s.Accepted)
        (e.log [.compile echoed, .compile echoed]) := by
  intro e
  have htakes : (e.afterAll (.replicate 1 (.compile echoed))).sheet.TakesAll :=
    takesAll_busySecond rfl (by decide)
  obtain ⟨⟨m, hok, -⟩, hwritten, -⟩ :=
    compile_resumes e (by decide) echoed flat_echoed 1 htakes
  refine ⟨by decide, ⟨m, hok⟩, fun id hid => (hwritten id ?_).1 (by simp [e, new])⟩
  have hassigned : (assigned Pipeline.empty echoed).map Prod.snd =
      [classId "color" (.text "red"), classId "width" (.text "1px"),
        classId "color" (.text "red")] := by decide
  show id ∈ (assigned Pipeline.empty echoed).map Prod.snd
  rw [hassigned]
  exact List.mem_append_left [_] hid

end Engine

end AtomicCss
