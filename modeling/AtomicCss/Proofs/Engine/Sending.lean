import AtomicCss.Proofs.Engine.Writing

/-!
# What an action sends to its sheet

A sheet shows what it has taken, not what it was sent: a synthetic sheet drops a text that it holds.
So an action is watched by running it on a sink that answers as the sheet does and keeps every
attempt (`Sheet.recorder`). `Action.sent` is what is seen there.

`Sends a e log` says that watching is faithful: on every sink that answers like the engine's sheet the
action has the same result, leaves the same engine, and appends exactly `log` to the attempts; and
the engine's own sheet is left as `log` says. It passes through sequences of actions (`Sends.bind`).
-/

namespace AtomicCss

namespace Sheet

/-- The sheet `t` is what `s` becomes when the insertions are attempted one after the other, each
answered as it says. -/
def Took : Sheet → List Attempt → Sheet → Prop
  | s, [], t => t = s
  | s, a :: rest, t =>
    (s.insert a.rule a.index).2 = a.refusal ∧ Took (s.insert a.rule a.index).1 rest t

/-- A sink that will answer as the sheet would and keeps the attempts. -/
def recorder : Sheet → Host
  | synthetic _ => Host.accepting
  | host sink => ⟨fun earlier => sink.verdict (sink.attempts ++ earlier), []⟩

/-- The sink answers like the sheet, now and after any further attempts. -/
def Alike : Sheet → Host → Prop
  | synthetic _, sink => ∀ later rule index, sink.verdict (sink.attempts ++ later) rule index = none
  | host own, sink => ∀ later rule index,
    sink.verdict (sink.attempts ++ later) rule index = own.verdict (own.attempts ++ later) rule index

theorem took_append {s t u : Sheet} {l m : List Attempt} (hl : s.Took l t) (hm : t.Took m u) :
    s.Took (l ++ m) u := by
  induction l generalizing s with
  | nil =>
    rw [Took] at hl
    rwa [List.nil_append, ← hl]
  | cons a rest ih =>
    obtain ⟨ha, hrest⟩ := hl
    exact ⟨ha, ih hrest⟩

theorem took_host {sink : Host} {t : Sheet} {l : List Attempt} (h : (host sink).Took l t) :
    t = .host { sink with attempts := sink.attempts ++ l } := by
  induction l generalizing sink with
  | nil =>
    rw [Took] at h
    rw [h, List.append_nil]
  | cons a rest ih =>
    obtain ⟨ha, hrest⟩ := h
    have hstep := ih hrest
    have hverdict : sink.verdict sink.attempts a.rule a.index = a.refusal := ha
    rw [hstep, Host.insert, hverdict, List.append_assoc]
    rfl

theorem took_synthetic {rules : OrderedSet} {t : Sheet} {l : List Attempt}
    (h : (synthetic rules).Took l t) :
    t = .synthetic (rules.insertAll (l.map (·.rule))) ∧ ∀ a ∈ l, a.refusal = none := by
  induction l generalizing rules with
  | nil =>
    rw [Took] at h
    exact ⟨h, by simp⟩
  | cons a rest ih =>
    obtain ⟨ha, hrest⟩ := h
    obtain ⟨ht, hnone⟩ := ih hrest
    refine ⟨ht, fun b hb => ?_⟩
    rcases List.mem_cons.1 hb with rfl | hb
    · exact ha.symm
    · exact hnone b hb

theorem recorder_alike (s : Sheet) : s.Alike s.recorder := by
  cases s with
  | synthetic rules =>
    intro later rule index
    rfl
  | host sink =>
    intro later rule index
    rfl

@[simp] theorem recorder_attempts (s : Sheet) : s.recorder.attempts = [] := by
  cases s <;> rfl

theorem Alike.answer {s : Sheet} {sink : Host} (h : s.Alike sink) (rule : String) (index : Nat) :
    (sink.insert rule index).2 = (s.insert rule index).2 := by
  cases s with
  | synthetic rules => simpa [Host.insert, Sheet.insert] using h [] rule index
  | host own => simpa [Host.insert, Sheet.insert] using h [] rule index

theorem Alike.insert {s : Sheet} {sink : Host} (h : s.Alike sink) (rule : String) (index : Nat) :
    (s.insert rule index).1.Alike (sink.insert rule index).1 := by
  have ha := h.answer rule index
  cases s with
  | synthetic rules =>
    intro later r i
    simp only [Host.insert, List.append_assoc]
    exact h _ r i
  | host own =>
    intro later r i
    simp only [Host.insert, Sheet.insert] at ha ⊢
    rw [ha, List.append_assoc, List.append_assoc]
    exact h _ r i

/-- The sheet takes every rule from now on. -/
def TakesAll : Sheet → Prop
  | synthetic _ => True
  | host sink => ∀ later rule index, sink.verdict (sink.attempts ++ later) rule index = none

theorem takesAll_host {sink : Host} (rules : OrderedSet) :
    (host sink).TakesAll ↔ (synthetic rules).Alike sink := Iff.rfl

theorem TakesAll.answer {s : Sheet} (h : s.TakesAll) (rule : String) (index : Nat) :
    (s.insert rule index).2 = none := by
  cases s with
  | synthetic rules => rfl
  | host sink => exact ((takesAll_host .empty).1 h).answer rule index

theorem TakesAll.insert {s : Sheet} (h : s.TakesAll) (rule : String) (index : Nat) :
    (s.insert rule index).1.TakesAll := by
  cases s with
  | synthetic rules => trivial
  | host sink => exact ((takesAll_host .empty).1 h).insert rule index

end Sheet

namespace Engine

/-- The engine with a sink in place of its sheet. -/
def on (e : Engine) (sink : Host) : Engine := { e with sheet := .host sink }

end Engine

namespace Action

variable {α β : Type}

/-- What the action sends to the engine's sheet, with the answers. -/
def sent (a : Action α) (e : Engine) : List Attempt :=
  match (a (e.on e.sheet.recorder)).engine.sheet with
  | .host sink => sink.attempts
  | .synthetic _ => []

/-- The action sends `log` to its sheet, and the sheet's answers are all that it learns from it. -/
structure Sends (a : Action α) (e : Engine) (log : List Attempt) : Prop where
  took : e.sheet.Took log (a e).engine.sheet
  watched : ∀ sink, e.sheet.Alike sink → ∃ sink',
    (a (e.on sink)).result = (a e).result ∧ (a (e.on sink)).engine = (a e).engine.on sink' ∧
      (a e).engine.sheet.Alike sink' ∧ sink'.attempts = sink.attempts ++ log

/-- What is sent is seen by watching. -/
theorem Sends.sent_eq {a : Action α} {e : Engine} {log : List Attempt} (h : Sends a e log) :
    a.sent e = log := by
  obtain ⟨sink', -, he, -, hlog⟩ := h.watched e.sheet.recorder e.sheet.recorder_alike
  rw [sent, he]
  simpa [Engine.on] using hlog

/-! ## Small actions -/

/-- An action that does not touch the sheet and does not look at it sends nothing. -/
theorem Sends.of_blind {a : Action α} {e : Engine}
    (hsheet : (a e).engine.sheet = e.sheet)
    (hresult : ∀ sink, (a (e.on sink)).result = (a e).result)
    (hengine : ∀ sink, (a (e.on sink)).engine = (a e).engine.on sink) : Sends a e [] where
  took := hsheet
  watched sink hs := ⟨sink, hresult sink, hengine sink, hsheet.symm ▸ hs, by simp⟩

theorem Sends.done (x : α) (e : Engine) : Sends (Pure.pure x : Action α) e [] :=
  .of_blind rfl (fun _ => rfl) fun _ => rfl

theorem Sends.fail (failure : StyleFailure) (e : Engine) :
    Sends (Action.fail failure : Action α) e [] :=
  .of_blind rfl (fun _ => rfl) fun _ => rfl

theorem Sends.report (events : List Event) (e : Engine) : Sends (Action.report events) e [] :=
  .of_blind rfl (fun _ => rfl) fun _ => rfl

theorem Sends.look {f : Engine → α} {e : Engine} (h : ∀ sink, f (e.on sink) = f e) :
    Sends (Action.look f) e [] :=
  .of_blind rfl (fun sink => congrArg Except.ok (h sink)) fun _ => rfl

theorem Sends.change {f : Engine → Engine} {e : Engine} (hsheet : (f e).sheet = e.sheet)
    (h : ∀ sink, f (e.on sink) = (f e).on sink) : Sends (Action.change f) e [] :=
  .of_blind hsheet (fun _ => rfl) h

theorem Sends.insertRule (rule : String) (e : Engine) :
    Sends (Engine.insertRule rule) e [⟨rule, 0, e.answer rule⟩] := by
  refine ⟨⟨rfl, by rw [Engine.insertRule_engine]; rfl⟩,
    fun sink hs => ⟨(sink.insert rule 0).1, ?_, ?_, ?_, ?_⟩⟩
  · rw [Engine.insertRule_result, Engine.insertRule_result, Engine.answer, Engine.answer,
      ← hs.answer rule 0]
    rfl
  · rw [Engine.insertRule_engine, Engine.insertRule_engine]
    rfl
  · rw [Engine.insertRule_engine]
    exact hs.insert rule 0
  · rw [Engine.answer, ← hs.answer rule 0]
    rfl

/-! ## Sequences -/

theorem Sends.bind {a : Action α} {next : α → Action β} {e : Engine} {x : α} {l m : List Attempt}
    (ha : Sends a e l) (hx : (a e).result = .ok x) (hn : Sends (next x) (a e).engine m) :
    Sends (a >>= next) e (l ++ m) := by
  refine ⟨?_, fun sink hs => ?_⟩
  · rw [bind_apply_of_ok hx]
    exact Sheet.took_append ha.took hn.took
  · obtain ⟨sink', hr, he, hs', hl⟩ := ha.watched sink hs
    obtain ⟨sink'', hr', he', hs'', hm⟩ := hn.watched sink' hs'
    rw [bind_apply_of_ok hx, bind_apply_of_ok (hr.trans hx), he]
    exact ⟨sink'', hr', he', hs'', by rw [hm, hl, List.append_assoc]⟩

theorem Sends.bind_error {a : Action α} {next : α → Action β} {e : Engine}
    {failure : StyleFailure} {l : List Attempt} (ha : Sends a e l)
    (hx : (a e).result = .error failure) : Sends (a >>= next) e l := by
  refine ⟨?_, fun sink hs => ?_⟩
  · rw [bind_apply_of_error hx]
    exact ha.took
  · obtain ⟨sink', hr, he, hs', hl⟩ := ha.watched sink hs
    rw [bind_apply_of_error hx, bind_apply_of_error (hr.trans hx)]
    exact ⟨sink', rfl, he, hs', hl⟩

theorem Sends.after_blind {a : Action α} {next : α → Action β} {e : Engine} {x : α}
    {m : List Attempt} (ha : Sends a e []) (hx : (a e).result = .ok x)
    (hn : Sends (next x) (a e).engine m) : Sends (a >>= next) e m := by
  simpa using ha.bind hx hn

theorem Sends.map {a : Action α} {e : Engine} {l : List Attempt} (f : α → β) (ha : Sends a e l) :
    Sends (f <$> a) e l := by
  have hmap : f <$> a = a >>= fun x => Pure.pure (f x) := (bind_pure_comp f a).symm
  rw [hmap]
  cases hx : (a e).result with
  | error failure => exact ha.bind_error hx
  | ok x =>
    rw [← List.append_nil l]
    exact ha.bind hx (Sends.done (f x) (a e).engine)

theorem Sends.congr {a b : Action α} {e : Engine} {l : List Attempt} (h : a e = b e)
    (hs : ∀ sink, a (e.on sink) = b (e.on sink)) (hb : Sends b e l) : Sends a e l where
  took := h.symm ▸ hb.took
  watched sink halike := by
    rw [h, hs]
    exact hb.watched sink halike

/-! ## Writing -/

theorem Sends.insertRule_then (rule : String) {next : Unit → Action β}
    (h : ∀ e, Sends (next ()) e []) (e : Engine) :
    Sends (Engine.insertRule rule >>= next) e [⟨rule, 0, e.answer rule⟩] := by
  have hi := Sends.insertRule rule e
  cases hx : (Engine.insertRule rule e).result with
  | error failure => exact hi.bind_error hx
  | ok x =>
    rw [← List.append_nil [_]]
    exact hi.bind hx (h _)

theorem Sends.inject_known {s name : String} {value : Value} {e : Engine}
    (h : classId name value ∈ e.injected) : Sends (Engine.inject s name value) e [] := by
  refine .of_blind ?_ (fun sink => ?_) fun sink => ?_
  · rw [Engine.inject_known h]
  · rw [Engine.inject_known h, Engine.inject_known (show _ ∈ (e.on sink).injected from h)]
  · rw [Engine.inject_known h, Engine.inject_known (show _ ∈ (e.on sink).injected from h)]

theorem Sends.inject_unknown {s name : String} {value : Value} {e : Engine}
    (h : classId name value ∉ e.injected) :
    Sends (Engine.inject s name value) e
      [⟨Rule.ofClass (classId name value) s name value, 0,
        e.answer (Rule.ofClass (classId name value) s name value)⟩] := by
  refine .congr (Engine.inject_unknown h)
    (fun sink => Engine.inject_unknown (show _ ∉ (e.on sink).injected from h)) ?_
  refine .insertRule_then _ (fun e' => .after_blind (.report _ e') rfl ?_) e
  exact .after_blind (.change rfl fun _ => rfl) rfl (.done _ _)

theorem Sends.injectGlobal_known {rule : String} {e : Engine} (h : rule ∈ e.globals) :
    Sends (Engine.injectGlobal rule) e [] := by
  refine .of_blind ?_ (fun sink => ?_) fun sink => ?_
  · rw [Engine.injectGlobal_known h]
  · rw [Engine.injectGlobal_known h,
      Engine.injectGlobal_known (show _ ∈ (e.on sink).globals from h)]
  · rw [Engine.injectGlobal_known h,
      Engine.injectGlobal_known (show _ ∈ (e.on sink).globals from h)]

theorem Sends.injectGlobal_unknown {rule : String} {e : Engine} (h : rule ∉ e.globals) :
    Sends (Engine.injectGlobal rule) e [⟨rule, 0, e.answer rule⟩] := by
  refine .congr (Engine.injectGlobal_unknown h)
    (fun sink => Engine.injectGlobal_unknown (show _ ∉ (e.on sink).globals from h)) ?_
  refine .insertRule_then _ (fun e' => .after_blind (.change rfl fun _ => rfl) rfl ?_) e
  exact .report _ _

theorem Sends.injectKeyframes (k : Keyframes) (e : Engine) :
    Sends (Engine.injectKeyframes k) e
      [⟨k.rule (animationName e.animations), 0,
        e.answer (k.rule (animationName e.animations))⟩] := by
  refine .after_blind (.look fun _ => rfl) rfl (.after_blind (.report _ e) rfl ?_)
  refine .insertRule_then _ (fun e' => .after_blind (.change rfl fun _ => rfl) rfl ?_) e
  exact .after_blind (.report _ _) rfl (.done _ _)

end Action

end AtomicCss
