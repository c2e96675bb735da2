import AtomicCss.Engine.Actions

/-!
# Laws of actions that write

Actions form a lawful monad, and the small actions run inside a longer one as one expects; the rest
of the theory opens sequences of actions by these equations only. An action that writes has one
statement for each way it can go.
-/

namespace AtomicCss.Action

variable {α β γ : Type}

theorem bind_apply (a : Action α) (next : α → Action β) (e : Engine) :
    (a >>= next) e = match (a e).result with
      | .ok x =>
        ⟨(next x (a e).engine).result, (next x (a e).engine).engine,
          (a e).events ++ (next x (a e).engine).events⟩
      | .error failure => ⟨.error failure, (a e).engine, (a e).events⟩ := by
  cases h : (a e).result with
  | ok x => rw [bind_apply_of_ok h]
  | error failure => rw [bind_apply_of_error h]

theorem map_id_eq (a : Action α) : id <$> a = a := by
  funext e
  show (a >>= fun x => pure x) e = a e
  rw [bind_apply]
  rcases a e with ⟨r, e', events⟩
  cases r <;> simp

theorem pure_bind_eq (x : α) (next : α → Action β) : pure x >>= next = next x := by
  funext e
  rfl

theorem bind_bind (a : Action α) (next : α → Action β) (last : β → Action γ) :
    a >>= next >>= last = a >>= fun x => next x >>= last := by
  funext e
  rw [bind_apply, bind_apply, bind_apply]
  rcases a e with ⟨r, e', events⟩
  cases r with
  | error failure => rfl
  | ok x =>
    simp only [bind_apply]
    rcases next x e' with ⟨r, e'', events'⟩
    cases r <;> simp

instance : LawfulMonad Action := LawfulMonad.mk' Action map_id_eq pure_bind_eq bind_bind

/-! ## Small actions inside longer ones -/

@[simp] theorem look_bind (f : Engine → α) (next : α → Action β) (e : Engine) :
    (look f >>= next) e = next (f e) e := rfl

@[simp] theorem report_bind_result (events : List Event) (next : Unit → Action β) (e : Engine) :
    ((report events >>= next) e).result = (next () e).result := rfl

@[simp] theorem report_bind_engine (events : List Event) (next : Unit → Action β) (e : Engine) :
    ((report events >>= next) e).engine = (next () e).engine := rfl

theorem map_result (f : α → β) (a : Action α) (e : Engine) :
    ((f <$> a) e).result = (a e).result.map f := by
  show ((a >>= fun x => pure (f x)) e).result = _
  rw [bind_apply]
  cases (a e).result <;> rfl

@[simp] theorem map_engine (f : α → β) (a : Action α) (e : Engine) :
    ((f <$> a) e).engine = (a e).engine := by
  show ((a >>= fun x => pure (f x)) e).engine = _
  rw [bind_apply]
  cases (a e).result <;> rfl

theorem exists_of_isOk {r : Except StyleFailure α} (h : r.isOk = true) : ∃ x, r = .ok x := by
  cases r with
  | ok x => exact ⟨x, rfl⟩
  | error failure => cases h

end AtomicCss.Action

namespace AtomicCss.Engine

/-! ## What the writing actions do

One statement for each way an action that writes can go: the rule is known and nothing happens, the
sheet takes the rule and it is remembered, or the sheet refuses it and only the sheet has changed.
-/

/-- The result of sending a rule: the sheet's refusal, if it refuses. -/
def verdict : Option Refusal → Except StyleFailure Unit
  | none => .ok ()
  | some refusal => .error (.refused refusal)

/-- The sheet's answer if the engine sends it a rule. -/
def answer (e : Engine) (rule : String) : Option Refusal := (e.sheet.insert rule 0).2

/-- The engine after it has sent its sheet a rule. -/
def sending (e : Engine) (rule : String) : Engine :=
  { e with sheet := (e.sheet.insert rule 0).1 }

theorem insertRule_result (rule : String) (e : Engine) :
    (insertRule rule e).result = verdict (e.answer rule) := by
  unfold insertRule answer
  rcases e.sheet.insert rule 0 with ⟨sheet, _ | refusal⟩ <;> rfl

theorem insertRule_engine (rule : String) (e : Engine) :
    (insertRule rule e).engine = e.sending rule := by
  unfold insertRule sending
  rcases e.sheet.insert rule 0 with ⟨sheet, _ | refusal⟩ <;> rfl

/-! ### Classes -/

section inject

variable {s name : String} {value : Value} {e : Engine}

theorem inject_known (h : classId name value ∈ e.injected) :
    inject s name value e = ⟨.ok (classId name value), e, [.classKnown (classId name value)]⟩ := by
  unfold inject
  rw [Action.look_bind, isInjected, OrderedSet.contains_iff.2 h]
  rfl

theorem inject_unknown (h : classId name value ∉ e.injected) :
    inject s name value e = (do
      let rule := Rule.ofClass (classId name value) s name value
      insertRule rule
      Action.report [.ruleInserted (classId name value) rule]
      Action.change fun e => { e with injected := e.injected.insert (classId name value) }
      pure (classId name value) : Action String) e := by
  have hc : e.injected.contains (classId name value) = false :=
    Bool.eq_false_iff.2 fun hc => h (OrderedSet.contains_iff.1 hc)
  unfold inject
  rw [Action.look_bind, isInjected, hc]
  rfl

theorem inject_taken (h : classId name value ∉ e.injected)
    (ha : e.answer (Rule.ofClass (classId name value) s name value) = none) :
    (inject s name value e).result = .ok (classId name value) ∧
      (inject s name value e).engine =
        { e.sending (Rule.ofClass (classId name value) s name value) with
          injected := e.injected.insert (classId name value) } := by
  have hr := insertRule_result (Rule.ofClass (classId name value) s name value) e
  rw [ha] at hr
  rw [inject_unknown h, Action.bind_apply_of_ok hr, insertRule_engine]
  exact ⟨rfl, rfl⟩

theorem inject_refused {refusal : Refusal} (h : classId name value ∉ e.injected)
    (ha : e.answer (Rule.ofClass (classId name value) s name value) = some refusal) :
    (inject s name value e).result = .error (.refused refusal) ∧
      (inject s name value e).engine =
        e.sending (Rule.ofClass (classId name value) s name value) := by
  have hr := insertRule_result (Rule.ofClass (classId name value) s name value) e
  rw [ha] at hr
  rw [inject_unknown h, Action.bind_apply_of_error hr, insertRule_engine]
  exact ⟨rfl, rfl⟩

/-- What a new class leaves behind: the sheet has been sent its rule, and the class is remembered if
the sheet has taken it. -/
theorem inject_engine (h : classId name value ∉ e.injected) :
    (inject s name value e).engine =
      { e.sending (Rule.ofClass (classId name value) s name value) with
        injected :=
          if e.answer (Rule.ofClass (classId name value) s name value) = none then
            e.injected.insert (classId name value)
          else e.injected } := by
  cases ha : e.answer (Rule.ofClass (classId name value) s name value) with
  | none => rw [(inject_taken h ha).2, if_pos rfl]
  | some refusal =>
    rw [(inject_refused h ha).2, if_neg (by simp)]
    rfl

theorem inject_eq_ok_iff {id : String} :
    (inject s name value e).result = .ok id ↔
      classId name value = id ∧
        (classId name value ∈ e.injected ∨
          e.answer (Rule.ofClass (classId name value) s name value) = none) := by
  by_cases hk : classId name value ∈ e.injected
  · rw [inject_known hk]
    simp [hk]
  · cases ha : e.answer (Rule.ofClass (classId name value) s name value) with
    | none =>
      rw [(inject_taken hk ha).1]
      simp
    | some refusal =>
      rw [(inject_refused hk ha).1]
      simp [hk]

theorem inject_eq_error_iff {failure : StyleFailure} :
    (inject s name value e).result = .error failure ↔
      classId name value ∉ e.injected ∧
        ∃ refusal, e.answer (Rule.ofClass (classId name value) s name value) = some refusal ∧
          .refused refusal = failure := by
  by_cases hk : classId name value ∈ e.injected
  · rw [inject_known hk]
    simp [hk]
  · cases ha : e.answer (Rule.ofClass (classId name value) s name value) with
    | none =>
      rw [(inject_taken hk ha).1]
      simp
    | some refusal =>
      rw [(inject_refused hk ha).1]
      simp [hk]

theorem inject_ok {id : String} (h : (inject s name value e).result = .ok id) :
    id = classId name value :=
  (inject_eq_ok_iff.1 h).1.symm

theorem inject_options (s name : String) (value : Value) (e : Engine) :
    (inject s name value e).engine.options = e.options := by
  by_cases hk : classId name value ∈ e.injected
  · rw [inject_known hk]
  · rw [inject_engine hk, sending]

end inject

/-! ### Rules without a class -/

theorem injectGlobal_known {rule : String} {e : Engine} (h : rule ∈ e.globals) :
    injectGlobal rule e = ⟨.ok (), e, []⟩ := by
  unfold injectGlobal
  rw [Action.look_bind, OrderedSet.contains_iff.2 h]
  rfl

theorem injectGlobal_unknown {rule : String} {e : Engine} (h : rule ∉ e.globals) :
    injectGlobal rule e = (do
      insertRule rule
      Action.change fun e => { e with globals := e.globals.insert rule }
      Action.report [.globalInserted rule] : Action Unit) e := by
  have hc : e.globals.contains rule = false :=
    Bool.eq_false_iff.2 fun hc => h (OrderedSet.contains_iff.1 hc)
  unfold injectGlobal
  rw [Action.look_bind, hc]
  rfl

theorem injectGlobal_taken {rule : String} {e : Engine} (h : rule ∉ e.globals)
    (ha : e.answer rule = none) :
    (injectGlobal rule e).result = .ok () ∧
      (injectGlobal rule e).engine = { e.sending rule with globals := e.globals.insert rule } := by
  have hr := insertRule_result rule e
  rw [ha] at hr
  rw [injectGlobal_unknown h, Action.bind_apply_of_ok hr, insertRule_engine]
  exact ⟨rfl, rfl⟩

theorem injectGlobal_refused {rule : String} {e : Engine} {refusal : Refusal}
    (h : rule ∉ e.globals) (ha : e.answer rule = some refusal) :
    (injectGlobal rule e).result = .error (.refused refusal) ∧
      (injectGlobal rule e).engine = e.sending rule := by
  have hr := insertRule_result rule e
  rw [ha] at hr
  rw [injectGlobal_unknown h, Action.bind_apply_of_error hr, insertRule_engine]
  exact ⟨rfl, rfl⟩

theorem injectGlobal_engine {rule : String} {e : Engine} (h : rule ∉ e.globals) :
    (injectGlobal rule e).engine =
      { e.sending rule with
        globals := if e.answer rule = none then e.globals.insert rule else e.globals } := by
  cases ha : e.answer rule with
  | none => rw [(injectGlobal_taken h ha).2, if_pos rfl]
  | some refusal =>
    rw [(injectGlobal_refused h ha).2, if_neg (by simp)]
    rfl

theorem injectGlobal_options (rule : String) (e : Engine) :
    (injectGlobal rule e).engine.options = e.options := by
  by_cases hk : rule ∈ e.globals
  · rw [injectGlobal_known hk]
  · rw [injectGlobal_engine hk, sending]

/-! ### Animations -/

theorem injectKeyframes_taken {k : Keyframes} {e : Engine}
    (ha : e.answer (k.rule (animationName e.animations)) = none) :
    (injectKeyframes k e).result = .ok (animationName e.animations) ∧
      (injectKeyframes k e).engine =
        { e.sending (k.rule (animationName e.animations)) with animations := e.animations + 1 } := by
  have hr := insertRule_result (k.rule (animationName e.animations)) e
  rw [ha] at hr
  unfold injectKeyframes
  rw [Action.look_bind, Action.report_bind_result, Action.report_bind_engine,
    Action.bind_apply_of_ok hr, insertRule_engine]
  exact ⟨rfl, rfl⟩

theorem injectKeyframes_refused {k : Keyframes} {e : Engine} {refusal : Refusal}
    (ha : e.answer (k.rule (animationName e.animations)) = some refusal) :
    (injectKeyframes k e).result = .error (.refused refusal) ∧
      (injectKeyframes k e).engine = e.sending (k.rule (animationName e.animations)) := by
  have hr := insertRule_result (k.rule (animationName e.animations)) e
  rw [ha] at hr
  unfold injectKeyframes
  rw [Action.look_bind, Action.report_bind_result, Action.report_bind_engine,
    Action.bind_apply_of_error hr, insertRule_engine]
  exact ⟨rfl, rfl⟩

theorem injectKeyframes_engine (k : Keyframes) (e : Engine) :
    (injectKeyframes k e).engine =
      { e.sending (k.rule (animationName e.animations)) with
        animations := e.animations + (injectKeyframes k e).result.isOk.toNat } := by
  cases ha : e.answer (k.rule (animationName e.animations)) with
  | none =>
    rw [(injectKeyframes_taken ha).1, (injectKeyframes_taken ha).2]
    rfl
  | some refusal =>
    rw [(injectKeyframes_refused ha).1, (injectKeyframes_refused ha).2]
    rfl

end AtomicCss.Engine
