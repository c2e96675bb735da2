import AtomicCss.Engine.Actions
import AtomicCss.Proofs.Engine.Sending
import AtomicCss.Proofs.Engine.Visit

/-!
# Runs of commands

What a user asks of an engine is one of nine commands, and a run is any list of them. The engine goes
on after a command that fails. A run's log is everything that was sent to the sheet, with the command
that sent it.
-/

namespace AtomicCss

/-- An operation of an engine with its arguments. -/
inductive Command
  | compile (d : Declaration)
  | create (namespaces : List (String × Declaration))
  | injectGlobal (rule : String)
  | injectTheme (selector : String) (theme : Theme)
  | injectKeyframes (keyframes : Keyframes)
  | seed (ids : List String)
  | rehydrate (c : Capture)
  | capture
  | inlineStyle (d : Declaration)

/-- What a command gives if it does not fail. -/
inductive Answer
  | classes (m : ClassMap)
  | namespaces (t : Table ClassMap)
  | name (text : String)
  | captured (c : Capture)
  | style (text : String)
  | done

namespace Command

/-- What a command does. -/
def action : Command → Action Answer
  | compile d => .classes <$> Engine.compile d
  | create namespaces => .namespaces <$> Engine.create namespaces
  | injectGlobal rule => (fun _ => .done) <$> Engine.injectGlobal rule
  | injectTheme selector theme => (fun _ => .done) <$> Engine.injectTheme selector theme
  | injectKeyframes keyframes => .name <$> Engine.injectKeyframes keyframes
  | seed ids => (fun _ => .done) <$> Engine.seed ids
  | rehydrate c => (fun _ => .done) <$> Engine.rehydrate c
  | capture => .captured <$> Engine.capture
  | inlineStyle d => .style <$> Action.look (·.inlineStyle d)

/-- Whether declarations are compiled. -/
def compiles : Command → Bool
  | compile _ | create _ => true
  | _ => false

/-- Whether a rule is written that belongs to no class and is no animation. -/
def writesGlobal : Command → Bool
  | injectGlobal _ | injectTheme _ _ => true
  | _ => false

/-- Whether an animation is written. -/
def animates : Command → Bool
  | injectKeyframes _ => true
  | _ => false

/-- The identifiers that become known without writing. -/
def seeds : Command → List String
  | seed ids => ids
  | rehydrate c => c.ids
  | _ => []

end Command

/-- An insertion attempted at the sheet, and the command that attempted it. -/
structure Sending where
  command : Command
  attempt : Attempt

namespace Sending

/-- The sheet has taken the rule. -/
def Accepted (s : Sending) : Prop := s.attempt.refusal = none

/-- The rule is one of a class, sent by compilation. -/
def WritesClass (s : Sending) (id : String) : Prop :=
  s.command.compiles = true ∧ ∃ o : Engine.Occurrence, o.cls = id ∧ s.attempt.rule = o.rule

/-- The rule belongs to no class and is sent as a global or a theme. -/
def WritesGlobal (s : Sending) (text : String) : Prop :=
  s.command.writesGlobal = true ∧ s.attempt.rule = text

end Sending

namespace Engine

/-- The engine after a command, failed or not. -/
def after (e : Engine) (c : Command) : Engine := (c.action e).engine

/-- The engine after a run. -/
def afterAll (e : Engine) (cs : List Command) : Engine := cs.foldl after e

/-- The commands of a run, each with the engine that it meets. -/
def trace : Engine → List Command → List (Command × Engine)
  | _, [] => []
  | e, c :: rest => (c, e) :: trace (e.after c) rest

/-- What the commands of a run give, in order. -/
def answers (e : Engine) (cs : List Command) : List (Except StyleFailure Answer) :=
  (e.trace cs).map fun step => (step.1.action step.2).result

/-- What one command sends. -/
def sendings (e : Engine) (c : Command) : List Sending := (c.action.sent e).map (⟨c, ·⟩)

/-- What a run sends, in order. -/
def log (e : Engine) (cs : List Command) : List Sending :=
  (e.trace cs).flatMap fun step => step.2.sendings step.1

/-- Whether a command writes an animation and does not fail. -/
def writesAnimation (e : Engine) (c : Command) : Bool := c.animates && (c.action e).result.isOk

/-- The number of animations that a run writes. -/
def animated (e : Engine) (cs : List Command) : Nat :=
  (e.trace cs).countP fun step => step.2.writesAnimation step.1

@[simp] theorem afterAll_cons (e : Engine) (c : Command) (cs : List Command) :
    e.afterAll (c :: cs) = (e.after c).afterAll cs := rfl

theorem afterAll_append (e : Engine) (cs ds : List Command) :
    e.afterAll (cs ++ ds) = (e.afterAll cs).afterAll ds := List.foldl_append

theorem trace_append (e : Engine) (cs ds : List Command) :
    e.trace (cs ++ ds) = e.trace cs ++ (e.afterAll cs).trace ds := by
  induction cs generalizing e with
  | nil => rfl
  | cons c rest ih => rw [List.cons_append, trace, trace, ih, afterAll_cons, List.cons_append]

theorem answers_cons (e : Engine) (c : Command) (cs : List Command) :
    e.answers (c :: cs) = (c.action e).result :: (e.after c).answers cs := rfl

theorem log_cons (e : Engine) (c : Command) (cs : List Command) :
    e.log (c :: cs) = e.sendings c ++ (e.after c).log cs := rfl

theorem log_append (e : Engine) (cs ds : List Command) :
    e.log (cs ++ ds) = e.log cs ++ (e.afterAll cs).log ds := by
  rw [log, trace_append, List.flatMap_append]
  rfl

theorem animated_cons (e : Engine) (c : Command) (cs : List Command) :
    e.animated (c :: cs) = (e.writesAnimation c).toNat + (e.after c).animated cs := by
  rw [animated, trace, List.countP_cons, Nat.add_comm]
  cases e.writesAnimation c <;> rfl

/-! ## Options -/

theorem after_compile (e : Engine) (d : Declaration) :
    e.after (.compile d) = (compile d e).engine := Action.map_engine _ _ _

theorem after_create (e : Engine) (namespaces : List (String × Declaration)) :
    e.after (.create namespaces) = (compileAll namespaces e).engine := by
  rw [after, Command.action, Action.map_engine, create, bind_pure_comp, Action.map_engine]

theorem sends_compile {d : Declaration} {e : Engine} {l : List Attempt}
    (hm : e.options.mode ≠ .noop)
    (hs : Action.Sends (walk (visits e.options.pipeline d) ClassMap.empty) e l) :
    Action.Sends (compile d) e l := by
  refine .after_blind (.look fun _ => rfl) rfl (.after_blind (.report _ e) rfl ?_)
  rw [if_neg hm]
  exact .congr (compileClasses_eq_walk d e) (fun sink => compileClasses_eq_walk d (e.on sink)) hs

theorem sendings_compile {d : Declaration} {e : Engine} {l : List Attempt}
    (hs : Action.Sends (compile d) e l) :
    e.sendings (.compile d) = l.map (⟨.compile d, ·⟩) := by
  rw [sendings, Command.action, (hs.map Answer.classes).sent_eq]

theorem after_injectKeyframes (e : Engine) (k : Keyframes) :
    e.after (.injectKeyframes k) = (injectKeyframes k e).engine := Action.map_engine _ _ _

theorem writesAnimation_injectKeyframes (e : Engine) (k : Keyframes) :
    e.writesAnimation (.injectKeyframes k) = (injectKeyframes k e).result.isOk := by
  show ((Answer.name <$> injectKeyframes k) e).result.isOk = _
  rw [Action.map_result]
  cases (injectKeyframes k e).result <;> rfl

theorem after_options (e : Engine) (c : Command) : (e.after c).options = e.options := by
  cases c with
  | compile d => rw [after_compile, compile_options]
  | create namespaces => rw [after_create, compileAll_options]
  | injectGlobal rule =>
    rw [after, Command.action, Action.map_engine, injectGlobal_options]
  | injectTheme selector theme =>
    rw [after, Command.action, Action.map_engine, injectTheme, injectGlobal_options]
  | injectKeyframes k => rw [after_injectKeyframes, injectKeyframes_engine, sending]
  | seed ids => rfl
  | rehydrate c => rfl
  | capture => rfl
  | inlineStyle d => rfl

theorem afterAll_options (e : Engine) (cs : List Command) :
    (e.afterAll cs).options = e.options := by
  induction cs generalizing e with
  | nil => rfl
  | cons c rest ih => rw [afterAll_cons, ih, after_options]

end Engine

end AtomicCss
