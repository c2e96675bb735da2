import AtomicCss.Engine.Event
import AtomicCss.Engine.Options

/-!
# Engines and their actions

An engine is a sheet with what it remembers of its writing: the identifiers whose rules need not be
written again, the texts written without a class, and the number of animations. An action takes an
engine to a result and a new engine. A failing action keeps what it did before it failed, so the new
engine and the events are there in either case.
-/

namespace AtomicCss

/-- A compilation engine. -/
structure Engine where
  options : Options
  sheet : Sheet
  injected : OrderedSet
  globals : OrderedSet
  animations : Nat

namespace Engine

def new (options : Options) (sheet : Sheet) : Engine :=
  ⟨options, sheet, OrderedSet.empty, OrderedSet.empty, 0⟩

def synthetic (options : Options) : Engine := new options Sheet.empty

def transform (e : Engine) (d : Declaration) : Declaration := e.options.pipeline.run d

/-- Whether the rule of a class need not be written again. -/
def isInjected (e : Engine) (id : String) : Bool := e.injected.contains id

/-- The identifiers whose rules need not be written again, in the order of their injection. -/
def injectedIds (e : Engine) : List String := e.injected.items

end Engine

/-- What an action leads to. -/
structure Outcome (α : Type) where
  result : Except StyleFailure α
  engine : Engine
  events : List Event

/-- What can be done with an engine. -/
def Action (α : Type) : Type := Engine → Outcome α

namespace Action

variable {α β : Type}

def done (x : α) : Action α := fun e => ⟨.ok x, e, []⟩

/-- One action, and if it does not fail another one that depends on its result. -/
def andThen (a : Action α) (next : α → Action β) : Action β := fun e =>
  match a e with
  | ⟨.error failure, e', events⟩ => ⟨.error failure, e', events⟩
  | ⟨.ok x, e', events⟩ =>
    let o := next x e'
    ⟨o.result, o.engine, events ++ o.events⟩

instance : Monad Action where
  pure := done
  bind := andThen

def fail (failure : StyleFailure) : Action α := fun e => ⟨.error failure, e, []⟩

/-- Fails if a result is a failure. -/
def ofExcept : Except StyleFailure α → Action α
  | .ok x => done x
  | .error failure => fail failure

def look (f : Engine → α) : Action α := fun e => ⟨.ok (f e), e, []⟩

def change (f : Engine → Engine) : Action Unit := fun e => ⟨.ok (), f e, []⟩

def report (events : List Event) : Action Unit := fun e => ⟨.ok (), e, events⟩

/-- Makes a failure part of the result. -/
def attempt (a : Action α) : Action (Except StyleFailure α) := fun e =>
  let o := a e
  ⟨.ok o.result, o.engine, o.events⟩

@[simp] theorem pure_apply (x : α) (e : Engine) : (pure x : Action α) e = ⟨.ok x, e, []⟩ := rfl

theorem bind_apply_of_ok {a : Action α} {next : α → Action β} {e : Engine} {x : α}
    (h : (a e).result = .ok x) :
    (a >>= next) e =
      ⟨(next x (a e).engine).result, (next x (a e).engine).engine,
        (a e).events ++ (next x (a e).engine).events⟩ := by
  show andThen a next e = _
  rcases ha : a e with ⟨r, e', events⟩
  rw [ha] at h
  subst h
  simp [andThen, ha]

theorem bind_apply_of_error {a : Action α} {next : α → Action β} {e : Engine}
    {failure : StyleFailure} (h : (a e).result = .error failure) :
    (a >>= next) e = ⟨.error failure, (a e).engine, (a e).events⟩ := by
  show andThen a next e = _
  rcases ha : a e with ⟨r, e', events⟩
  rw [ha] at h
  subst h
  simp [andThen, ha]

end Action

end AtomicCss
