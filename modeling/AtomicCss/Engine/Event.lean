import AtomicCss.Engine.Options
import AtomicCss.Sheet

/-!
# Events

What an engine reports while it works. Every event has a place it comes from, a level, a text and
named details; an event that is a span encloses the events up to the end of what it names.
-/

namespace AtomicCss

/-- How important an event is. -/
inductive Level
  | trace
  | debug
  | info
  | warn
deriving DecidableEq

def Level.name : Level → String
  | trace => "TRACE"
  | debug => "DEBUG"
  | info => "INFO"
  | warn => "WARN"

/-- The places that events come from. -/
inductive Origin
  | core
  | sheet
  | engine
  | rendering
deriving DecidableEq

namespace Origin

def name : Origin → String
  | core => "astyle_core"
  | sheet => "astyle_core::sheet"
  | engine => "astyle_style::engine"
  | rendering => "astyle_style::ssr"

/-- All places. -/
def all : List Origin := [core, sheet, engine, rendering]

end Origin

/-- What is reported. -/
inductive Event
  /-- A message without details. -/
  | note (level : Level) (text : String)
  /-- A declaration with so many entries is about to be compiled. -/
  | compiling (entries : Nat) (mode : Mode)
  /-- A synthetic sheet has taken a text it did not have. -/
  | ruleAdded (rule : String)
  /-- The rule of a class has been written. -/
  | ruleInserted (id rule : String)
  /-- The rule of a class need not be written again. -/
  | classKnown (id : String)
  /-- A rule that belongs to no class has been written. -/
  | globalInserted (rule : String)
  /-- An animation has been written. -/
  | keyframesInserted (name : String)
  /-- An entry of an animation is left out. -/
  | valueSkipped (stop property : String)
  /-- The sheet has refused a rule. -/
  | ruleRefused (rule : String) (refusal : Refusal)
  /-- A capture has been taken. -/
  | captured (ids bytes : Nat)
  /-- So many identifiers have become known without writing. -/
  | rehydrated (seeded : Nat)
  /-- A page is about to be rendered. -/
  | rendering (mode : Mode)
  /-- A page has been rendered. -/
  | rendered (rules : Nat)
deriving DecidableEq

namespace Event

/-- Whether the event encloses others. -/
def isSpan : Event → Bool
  | compiling .. | rendering .. => true
  | _ => false

/-- The level. -/
def level : Event → Level
  | note level _ => level
  | valueSkipped .. | captured .. | rehydrated .. | rendering .. | rendered .. => .debug
  | ruleRefused .. => .warn
  | _ => .trace

/-- The place it comes from. -/
def origin : Event → Origin
  | note .. => .core
  | ruleAdded .. => .sheet
  | captured .. | rehydrated .. | rendering .. | rendered .. => .rendering
  | _ => .engine

/-- The text. -/
def text : Event → String
  | note _ text => text
  | compiling .. => "compile"
  | ruleAdded .. => "synthetic rule added"
  | ruleInserted .. => "inserted rule"
  | classKnown .. => "class already injected"
  | globalInserted .. => "inserted global rule"
  | keyframesInserted .. => "inserted keyframes"
  | valueSkipped .. => "skipping non-scalar keyframe value"
  | ruleRefused .. => "sink rejected rule"
  | captured .. => "captured stylesheet"
  | rehydrated .. => "rehydrated injected ids"
  | rendering .. => "render"
  | rendered .. => "page rendered"

/-- The details under their names. -/
def details : Event → List (String × String)
  | note .. => []
  | compiling entries mode => [("entries", toString entries), ("mode", mode.name)]
  | ruleAdded rule => [("rule", rule)]
  | ruleInserted id rule => [("id", id), ("rule", rule)]
  | classKnown id => [("id", id)]
  | globalInserted rule => [("rule", rule)]
  | keyframesInserted name => [("name", name)]
  | valueSkipped stop property => [("stop", stop), ("property", property)]
  | ruleRefused rule refusal => [("rule", rule), ("error", refusal.message)]
  | captured ids bytes => [("ids", toString ids), ("bytes", toString bytes)]
  | rehydrated seeded => [("seeded", toString seeded)]
  | rendering mode => [("mode", mode.name)]
  | rendered rules => [("rules", toString rules)]

end Event

namespace Sheet

/-- What is reported when a sheet takes a rule: a synthetic sheet tells of a text it lacked. -/
def insertionEvents (s : Sheet) (rule : String) : List Event :=
  if s.lacks rule then [.ruleAdded rule] else []

/-- A sheet after rules have been put in front, first to last, and what was reported. -/
def fill (s : Sheet) : List String → Sheet × List Event
  | [] => (s, [])
  | rule :: rest =>
    let (filled, events) := fill (s.insert rule 0).1 rest
    (filled, s.insertionEvents rule ++ events)

end Sheet

end AtomicCss
