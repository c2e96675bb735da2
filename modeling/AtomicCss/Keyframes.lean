import AtomicCss.Declaration.Json

/-!
# Keyframes

An animation is an ordered table of declarations under its stops (`from`, `50%`, `to`). It is
written as one rule that holds the scalar entries; the others are skipped. In JSON it is an object of
declarations under their stops.
-/

namespace AtomicCss

/-- Declarations under the stops of an animation. -/
structure Keyframes where
  stops : Table Declaration

namespace Keyframes

def empty : Keyframes := ⟨Table.empty⟩

def insert (k : Keyframes) (stop : String) (d : Declaration) : Keyframes := ⟨k.stops.insert stop d⟩

/-- The animation of a list of stops, set first to last. -/
def ofList (stops : List (String × Declaration)) : Keyframes := ⟨Table.ofList stops⟩

def size (k : Keyframes) : Nat := k.stops.size

def isEmpty (k : Keyframes) : Bool := k.stops.isEmpty

/-- The scalar entries of one stop, each with a blank before it. -/
def body (d : Declaration) : String :=
  String.join ((d.entries.filter fun e => e.2.isScalar).map fun e => " " ++ Rule.entry e.1 e.2)

def block (stop : String) (d : Declaration) : String := " " ++ stop ++ " \x7b" ++ body d ++ " \x7d"

/-- The rule of the animation under a name. -/
def rule (k : Keyframes) (name : String) : String :=
  "@keyframes " ++ name ++ " \x7b" ++ String.join (k.stops.entries.map fun e => block e.1 e.2) ++
    " \x7d"

/-- The entries that the rule leaves out: the stop and the property of each, in order. -/
def skipped (k : Keyframes) : List (String × String) :=
  k.stops.entries.flatMap fun e =>
    (e.2.entries.filter fun p => !p.2.isScalar).map fun p => (e.1, p.1)

/-! ## In JSON -/

def json (k : Keyframes) : String :=
  (Json.object (k.stops.entries.map fun e => (e.1, (Value.nested e.2).toJson))).render

def read (steps : Nat) : Json.Reader Keyframes :=
  Json.objectValue steps
    (fun k stop text => (Json.afterColon (Declaration.read steps 2) text).map fun r =>
      (k.insert stop r.1, r.2))
    empty

def parse (text : String) : Except Json.Failure Keyframes := Json.parse read text

end Keyframes

end AtomicCss
