import AtomicCss.Css
import AtomicCss.Declaration

/-!
# Transforms of declarations

Box shorthands are replaced by their longhands, bare lengths get a unit, and a pipeline runs any
transforms one after the other.
-/

namespace AtomicCss

/-! ## Box shorthands

Five properties set the four sides of a box at once. `expandBoxShorthands` replaces each of them by
its four longhands: a number goes to all sides, the components of a text go to the sides by their
number.
-/

/-- A side of a box. -/
inductive Side
  | top
  | right
  | bottom
  | left
deriving DecidableEq

namespace Side

/-- The sides in the order of a shorthand's components. -/
def all : List Side := [top, right, bottom, left]

/-- The word for a side inside a longhand's name. -/
def word : Side → String
  | top => "Top"
  | right => "Right"
  | bottom => "Bottom"
  | left => "Left"

/-- The component that a side takes: a missing bottom repeats the top, a missing right the top, and
a missing left the right. Components behind the fourth have no effect. -/
def pick (first : Value) (others : List Value) : Side → Value
  | top => first
  | right => others[0]?.getD first
  | bottom => others[1]?.getD first
  | left => others[2]?.getD (others[0]?.getD first)

end Side

/-- A shorthand and the parts of its longhands' names around the side. -/
structure BoxFamily where
  shorthand : String
  stem : String
  ending : String
deriving DecidableEq

namespace BoxFamily

/-- The families in the order of their expansion. -/
def all : List BoxFamily :=
  [⟨"borderColor", "border", "Color"⟩,
   ⟨"borderStyle", "border", "Style"⟩,
   ⟨"borderWidth", "border", "Width"⟩,
   ⟨"margin", "margin", ""⟩,
   ⟨"padding", "padding", ""⟩]

def longhand (f : BoxFamily) (side : Side) : String := f.stem ++ side.word ++ f.ending

/-- The values that a shorthand's value gives to the sides, if it can be expanded: a finite number
gives itself, a text its components. -/
def sides? : Value → Option (Side → Value)
  | .number x => if x.isFinite then some (Side.pick (.number x) []) else none
  | .text s =>
    match Css.components s with
    | [] => none
    | first :: others => some (Side.pick (.text first) (others.map .text))
  | _ => none

/-- Replaces the family's shorthand by its longhands, if its value can be expanded. -/
def expand (f : BoxFamily) (d : Declaration) : Declaration :=
  match (d.get? f.shorthand).bind sides? with
  | none => d
  | some value => (d.erase f.shorthand).insertAll (Side.all.map fun s => (f.longhand s, value s))

end BoxFamily

/-- Replaces the shorthands of all families by their longhands. -/
def expandBoxShorthands (d : Declaration) : Declaration :=
  BoxFamily.all.foldl (fun d f => f.expand d) d

/-! ## Units of bare numbers

Some properties are lengths. A bare finite number under one of them becomes a text with the
property's unit; everything else stays as it is.
-/

/-- The properties whose bare numbers get a unit, with that unit. -/
def lengthUnits : List (String × String) :=
  ["marginBottom", "marginLeft", "marginRight", "marginTop", "paddingBottom", "paddingLeft",
    "paddingRight", "paddingTop", "width", "minWidth", "maxWidth", "height", "minHeight",
    "maxHeight"].map (·, "px") ++
  ["fontSize", "lineHeight"].map (·, "rem")

def inferUnit (d : Declaration) (name unit : String) : Declaration :=
  match d.get? name with
  | some (.number x) =>
    if x.isFinite then d.insert name (.text ((Value.number x).render ++ unit)) else d
  | _ => d

def inferUnits (d : Declaration) : Declaration :=
  lengthUnits.foldl (fun d e => inferUnit d e.1 e.2) d

/-! ## Pipelines

A pipeline is a list of transforms, run first to last over every declaration before it is compiled.
-/

/-- A rewriting of declarations. -/
abbrev Transform := Declaration → Declaration

/-- Transforms that run one after the other. -/
structure Pipeline where
  transforms : List Transform

namespace Pipeline

def empty : Pipeline := ⟨[]⟩

instance : Inhabited Pipeline := ⟨empty⟩

def add (p : Pipeline) (t : Transform) : Pipeline := ⟨p.transforms ++ [t]⟩

def standard : Pipeline := (empty.add expandBoxShorthands).add inferUnits

def size (p : Pipeline) : Nat := p.transforms.length

def isEmpty (p : Pipeline) : Bool := p.transforms.isEmpty

/-- Runs the transforms, first to last. -/
def run (p : Pipeline) (d : Declaration) : Declaration := p.transforms.foldl (fun d t => t d) d

def describe (p : Pipeline) : String := "TransformPipeline \x7b len: " ++ toString p.size ++ " \x7d"

@[simp] theorem run_empty (d : Declaration) : empty.run d = d := rfl

@[simp] theorem run_add (p : Pipeline) (t : Transform) (d : Declaration) :
    (p.add t).run d = t (p.run d) := by
  simp [run, add]

end Pipeline

end AtomicCss
