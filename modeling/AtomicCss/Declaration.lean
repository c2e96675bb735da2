import AtomicCss.Number
import AtomicCss.Table

/-!
# Declarations

A declaration is an ordered table of values under property names. Some names are keys of
pseudo-selectors, which may hold a declaration of their own; all names are brought into their style
sheet form when entries are written into rules.
-/

namespace AtomicCss

/-! ## Values and declarations

A declaration is an ordered table of values under property names. A value is absent, a number, a
text or a declaration of its own. `Value.render` is the text that goes into rules and into digests,
and `Value.same` the equality that compares numbers by value and tables whatever their order.
-/

/-- The value of one entry of a declaration. -/
inductive Value
  | null
  | number (x : Number)
  | text (s : String)
  | nested (declaration : Table Value)

instance : Inhabited Value := ⟨.null⟩

/-- An ordered table of values under property names. -/
abbrev Declaration := Table Value

namespace Value

/-- The value of a number: absent unless the number is finite. -/
def ofNumber (x : Number) : Value := if x.isFinite then .number x else .null

def ofInt (n : Int) : Value := .number (Number.ofInt n)

/-- Whether the value is absent; a number that is not finite has no text in a rule and counts as
absent. -/
def isNull : Value → Bool
  | null => true
  | number x => !x.isFinite
  | _ => false

/-- Whether the value is a text or a finite number. -/
def isScalar : Value → Bool
  | number x => x.isFinite
  | text _ => true
  | _ => false

def number? : Value → Option Number
  | number x => some x
  | _ => none

def text? : Value → Option String
  | text s => some s
  | _ => none

def nested? : Value → Option Declaration
  | nested d => some d
  | _ => none

theorem isScalar_eq_false_of_isNull {v : Value} (h : v.isNull = true) : v.isScalar = false := by
  cases v <;> simp_all [isNull, isScalar]

mutual

/-- The text of a value; texts stand as they are. -/
def render : Value → String
  | null => "null"
  | number x => Layout.style.render x
  | text s => s
  | nested ⟨_, rows⟩ => "\x7b" ++ renderRows rows ++ " \x7d"

/-- The entries of a nested declaration, each with a blank before it. -/
def renderRows : {names : List String} → Rows Value names → String
  | _, .nil => ""
  | _, .cons name value rest _ => " " ++ name ++ ": " ++ value.render ++ ";" ++ renderRows rest

end

mutual

/-- Equality of values: numbers by value, declarations whatever their order. -/
def same : Value → Value → Bool
  | null, null => true
  | number x, number y => x.sameValue y
  | text s, text t => s == t
  | nested ⟨names, rows⟩, nested t => names.length == t.size && sameIn rows t
  | _, _ => false

/-- Whether every entry stands in a declaration with an equal value. -/
def sameIn : {names : List String} → Rows Value names → Declaration → Bool
  | _, .nil, _ => true
  | _, .cons name value rest _, t =>
    (match t.get? name with
      | some other => value.same other
      | none => false) && sameIn rest t

end

end Value

def Declaration.render (d : Declaration) : String := (Value.nested d).render

/-- Equality of declarations, whatever the order of their entries. -/
def Declaration.same (d e : Declaration) : Bool := (Value.nested d).same (.nested e)

/-! ## Pseudo-selectors

The keys that may hold a declaration of their own. Keys are matched exactly; any other key is a
plain property, also when it starts with a colon.
-/

/-- A pseudo-selector that may key a nested declaration. -/
inductive Pseudo
  | link
  | focusWithin
  | firstChild
  | lastChild
  | oddChild
  | evenChild
  | hover
  | focus
  | active
  | visited
  | disabled
deriving DecidableEq

namespace Pseudo

/-- All pseudo-selectors, in the order in which keys are matched. -/
def all : List Pseudo :=
  [link, focusWithin, firstChild, lastChild, oddChild, evenChild, hover, focus, active, visited,
    disabled]

/-- The key, with its colon. -/
def key : Pseudo → String
  | link => ":link"
  | focusWithin => ":focus-within"
  | firstChild => ":first-child"
  | lastChild => ":last-child"
  | oddChild => ":odd-child"
  | evenChild => ":even-child"
  | hover => ":hover"
  | focus => ":focus"
  | active => ":active"
  | visited => ":visited"
  | disabled => ":disabled"

def name : Pseudo → String
  | link => "Link"
  | focusWithin => "FocusWithin"
  | firstChild => "FirstChild"
  | lastChild => "LastChild"
  | oddChild => "OddChild"
  | evenChild => "EvenChild"
  | hover => "Hover"
  | focus => "Focus"
  | active => "Active"
  | visited => "Visited"
  | disabled => "Disabled"

def ofKey? (key : String) : Option Pseudo := all.find? fun p => p.key == key

theorem key_injective {p q : Pseudo} (h : p.key = q.key) : p = q := by
  revert h
  cases p <;> cases q <;> decide

theorem ofKey?_eq_some_iff {k : String} {p : Pseudo} : ofKey? k = some p ↔ k = p.key := by
  constructor
  · intro h
    rw [ofKey?] at h
    have hp := List.find?_some h
    exact (beq_iff_eq.1 hp).symm
  · rintro rfl
    cases p <;> decide

end Pseudo

namespace PropertyName

/-! ## Property names

Declarations name properties in camel case, style sheets in lower case with hyphens. Every
upper-case ASCII letter becomes a hyphen and its lower-case letter; all else stays.
-/

def cssChar (c : Char) : List Char := if c.isUpper then ['-', c.toLower] else [c]

/-- The style sheet form of a property name. -/
def css (name : String) : String := String.ofList (name.toList.flatMap cssChar)

theorem css_append (a b : String) : css (a ++ b) = css a ++ css b := by
  simp [css, String.toList_append, List.flatMap_append, String.ofList_append]

end PropertyName

namespace Rule

/-! ## Rule text

How entries of a declaration are written into rules and into inline styles.
-/

/-- One entry: the property in its style sheet form and the value's text. -/
def entry (name : String) (value : Value) : String :=
  PropertyName.css name ++ ": " ++ value.render ++ ";"

/-- The rule of one entry for the elements of a class, possibly only in the state `suffix`. -/
def ofClass (cls suffix name : String) (value : Value) : String :=
  "." ++ cls ++ suffix ++ " \x7b " ++ entry name value ++ " \x7d"

/-- The scalar entries of a declaration as the value of a style attribute. -/
def inline (d : Declaration) : String :=
  " ".intercalate ((d.entries.filter fun e => e.2.isScalar).map fun e => entry e.1 e.2)

end Rule

end AtomicCss
