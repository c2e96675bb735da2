import AtomicCss.Number
import AtomicCss.Text

/-!
# JSON values and their text

A JSON value keeps its members in order and with repetitions. Its text is compact: no blanks, and of
the characters of a string only the quote, the backslash and the controls are escaped.
-/

namespace AtomicCss

/-- A JSON value. Numbers are kept apart by how they are written: whole, or with decimals or an
exponent. -/
inductive Json
  | null
  | bool (b : Bool)
  | integer (n : Int)
  | float (x : Number)
  | string (s : String)
  | array (items : List Json)
  | object (members : List (String × Json))

namespace Json

instance : Inhabited Json := ⟨.null⟩

/-- One character of a string as it is written between quotes. -/
def escapeChar (c : Char) : List Char :=
  if c = '"' then ['\\', '"']
  else if c = '\\' then ['\\', '\\']
  else if c = '\x08' then ['\\', 'b']
  else if c = '\x0c' then ['\\', 'f']
  else if c = '\n' then ['\\', 'n']
  else if c = '\r' then ['\\', 'r']
  else if c = '\t' then ['\\', 't']
  else if c.toNat < 32 then '\\' :: 'u' :: Text.hexadecimalPadded 4 c.toNat
  else [c]

/-- A string in quotes. -/
def quote (s : String) : String :=
  String.ofList ('"' :: s.toList.flatMap escapeChar ++ ['"'])

/-- The text of a number; one that is not finite has none and is written as `null`. -/
def floatText (x : Number) : String := if x.isFinite then Layout.data.render x else "null"

mutual

/-- The compact text of a value. -/
def render : Json → String
  | null => "null"
  | bool b => if b then "true" else "false"
  | integer n => toString n
  | float x => floatText x
  | string s => quote s
  | array items => "[" ++ renderItems items ++ "]"
  | object members => "\x7b" ++ renderMembers members ++ "\x7d"

/-- The items of an array with commas between them. -/
def renderItems : List Json → String
  | [] => ""
  | [v] => v.render
  | v :: w :: rest => v.render ++ "," ++ renderItems (w :: rest)

/-- The members of an object with commas between them. -/
def renderMembers : List (String × Json) → String
  | [] => ""
  | [(name, v)] => quote name ++ ":" ++ v.render
  | (name, v) :: w :: rest => quote name ++ ":" ++ v.render ++ "," ++ renderMembers (w :: rest)

end

/-! ## Why a text is refused

A text may end too early, be no JSON, or be JSON of a shape that does not fit what is read. Readers
stop at the first problem in the order of the text.
-/

/-- What stands where something else is expected. -/
inductive Found
  | null
  | bool (b : Bool)
  | integer (n : Int)
  | float (x : Number)
  | string (s : String)
  | sequence
  | map

def Found.describe : Found → String
  | null => "null"
  | bool b => "boolean " ++ Text.inBackticks (if b then "true" else "false")
  | integer n => "integer " ++ Text.inBackticks (toString n)
  | float x => "floating point " ++ Text.inBackticks (floatText x)
  | string s => "string " ++ Text.quoted s
  | sequence => "sequence"
  | map => "map"

/-- The reason of a refusal. -/
inductive Failure
  /-- The text ends before the value does. -/
  | endOfInput
  /-- The text is no JSON. -/
  | malformed
  | wrongType (found : Found) (expected : String)
  | missingField (name : String)
  | duplicateField (name : String)
  /-- A list of fields is too short. -/
  | wrongLength (length : Nat) (expected : String)
  | unknownVariant (name : String) (known : List String)
  /-- A value of a declaration is, or holds, something else than null, a number, a text or an
  object. -/
  | noVariant

/-- The reason in words. -/
def Failure.message : Failure → String
  | endOfInput => "EOF"
  | malformed => "syntax"
  | wrongType found expected => "invalid type: " ++ found.describe ++ ", expected " ++ expected
  | missingField name => "missing field " ++ Text.inBackticks name
  | duplicateField name => "duplicate field " ++ Text.inBackticks name
  | wrongLength length expected =>
    "invalid length " ++ toString length ++ ", expected " ++ expected
  | unknownVariant name known =>
    "unknown variant " ++ Text.inBackticks name ++ ", expected one of " ++
      ", ".intercalate (known.map Text.inBackticks)
  | noVariant => "data did not match any variant of untagged enum Value"

end Json

end AtomicCss
