import AtomicCss.Json
import AtomicCss.Number

/-!
# Reading JSON texts

A reader takes a text from its front. The smallest pieces are words, strings and numerals; arrays and
objects are read by one function each, which is told how to read an item or a member.
-/

namespace AtomicCss.Json

/-! ## Words and strings of JSON texts

The smallest pieces of a JSON text: blanks, the fixed words, and strings with their escapes. A
string that is read for its value needs escapes that stand for characters; one that is skipped does
not.
-/

/-- A reader takes a text and gives what it read and the text behind it, or a reason why not. -/
abbrev Reader (α : Type) := List Char → Except Failure (α × List Char)

/-- The blanks between the parts of a JSON text. -/
def isBlank (c : Char) : Bool := c = ' ' ∨ c = '\n' ∨ c = '\t' ∨ c = '\r'

/-- The text behind leading blanks. -/
def skipBlanks (text : List Char) : List Char := text.dropWhile isBlank

/-- The text behind the given characters, which must stand there. -/
def expectChars : List Char → List Char → Except Failure (List Char)
  | [], text => .ok text
  | _ :: _, [] => .error .endOfInput
  | c :: cs, d :: rest => if c = d then expectChars cs rest else .error .malformed

/-! ### Escapes -/

/-- The character of a one-letter escape. -/
def letterEscape? : Char → Option Char
  | '"' => some '"'
  | '\\' => some '\\'
  | '/' => some '/'
  | 'b' => some '\x08'
  | 'f' => some '\x0c'
  | 'n' => some '\n'
  | 'r' => some '\r'
  | 't' => some '\t'
  | _ => none

/-- The code unit of four hexadecimal digits; the text must have four bytes left. -/
def codeUnit (text : List Char) : Except Failure Nat :=
  let four := text.take 4
  if (String.ofList four).utf8ByteSize < 4 then .error .endOfInput
  else
    match Text.ofHexadecimal? four with
    | some n => .ok n
    | none => .error .malformed

/-- The units that begin a pair. -/
def isLeading (unit : Nat) : Bool := 0xd800 ≤ unit ∧ unit ≤ 0xdbff

/-- The units that end a pair. -/
def isTrailing (unit : Nat) : Bool := 0xdc00 ≤ unit ∧ unit ≤ 0xdfff

/-- What an escape stands for, and how many characters it has behind its backslash. -/
structure Escaped where
  char : Char
  length : Nat
deriving DecidableEq

/-- The character of a code unit or of a pair of them, given the text behind the letter `u`. A unit
of a pair that stands alone is malformed. -/
def unitEscape (text : List Char) : Except Failure Escaped := do
  let unit ← codeUnit text
  if isTrailing unit then throw .malformed
  else if isLeading unit then
    match text.drop 4 with
    | [] => throw .endOfInput
    | ['\\'] => throw .endOfInput
    | '\\' :: 'u' :: low =>
      let second ← codeUnit low
      if isTrailing second then
        pure ⟨Char.ofNat (0x10000 + (unit - 0xd800) * 0x400 + (second - 0xdc00)), 11⟩
      else throw .malformed
    | _ => throw .malformed
  else pure ⟨Char.ofNat unit, 5⟩

/-- The escape behind a backslash, its code units read by `unicode`. -/
def escapeWith (unicode : List Char → Except Failure Escaped) : List Char → Except Failure Escaped
  | [] => .error .endOfInput
  | c :: rest =>
    if c = 'u' then unicode rest
    else
      match letterEscape? c with
      | some d => .ok ⟨d, 1⟩
      | none => .error .malformed

/-- The escape behind a backslash in a string that is read. -/
def escapeStrict : List Char → Except Failure Escaped := escapeWith unitEscape

/-- The escape behind a backslash in a string that is skipped: any code unit will do. -/
def escapeLax : List Char → Except Failure Escaped :=
  escapeWith fun text => (codeUnit text).map fun _ => ⟨'\x00', 5⟩

/-! ### Strings -/

/-- The characters of a string and the text behind it, given the text behind its opening quote.
`skip` counts the characters of an escape that has been read already. -/
def stringBody (escape : List Char → Except Failure Escaped) :
    (skip : Nat) → List Char → Except Failure (List Char × List Char)
  | _, [] => .error .endOfInput
  | skip + 1, _ :: rest => stringBody escape skip rest
  | 0, c :: rest =>
    if c = '"' then .ok ([], rest)
    else if c = '\\' then
      match escape rest with
      | .error e => .error e
      | .ok d => (stringBody escape d.length rest).map fun r => (d.char :: r.1, r.2)
    else if c.toNat < 32 then .error .malformed
    else (stringBody escape 0 rest).map fun r => (c :: r.1, r.2)

/-- Reads a string, given the text behind its opening quote. -/
def readString : Reader String := fun text =>
  (stringBody escapeStrict 0 text).map fun r => (String.ofList r.1, r.2)

/-- Skips a string, given the text behind its opening quote. -/
def skipString : Reader Unit := fun text =>
  (stringBody escapeLax 0 text).map fun r => ((), r.2)

/-! ## Numbers of JSON texts

A numeral is scanned by its grammar first and valued afterwards. Its digits make a 64-bit
significand as far as they fit, and the significand is brought to its power of ten by rounded
binary64 steps of at most 308 decimal places, so a long numeral may differ from the nearest number
in its last place.
-/

/- Powers are those of core, whatever other instances are in scope. -/
attribute [local instance (high)] instPowNat

/-- The parts of a numeral; the digits are kept as written. -/
structure Numeral where
  negative : Bool
  whole : List Char
  decimals : Option (List Char)
  /-- Whether the exponent is negative, and its digits. -/
  exponent : Option (Bool × List Char)

namespace Numeral

/-- Reads at least one digit. -/
def digits : Reader (List Char) := fun text =>
  match text.takeWhile Char.isDigit, text.dropWhile Char.isDigit with
  | [], [] => .error .endOfInput
  | [], _ :: _ => .error .malformed
  | ds, rest => .ok (ds, rest)

/-- Reads the digits before the point; a zero is not followed by more. -/
def wholeDigits : Reader (List Char) := fun text =>
  match digits text with
  | .ok ('0' :: _ :: _, _) => .error .malformed
  | result => result

/-- Reads a point and decimals, if there is a point. -/
def decimalPart : Reader (Option (List Char))
  | '.' :: rest => (digits rest).map fun r => (some r.1, r.2)
  | text => .ok (none, text)

/-- Reads an exponent, if its letter is there. -/
def exponentPart : Reader (Option (Bool × List Char))
  | c :: rest =>
    if c = 'e' ∨ c = 'E' then
      match rest with
      | '+' :: ds => (digits ds).map fun r => (some (false, r.1), r.2)
      | '-' :: ds => (digits ds).map fun r => (some (true, r.1), r.2)
      | ds => (digits ds).map fun r => (some (false, r.1), r.2)
    else .ok (none, c :: rest)
  | [] => .ok (none, [])

/-- Reads a numeral. -/
def read : Reader Numeral := fun text => do
  let (negative, text) := match text with
    | '-' :: rest => (true, rest)
    | text => (false, text)
  let (whole, text) ← wholeDigits text
  let (decimals, text) ← decimalPart text
  let (exponent, text) ← exponentPart text
  pure (⟨negative, whole, decimals, exponent⟩, text)

/-! ### Values -/

/-- The value of a decimal digit. -/
def digitValue (c : Char) : Nat := c.toNat - 48

/-- The bits of a significand. -/
def significandBits : Nat := 64

/-- Appends digits to a significand as long as it fits into its bits; also gives the digits from the
first one that does not fit. -/
def absorb (significand : Nat) : List Char → Nat × List Char
  | [] => (significand, [])
  | c :: rest =>
    if significand * 10 + digitValue c < 2 ^ significandBits then
      absorb (significand * 10 + digitValue c) rest
    else (significand, c :: rest)

/-- The value of a list of digits. -/
def natural (ds : List Char) : Nat := ds.foldl (fun n c => n * 10 + digitValue c) 0

/-- The greatest power of ten with a number of its own. -/
def greatestPower : Nat := 308

/-- A number times `10 ^ exponent` by rounded steps, or nothing if the result is not finite. Three
steps down bring every significand to zero. -/
def scale : (steps : Nat) → Number → (exponent : Int) → Option Number
  | 0, x, _ => some x
  | steps + 1, x, exponent =>
    if exponent.natAbs ≤ greatestPower then
      let power := Number.ofNat (10 ^ exponent.natAbs)
      if 0 ≤ exponent then
        let y := x.mul power
        if y.isFinite then some y else none
      else some (x.div power)
    else if x.isZero then some x
    else if 0 ≤ exponent then none
    else scale steps (x.div (Number.ofNat (10 ^ greatestPower))) (exponent + greatestPower)

/-- Exponents beyond this bound are not computed with. -/
def greatestExponent : Nat := 2147483647

/-- The magnitude of a numeral with a significand and a power of ten before its written exponent. -/
def magnitude? (significand : Nat) (exponent : Int) (written : Option (Bool × List Char)) :
    Option Number :=
  let x := Number.ofNat significand
  match written with
  | none => scale 5 x exponent
  | some (negative, ds) =>
    let n := natural ds
    if greatestExponent < n then
      if significand ≠ 0 ∧ !negative then none else some (Number.zero false)
    else scale 5 x (if negative then exponent - n else exponent + n)

/-- The value of a numeral: whole if it is written so and fits into 64 bits, or nothing if it is out
of range. The negative zero is no whole number. -/
def value? (n : Numeral) : Option Json :=
  let (whole, unfit) := absorb 0 n.whole
  let signed (x : Number) : Json := .float (if n.negative then x.neg else x)
  match n.decimals, n.exponent, unfit with
  | none, none, [] =>
    if !n.negative then some (.integer whole)
    else if whole = 0 ∨ 2 ^ (significandBits - 1) < whole then some (signed (Number.ofNat whole))
    else some (.integer (-whole))
  | decimals, exponent, unfit =>
    let (significand, ignored) := absorb whole (decimals.getD [])
    let places := (decimals.getD []).length - ignored.length
    (magnitude? significand ((unfit.length : Int) - places) exponent).map signed

end Numeral

/-- Reads a number; one out of range is malformed. -/
def readNumber : Reader Json := fun text => do
  let (n, rest) ← Numeral.read text
  match n.value? with
  | some v => pure (v, rest)
  | none => throw .malformed

/-- Skips a number of any size; one that ends too early is malformed. -/
def skipNumber : Reader Unit := fun text =>
  match Numeral.read text with
  | .ok (_, rest) => .ok ((), rest)
  | .error _ => .error .malformed

/-! ## Reading JSON texts

Arrays and objects are read by one function each, which is told how to read an item or a member.
`readValue` reads any value as it stands, with a limit on open brackets, `skipValue` passes over one
without a limit, and `parse` reads a whole text. Every step of a loop takes a character off the
text, so the length of the text bounds the number of steps.
-/

/-- The greatest number of brackets open at a time in a value that is read. -/
def depthLimit : Nat := 127

/-- Goes on to the next item of an array or member of an object, over the comma that must stand
before all but the first. Tells whether there is one; the closing bracket is behind the text if
not. -/
def nextItem (close : Char) (first : Bool) : Reader Bool := fun text =>
  match skipBlanks text with
  | [] => .error .endOfInput
  | c :: rest =>
    if c = close then .ok (false, rest)
    else if first then .ok (true, c :: rest)
    else if c = ',' then
      match skipBlanks rest with
      | [] => .error .endOfInput
      | d :: behind => if d = close then .error .malformed else .ok (true, d :: behind)
    else .error .malformed

/-- Reads the items of an array, given the text behind its opening bracket. -/
def readItems {α : Type} (item : Reader α) : (steps : Nat) → (first : Bool) → Reader (List α)
  | 0, _, _ => .error .malformed
  | steps + 1, first, text => do
    let (more, text) ← nextItem ']' first text
    if more then
      let (x, text) ← item text
      let (xs, text) ← readItems item steps false text
      pure (x :: xs, text)
    else pure ([], text)

/-- Reads the members of an object, given the text behind its opening bracket. `member` gets what
has been read so far, the name of the member and the text behind the name. -/
def readMembers {σ : Type} (member : σ → String → Reader σ) :
    (steps : Nat) → (first : Bool) → σ → Reader σ
  | 0, _, _, _ => .error .malformed
  | steps + 1, first, s, text => do
    let (more, text) ← nextItem '}' first text
    if more then
      match text with
      | '"' :: text =>
        let (name, text) ← readString text
        let (s, text) ← member s name text
        readMembers member steps false s text
      | _ => throw .malformed
    else pure (s, text)

/-- Reads the closing bracket that must stand here. -/
def closing (close : Char) (text : List Char) : Except Failure (List Char) :=
  match skipBlanks text with
  | [] => .error .endOfInput
  | c :: rest => if c = close then .ok rest else .error .malformed

/-- Reads the colon behind a member's name, and the value. -/
def afterColon {α : Type} (read : Reader α) : Reader α := fun text =>
  match skipBlanks text with
  | [] => .error .endOfInput
  | c :: rest => if c = ':' then read rest else .error .malformed

/-! ### Whole values -/

/-- Reads a value that is no array and no object. -/
def readScalar : Reader Json := fun text =>
  match text with
  | [] => .error .endOfInput
  | c :: rest =>
    if c = 'n' then (expectChars ['u', 'l', 'l'] rest).map (Json.null, ·)
    else if c = 't' then (expectChars ['r', 'u', 'e'] rest).map (Json.bool true, ·)
    else if c = 'f' then (expectChars ['a', 'l', 's', 'e'] rest).map (Json.bool false, ·)
    else if c = '"' then (readString rest).map fun r => (Json.string r.1, r.2)
    else if c = '-' ∨ c.isDigit then readNumber text
    else .error .malformed

/-- Reads any value inside `depth` open brackets. -/
def readValue : (steps : Nat) → (depth : Nat) → Reader Json
  | 0, _, _ => .error .malformed
  | steps + 1, depth, text =>
    match skipBlanks text with
    | '[' :: rest =>
      if depth < depthLimit then
        (readItems (readValue steps (depth + 1)) steps true rest).map fun r => (Json.array r.1, r.2)
      else .error .malformed
    | '{' :: rest =>
      if depth < depthLimit then
        (readMembers (fun ms name text =>
          (afterColon (readValue steps (depth + 1)) text).map fun r =>
            (ms ++ [(name, r.1)], r.2)) steps true [] rest).map fun r => (Json.object r.1, r.2)
      else .error .malformed
    | text => readScalar text

/-- Passes over any value. -/
def skipValue : (steps : Nat) → Reader Unit
  | 0, _ => .error .malformed
  | steps + 1, text =>
    match skipBlanks text with
    | '[' :: rest => (readItems (skipValue steps) steps true rest).map fun r => ((), r.2)
    | '{' :: rest => skipMembers (skipValue steps) steps true rest
    | '"' :: rest => skipString rest
    | c :: rest =>
      if c = '-' ∨ c.isDigit then skipNumber (c :: rest)
      else (readScalar (c :: rest)).map fun r => ((), r.2)
    | [] => .error .endOfInput
where
  /-- Passes over the members of an object. -/
  skipMembers (item : Reader Unit) : (steps : Nat) → (first : Bool) → Reader Unit
    | 0, _, _ => .error .malformed
    | steps + 1, first, text => do
      let (more, text) ← nextItem '}' first text
      if more then
        match text with
        | '"' :: text =>
          let (_, text) ← skipString text
          let (_, text) ← afterColon item text
          skipMembers item steps false text
        | _ => throw .malformed
      else pure ((), text)

/-! ### Expected shapes -/

/-- The refusal of a value that is not of the expected shape. Arrays and objects are refused at
their opening bracket; other values are read first, so what is wrong inside them comes first. -/
def mismatch {α : Type} (expected : String) : Reader α := fun text =>
  match text with
  | '[' :: _ => .error (.wrongType .sequence expected)
  | '{' :: _ => .error (.wrongType .map expected)
  | text =>
    match readScalar text with
    | .error e => .error e
    | .ok (.null, _) => .error (.wrongType .null expected)
    | .ok (.bool b, _) => .error (.wrongType (.bool b) expected)
    | .ok (.integer n, _) => .error (.wrongType (.integer n) expected)
    | .ok (.float x, _) => .error (.wrongType (.float x) expected)
    | .ok (.string s, _) => .error (.wrongType (.string s) expected)
    | .ok (.array _, _) => .error (.wrongType .sequence expected)
    | .ok (.object _, _) => .error (.wrongType .map expected)

/-- Reads a string. -/
def stringValue : Reader String := fun text =>
  match skipBlanks text with
  | '"' :: rest => readString rest
  | text => mismatch "a string" text

/-- Reads an object member by member. -/
def objectValue {σ : Type} (steps : Nat) (member : σ → String → Reader σ) (start : σ) :
    Reader σ := fun text =>
  match skipBlanks text with
  | '{' :: rest => readMembers member steps true start rest
  | text => mismatch "a map" text

/-- Reads an array item by item. -/
def arrayValue {α : Type} (steps : Nat) (item : Reader α) : Reader (List α) := fun text =>
  match skipBlanks text with
  | '[' :: rest => readItems item steps true rest
  | text => mismatch "a sequence" text

/-! ### Whole texts -/

/-- A number of steps that no loop over a text exceeds. -/
def stepsFor (text : List Char) : Nat := text.length + 1

def parse {α : Type} (read : (steps : Nat) → Reader α) (text : String) : Except Failure α := do
  let chars := text.toList
  let (x, rest) ← read (stepsFor chars) chars
  if (skipBlanks rest).isEmpty then pure x else throw .malformed

end AtomicCss.Json
