import AtomicCss.Json.Reader
import AtomicCss.Text
import AtomicCss.Transform
import AtomicCss.Declaration
import AtomicCss.Sheet

/-!
# Options and failures of an engine

How compiled declarations are delivered, which transforms they go through first, and why an operation
of an engine fails.
-/

namespace AtomicCss

/-! ## Injection modes

How compiled declarations are delivered, and the names of the modes in configurations.
-/

/-- How compiled declarations are delivered. -/
inductive Mode
  /-- Classes are named by digests and their rules written to the sheet. -/
  | inject
  /-- Nothing is written: a declaration compiles to its own values. -/
  | noop
  /-- Compiled like `inject`; the values are applied as inline styles. -/
  | inline
deriving DecidableEq

namespace Mode

instance : Inhabited Mode := ⟨.inject⟩

def name : Mode → String
  | inject => "inject"
  | noop => "noop"
  | inline => "inline"

def json (m : Mode) : String := Json.quote m.name

/-- The names by which modes are known, mode by mode. -/
def knownNames : List String := ["inject", "no-op", "noop", "inline"]

/-- The mode of a name. -/
def ofName? (name : String) : Option Mode :=
  if name = "inject" then some inject
  else if name = "noop" ∨ name = "no-op" then some noop
  else if name = "inline" then some inline
  else none

/-- The mode of a text, which may have white space around it and letters of either case. -/
def ofText? (text : String) : Option Mode :=
  ofName? (String.ofList ((Text.trim text.toList).map Char.toLower))

/-! ### Reading from JSON -/

/-- Reads the name of a mode. What is no string is malformed, whatever else it may be. -/
def readName : Json.Reader Mode := fun text => do
  match Json.skipBlanks text with
  | [] => throw .endOfInput
  | '"' :: rest =>
    let (name, rest) ← Json.readString rest
    match ofName? name with
    | some mode => pure (mode, rest)
    | none => throw (.unknownVariant name knownNames)
  | _ :: _ => throw .malformed

/-- Reads a null. -/
def readNull : Json.Reader Unit := fun text =>
  match Json.skipBlanks text with
  | 'n' :: rest => (Json.expectChars ['u', 'l', 'l'] rest).map ((), ·)
  | text => Json.mismatch "unit" text

/-- Reads a mode: its name, or an object whose only member has that name and is null. -/
def read : Json.Reader Mode := fun text =>
  match Json.skipBlanks text with
  | '{' :: rest => do
    let (mode, rest) ← readName rest
    let (_, rest) ← Json.afterColon readNull rest
    let rest ← Json.closing '}' rest
    pure (mode, rest)
  | text => readName text

end Mode

/-! ## Options of an engine

A mode and a pipeline. Configurations hold only the mode, since transforms are code.
-/

/-- The options of an engine. -/
structure Options where
  mode : Mode
  pipeline : Pipeline

namespace Options

def standard : Options := ⟨.inject, Pipeline.empty⟩

instance : Inhabited Options := ⟨standard⟩

/-- The options of a mode without transforms. -/
def ofMode (mode : Mode) : Options := { standard with mode }

/-- Reads one member: the mode once, any other member is passed over. -/
def readMember (steps : Nat) (mode : Option Mode) (name : String) : Json.Reader (Option Mode) :=
  fun text =>
    if name = "mode" then
      if mode.isSome then .error (.duplicateField name)
      else (Json.afterColon Mode.read text).map fun r => (some r.1, r.2)
    else (Json.afterColon (Json.skipValue steps) text).map fun r => (mode, r.2)

/-- Reads the list form of options, given the text behind the bracket: at most the mode. -/
def readList : Json.Reader Options := fun text => do
  let (more, text) ← Json.nextItem ']' true text
  if more then
    let (mode, text) ← Mode.read text
    pure (ofMode mode, ← Json.closing ']' text)
  else pure (standard, text)

/-- Reads options from an object or from a list of fields; a missing mode is the standard one. -/
def read (steps : Nat) : Json.Reader Options := fun text =>
  match Json.skipBlanks text with
  | '{' :: rest =>
    (Json.readMembers (readMember steps) steps true none rest).map fun r =>
      (ofMode (r.1.getD standard.mode), r.2)
  | '[' :: rest => readList rest
  | text => Json.mismatch "struct StylerOptions" text

def parse (text : String) : Except Json.Failure Options := Json.parse read text

end Options

/-! ## Why a style operation fails -/

/-- The reason of a failed operation. -/
inductive StyleFailure
  /-- A pseudo-selector block stands inside another one. -/
  | invalidNesting (outer inner : Pseudo)
  /-- A text names no injection mode. -/
  | invalidMode (text : String)
  /-- A capture cannot be read. -/
  | unreadable (reason : Json.Failure)
  /-- The sheet does not take a rule. -/
  | refused (refusal : Refusal)

/-- The reason in words. -/
def StyleFailure.message : StyleFailure → String
  | invalidNesting outer inner =>
    "Cannot declare style with modifier (" ++ inner.key ++ ") in a modifier (" ++ outer.key ++ ")"
  | invalidMode text =>
    "Invalid injection mode '" ++ text ++ "': expected inject, noop or inline"
  | unreadable reason => "Capture serialization failed: " ++ reason.message
  | refused refusal => refusal.message

def Mode.parse (text : String) : Except StyleFailure Mode :=
  match ofText? text with
  | some mode => .ok mode
  | none => .error (.invalidMode text)

end AtomicCss
