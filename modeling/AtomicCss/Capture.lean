import AtomicCss.Json.Reader

/-!
# Captures

A capture is the text of a sheet and the identifiers of the classes in it. It travels as JSON, or in
the head of a page: the text in a style element, the identifiers in a script element. Both elements
are written so that their content cannot end them.
-/

namespace AtomicCss

/-- The text of a sheet and the identifiers injected into it. -/
structure Capture where
  contents : String
  ids : List String
deriving DecidableEq

namespace Capture

def empty : Capture := ⟨"", []⟩

instance : Inhabited Capture := ⟨empty⟩

def idsJson (ids : List String) : String := (Json.array (ids.map .string)).render

def json (c : Capture) : String :=
  (Json.object [("contents", .string c.contents), ("ids", .array (c.ids.map .string))]).render

/-! ## In the head of a page -/

/-- The `id` of the script element with the identifiers. -/
def scriptId : String := "astyle-ids"

/-- A text in which no closing tag begins: every `</` has a backslash inside. -/
def escapeClosing : List Char → List Char
  | [] => []
  | '<' :: '/' :: rest => '<' :: '\\' :: '/' :: escapeClosing rest
  | c :: rest => c :: escapeClosing rest

/-- A JSON text in which no tag begins: every `<` is written by its code. -/
def escapeTags (text : List Char) : List Char :=
  text.flatMap fun c => if c = '<' then ['\\', 'u', '0', '0', '3', 'c'] else [c]

/-- The captured rules as a style element. -/
def styleTag (c : Capture) : String :=
  "<style data-renderer=\"astyle\" data-renderer-phase=\"server\">" ++
    String.ofList (escapeClosing c.contents.toList) ++ "</style>"

/-- The identifiers as the payload of a script element. -/
def payload (ids : List String) : String := String.ofList (escapeTags (idsJson ids).toList)

/-- The identifiers as a script element. -/
def hydrationScript (c : Capture) : String :=
  "<script type=\"application/json\" id=\"" ++ scriptId ++ "\">" ++ payload c.ids ++ "</script>"

def head (c : Capture) : String := c.styleTag ++ c.hydrationScript

/-! ## Reading -/

def readIds (steps : Nat) : Json.Reader (List String) := Json.arrayValue steps Json.stringValue

/-- The fields read so far. -/
structure Fields where
  contents : Option String
  ids : Option (List String)

/-- Reads one member: each of the two fields once, any other member is passed over. -/
def Fields.readMember (steps : Nat) (f : Fields) (name : String) : Json.Reader Fields := fun text =>
  if name = "contents" then
    if f.contents.isSome then .error (.duplicateField name)
    else (Json.afterColon Json.stringValue text).map fun r => ({ f with contents := r.1 }, r.2)
  else if name = "ids" then
    if f.ids.isSome then .error (.duplicateField name)
    else (Json.afterColon (readIds steps) text).map fun r => ({ f with ids := r.1 }, r.2)
  else (Json.afterColon (Json.skipValue steps) text).map fun r => (f, r.2)

/-- The capture of the fields, if both are there. -/
def Fields.capture (f : Fields) : Except Json.Failure Capture :=
  match f.contents, f.ids with
  | none, _ => .error (.missingField "contents")
  | _, none => .error (.missingField "ids")
  | some contents, some ids => .ok ⟨contents, ids⟩

/-- What a list of fields must be. -/
def listExpectation : String := "struct Capture with 2 elements"

/-- Reads the list form of a capture, given the text behind the bracket: the two fields in order. -/
def readList (steps : Nat) : Json.Reader Capture := fun text => do
  let (more, text) ← Json.nextItem ']' true text
  if !more then throw (.wrongLength 0 listExpectation)
  let (contents, text) ← Json.stringValue text
  let (more, text) ← Json.nextItem ']' false text
  if !more then throw (.wrongLength 1 listExpectation)
  let (ids, text) ← readIds steps text
  let text ← Json.closing ']' text
  pure (⟨contents, ids⟩, text)

/-- Reads a capture from an object or from a list of its fields. -/
def read (steps : Nat) : Json.Reader Capture := fun text =>
  match Json.skipBlanks text with
  | '{' :: rest => do
    let (fields, rest) ← Json.readMembers (Fields.readMember steps) steps true ⟨none, none⟩ rest
    pure (← fields.capture, rest)
  | '[' :: rest => readList steps rest
  | text => Json.mismatch "struct Capture" text

def parse (text : String) : Except Json.Failure Capture := Json.parse read text

/-- Reads a capture without rules from the payload of a script element. -/
def parsePayload (text : String) : Except Json.Failure Capture :=
  (Json.parse readIds text).map fun ids => ⟨"", ids⟩

end Capture

end AtomicCss
