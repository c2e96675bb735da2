import AtomicCss.Declaration
import AtomicCss.Json.Reader

/-!
# Declarations in JSON

A declaration is written as an object and read from one member by member, as if the members were
inserted in order. A member's value is read whole before it is decided whether it is a value.
-/

namespace AtomicCss

namespace Value

mutual

/-- A value as JSON. -/
def toJson : Value → Json
  | null => .null
  | number x => .float x
  | text s => .string s
  | nested ⟨_, rows⟩ => .object (rowsToJson rows)

/-- The entries of a declaration as members. -/
def rowsToJson : {names : List String} → Rows Value names → List (String × Json)
  | _, .nil => []
  | _, .cons name value rest _ => (name, value.toJson) :: rowsToJson rest

end

theorem rowsToJson_eq {names : List String} (rows : Rows Value names) :
    rowsToJson rows = rows.entries.map fun e => (e.1, e.2.toJson) := by
  induction rows with
  | nil => rfl
  | cons name value rest fresh ih => rw [rowsToJson, ih, Rows.entries, List.map_cons]

theorem toJson_nested (d : Declaration) :
    (nested d).toJson = .object (d.entries.map fun e => (e.1, e.2.toJson)) := by
  rw [toJson, rowsToJson_eq]
  rfl

mutual

/-- The value that a JSON value stands for; truth values and arrays, at any depth, stand for
none. -/
def ofJson? : Json → Option Value
  | .null => some .null
  | .integer n => some (ofInt n)
  | .float x => some (.number x)
  | .string s => some (.text s)
  | .object members => (ofMembers? members).map fun entries => .nested (Table.ofList entries)
  | .bool _ => none
  | .array _ => none

/-- The entries that the members of an object stand for. -/
def ofMembers? : List (String × Json) → Option (List (String × Value))
  | [] => some []
  | (name, json) :: rest =>
    (ofJson? json).bind fun value => (ofMembers? rest).map ((name, value) :: ·)

end

/-- Reads a value inside `depth` open brackets. -/
def read (steps depth : Nat) : Json.Reader Value := fun text => do
  let (json, rest) ← Json.readValue steps depth text
  match ofJson? json with
  | some value => pure (value, rest)
  | none => throw .noVariant

end Value

namespace Declaration

def json (d : Declaration) : String := (Value.nested d).toJson.render

/-- Reads a declaration whose bracket is the `depth`-th open one. -/
def read (steps depth : Nat) : Json.Reader Declaration :=
  Json.objectValue steps
    (fun d name text => (Json.afterColon (Value.read steps depth) text).map fun r =>
      (d.insert name r.1, r.2))
    Table.empty

def parse (text : String) : Except Json.Failure Declaration :=
  Json.parse (fun steps => read steps 1) text

end Declaration

end AtomicCss
