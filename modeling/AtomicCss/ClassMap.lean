import AtomicCss.Table
import AtomicCss.Json.Reader

/-!
# Class maps

What a declaration compiles to: an ordered table from attribute keys (a property, or a property and
a pseudo-selector) to classes. Maps are composed first to last; a later map wins under a common key,
and a key keeps the place of its first map. A map is written as a JSON object of strings and read from
one member by member.
-/

namespace AtomicCss

/-- Classes under attribute keys, in order. -/
structure ClassMap where
  table : Table String
deriving DecidableEq

namespace ClassMap

def empty : ClassMap := ⟨Table.empty⟩

instance : EmptyCollection ClassMap := ⟨empty⟩
instance : Inhabited ClassMap := ⟨empty⟩

def entries (m : ClassMap) : List (String × String) := m.table.entries

def get? (m : ClassMap) (key : String) : Option String := m.table.get? key

def contains (m : ClassMap) (key : String) : Bool := m.table.contains key

def size (m : ClassMap) : Nat := m.table.size

def isEmpty (m : ClassMap) : Bool := m.table.isEmpty

/-- The classes, in order and with repetitions. -/
def classes (m : ClassMap) : List String := m.entries.map Prod.snd

def insert (m : ClassMap) (key cls : String) : ClassMap := ⟨m.table.insert key cls⟩

/-- The map of a list of keys and classes, written first to last. -/
def ofList (entries : List (String × String)) : ClassMap := ⟨Table.ofList entries⟩

def merge (m other : ClassMap) : ClassMap := ⟨m.table.insertAll other.entries⟩

/-- Whether two maps have the same keys with the same classes, whatever their order. -/
def same (m other : ClassMap) : Bool := m.table.sameEntries (· == ·) other.table

/-- The list of classes as an attribute value. -/
def classNames (m : ClassMap) : String := " ".intercalate m.classes

/-- Merges the maps that are present, first to last. -/
def compose (maps : List (Option ClassMap)) : ClassMap :=
  (maps.filterMap id).foldl merge empty

/-- The attribute value of the composed maps. -/
def composedNames (maps : List (Option ClassMap)) : String := (compose maps).classNames

theorem ext_table {m n : ClassMap} (h : m.table = n.table) : m = n := congrArg mk h

/-! ## In JSON -/

def json (m : ClassMap) : String :=
  (Json.object (m.entries.map fun e => (e.1, .string e.2))).render

def read (steps : Nat) : Json.Reader ClassMap :=
  Json.objectValue steps
    (fun m key text => (Json.afterColon Json.stringValue text).map fun r => (m.insert key r.1, r.2))
    empty

def parse (text : String) : Except Json.Failure ClassMap := Json.parse read text

end ClassMap

end AtomicCss
