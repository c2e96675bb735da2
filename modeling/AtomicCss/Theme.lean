import AtomicCss.Declaration

/-!
# Theme variables

Custom properties under names that begin with two hyphens. Every operation brings a name into that
form first, so a name with and a name without the hyphens address one variable.
-/

namespace AtomicCss

/-- Two hyphens begin the name. -/
def Theme.Hyphened (name : String) : Prop := ∃ rest, name = "--" ++ rest

/-- Custom properties in the order of their first setting. -/
structure Theme where
  table : Table String
  hyphened : ∀ name ∈ table.names, Theme.Hyphened name
deriving DecidableEq

namespace Theme

/-- The name of a variable: two hyphens are put before it unless they are there. -/
def variableName (name : String) : String :=
  if ['-', '-'].isPrefixOf name.toList then name else "--" ++ name

theorem isPrefixOf_iff {name : String} :
    ['-', '-'].isPrefixOf name.toList = true ↔ Hyphened name := by
  rw [List.isPrefixOf_iff_prefix]
  constructor
  · rintro ⟨rest, h⟩
    refine ⟨String.ofList rest, ?_⟩
    rw [← String.toList_inj, String.toList_append, ← h]
    exact congrArg ("--".toList ++ ·) String.toList_ofList.symm
  · rintro ⟨rest, rfl⟩
    rw [String.toList_append]
    exact List.prefix_append _ _

theorem variableName_of_hyphened {name : String} (h : Hyphened name) : variableName name = name := by
  rw [variableName, if_pos (isPrefixOf_iff.2 h)]

theorem variableName_of_not_hyphened {name : String} (h : ¬ Hyphened name) :
    variableName name = "--" ++ name := by
  rw [variableName, if_neg (mt isPrefixOf_iff.1 h)]

theorem hyphened_variableName (name : String) : Hyphened (variableName name) := by
  by_cases h : Hyphened name
  · exact (variableName_of_hyphened h).symm ▸ h
  · exact ⟨name, variableName_of_not_hyphened h⟩

def empty : Theme := ⟨Table.empty, by simp⟩

instance : EmptyCollection Theme := ⟨empty⟩
instance : Inhabited Theme := ⟨empty⟩

def set (t : Theme) (name value : String) : Theme :=
  ⟨t.table.insert (variableName name) value, fun other hother => by
    rcases Table.mem_names_insert.1 hother with h | rfl
    · exact t.hyphened other h
    · exact hyphened_variableName name⟩

/-- The theme of a list of names and values, set first to last. -/
def ofList (entries : List (String × String)) : Theme :=
  entries.foldl (fun t e => t.set e.1 e.2) empty

def get? (t : Theme) (name : String) : Option String := t.table.get? (variableName name)

def contains (t : Theme) (name : String) : Bool := t.table.contains (variableName name)

def size (t : Theme) : Nat := t.table.size

def isEmpty (t : Theme) : Bool := t.table.isEmpty

def entries (t : Theme) : List (String × String) := t.table.entries

/-- Whether two themes set the same variables to the same values, whatever their order. -/
def same (t other : Theme) : Bool := t.table.sameEntries (· == ·) other.table

def inline (t : Theme) : String :=
  " ".intercalate (t.entries.map fun e => e.1 ++ ": " ++ e.2 ++ ";")

def rule (t : Theme) (selector : String) : String :=
  if t.isEmpty then selector ++ " \x7b \x7d" else selector ++ " \x7b " ++ t.inline ++ " \x7d"

def declaration (t : Theme) : Declaration := Table.ofList (t.entries.map fun e => (e.1, .text e.2))

end Theme

end AtomicCss
