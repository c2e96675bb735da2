import AtomicCss.Table

/-!
# Edits of a table

An edit looks for the first entry under its name and tells the value that it found there. Writing
puts another entry in its place or goes last, overwriting does nothing where there is no entry, and
taking closes the gap. A table can be made of a list of entries in four ways (`Building`).
-/

namespace AtomicCss

namespace Table

variable {α : Type}

/-- The value of the first entry under a name, and the entries with others in place of that one. -/
def splice (name : String) (others : List (String × α)) :
    List (String × α) → Option (α × List (String × α))
  | [] => none
  | e :: rest =>
    if e.1 = name then some (e.2, others ++ rest)
    else (splice name others rest).map fun found => (found.1, e :: found.2)

theorem sublist_of_splice {name : String} {others entries : List (String × α)}
    {found : α × List (String × α)} (hothers : (others.map Prod.fst).Sublist [name])
    (hfound : splice name others entries = some found) :
    (found.2.map Prod.fst).Sublist (entries.map Prod.fst) := by
  induction entries generalizing found with
  | nil => cases hfound
  | cons e rest ih =>
    rw [splice] at hfound
    by_cases h : e.1 = name
    · rw [if_pos h] at hfound
      cases hfound
      rw [List.map_append, List.map_cons, h]
      exact hothers.append_right _
    · rw [if_neg h, Option.map_eq_some_iff] at hfound
      obtain ⟨behind, hbehind, rfl⟩ := hfound
      exact (ih hbehind).cons_cons e.1

/-- Puts other entries in place of the one under a name, if there is one, and gives its value. -/
def replace (t : Table α) (name : String) (others : List (String × α))
    (hothers : (others.map Prod.fst).Sublist [name]) : Option (α × Table α) :=
  (splice name others t.entries).pmap (fun found hnodup => (found.1, ofNodup found.2 hnodup))
    fun _ hfound => (sublist_of_splice hothers hfound).nodup t.nodup_entries

/-- What an edit answers where the name is present, and where it is absent. -/
def answer (absent : Table α) : Option (α × Table α) → Option α × Table α
  | some (old, t) => (some old, t)
  | none => (none, absent)

/-- Writes a value under a name and gives the value that was there. -/
def put (t : Table α) (name : String) (value : α) : Option α × Table α :=
  answer (t.insert name value) (t.replace name [(name, value)] (.refl _))

/-- Changes the value of a name that is present and gives the value that was there. -/
def overwrite (t : Table α) (name : String) (value : α) : Option α × Table α :=
  answer t (t.replace name [(name, value)] (.refl _))

/-- Removes a name and gives the value that was there. -/
def take (t : Table α) (name : String) : Option α × Table α :=
  answer t (t.replace name [] (List.nil_sublist _))

/-- The table with a value written under a name, for writing in a chain. -/
def adding (t : Table α) (name : String) (value : α) : Table α := (t.put name value).2

/-- Writes the entries of a list, one by one. -/
def putAll (t : Table α) (entries : List (String × α)) : Table α :=
  entries.foldl (fun t e => (t.put e.1 e.2).2) t

/-- One edit of a table. -/
inductive Edit (α : Type)
  | put (name : String) (value : α)
  | take (name : String)
  | overwrite (name : String) (value : α)
  | putAll (entries : List (String × α))

/-- What an edit answers and what it makes of a table. -/
def Edit.apply : Edit α → Table α → Option α × Table α
  | put name value, t => t.put name value
  | take name, t => t.take name
  | overwrite name value, t => t.overwrite name value
  | putAll entries, t => (none, t.putAll entries)

/-- The table after edits, first to last. -/
def edited (t : Table α) (edits : List (Edit α)) : Table α :=
  edits.foldl (fun t edit => (edit.apply t).2) t

/-- A way to make a table of a list of entries. -/
inductive Building
  | writing
  | adding
  | collecting
  | extending

def Building.table : Building → List (String × α) → Table α
  | writing, entries => empty.edited (entries.map fun e => .put e.1 e.2)
  | adding, entries => entries.foldl (fun t e => t.adding e.1 e.2) empty
  | collecting, entries => ofList entries
  | extending, entries => empty.putAll entries

end Table

end AtomicCss
