import Mathlib.Data.List.Basic
import AtomicCss.Table.Edit

/-!
# What tables hold and how edits change it

A table is known by its names in order and by what it holds under them (`eq_of_get?`), so the
entries that a list writes can be told from the list: every name at its first place with its last
value (`entries_ofList`). A table that is written into another acts as the list that it was made of
(`insertAll_ofList_entries`). An edit answers what look-up finds (`put_eq`, `take_eq`), and the names
that are present before and after it stand in the same order (`Edit.precedes_next_iff`).
-/

namespace AtomicCss

namespace Table

variable {α : Type}

theorem entries_eq_filterMap (t : Table α) :
    t.entries = t.names.filterMap fun name => (t.get? name).map (name, ·) := by
  have hsome : t.entries.filterMap some = t.entries := List.filterMap_some
  rw [← t.map_fst_entries, List.filterMap_map]
  refine hsome.symm.trans (List.filterMap_congr fun e he => ?_)
  rw [Function.comp_apply, get?_eq_some_iff.2 he]
  rfl

theorem eq_of_get? {s t : Table α} (hnames : s.names = t.names)
    (hget : ∀ name, s.get? name = t.get? name) : s = t := by
  refine ext ?_
  rw [entries_eq_filterMap, entries_eq_filterMap, hnames, funext hget]

theorem entries_ofList (entries : List (String × α)) :
    (ofList entries).entries = (entries.map Prod.fst).eraseDups.filterMap fun name =>
      (entries.reverse.lookup name).map (name, ·) := by
  rw [entries_eq_filterMap, names_ofList]
  simp only [get?_ofList]

theorem lookup_reverse_entries (t : Table α) (name : String) :
    t.entries.reverse.lookup name = t.get? name := by
  rw [← get?_ofList, ofList_entries]

/-- What a list of entries writes is what the table made of it writes. -/
theorem insertAll_ofList_entries (t : Table α) (entries : List (String × α)) :
    t.insertAll (ofList entries).entries = t.insertAll entries := by
  -- The names behave as a set in which nothing is inserted twice, the values by their last writing.
  refine eq_of_get? ?_ fun name => ?_
  · rw [names_insertAll, names_insertAll, map_fst_entries, ofList, names_insertAll]
    exact congrArg OrderedSet.items (t.nameSet.insertAll_items_insertAll .empty _)
  · rw [get?_insertAll, get?_insertAll, lookup_reverse_entries, get?_ofList]

theorem insertAll_self (t : Table α) : t.insertAll t.entries = t := by
  refine eq_of_get? ?_ fun name => ?_
  · rw [names_insertAll, map_fst_entries]
    exact congrArg OrderedSet.items (OrderedSet.insertAll_of_forall_mem fun _ hmem => hmem)
  · rw [get?_insertAll, lookup_reverse_entries, Option.or_self]

/-! ## Edits -/

/-- The entries with others in place of those under a name. -/
def replaced (entries : List (String × α)) (name : String) (others : List (String × α)) :
    List (String × α) :=
  entries.flatMap fun e => if e.1 = name then others else [e]

theorem replaced_cons (e : String × α) (rest : List (String × α)) (name : String)
    (others : List (String × α)) :
    replaced (e :: rest) name others =
      (if e.1 = name then others else [e]) ++ replaced rest name others :=
  List.flatMap_cons

theorem replaced_of_not_mem {entries : List (String × α)} {name : String}
    (h : name ∉ entries.map Prod.fst) (others : List (String × α)) :
    replaced entries name others = entries := by
  induction entries with
  | nil => rfl
  | cons e rest ih =>
    rw [List.map_cons, List.mem_cons, not_or] at h
    rw [replaced_cons, if_neg (Ne.symm h.1), ih h.2]
    rfl

theorem splice_eq {entries : List (String × α)} (h : (entries.map Prod.fst).Nodup) (name : String)
    (others : List (String × α)) :
    splice name others entries =
      (entries.lookup name).map fun old => (old, replaced entries name others) := by
  induction entries with
  | nil => rfl
  | cons e rest ih =>
    obtain ⟨hnew, hrest⟩ := List.nodup_cons.1 h
    rw [splice, ih hrest, List.lookup_cons, replaced_cons]
    by_cases hname : e.1 = name
    · rw [if_pos hname, if_pos hname, replaced_of_not_mem (hname ▸ hnew), hname, beq_self_eq_true]
      rfl
    · have hbeq : (name == e.1) = false := beq_eq_false_iff_ne.2 (Ne.symm hname)
      rw [if_neg hname, if_neg hname, hbeq, Option.map_map]
      rfl

theorem replaced_nil (entries : List (String × α)) (name : String) :
    replaced entries name [] = entries.filter fun e => e.1 ≠ name := by
  induction entries with
  | nil => rfl
  | cons e rest ih =>
    rw [replaced_cons, ih]
    by_cases h : e.1 = name <;> simp [h]

theorem replaced_singleton (entries : List (String × α)) (name : String) (value : α) :
    replaced entries name [(name, value)] =
      entries.map fun e => if e.1 = name then (e.1, value) else e := by
  induction entries with
  | nil => rfl
  | cons e rest ih =>
    rw [replaced_cons, ih]
    by_cases h : e.1 = name <;> simp [h]

section replace

variable {t : Table α} {name : String} (others : List (String × α))
  (hothers : (others.map Prod.fst).Sublist [name])

theorem replace_eq_none (h : t.get? name = none) : t.replace name others hothers = none := by
  have hsplice : splice name others t.entries = none := by
    rw [splice_eq t.nodup_entries, ← get?, h]
    rfl
  simp only [replace, hsplice, Option.pmap_none]

theorem exists_replace_eq {old : α} (h : t.get? name = some old) :
    ∃ t' : Table α, t.replace name others hothers = some (old, t') ∧
      t'.entries = replaced t.entries name others := by
  have hsplice : splice name others t.entries = some (old, replaced t.entries name others) := by
    rw [splice_eq t.nodup_entries, ← get?, h]
    rfl
  simp only [replace, hsplice, Option.pmap_some]
  exact ⟨_, rfl, entries_ofNodup _ _⟩

end replace

theorem not_mem_of_get?_eq_none {t : Table α} {name : String} (h : t.get? name = none) :
    name ∉ t.entries.map Prod.fst := t.map_fst_entries ▸ get?_eq_none_iff.1 h

theorem put_eq (t : Table α) (name : String) (value : α) :
    t.put name value = (t.get? name, t.insert name value) := by
  cases h : t.get? name with
  | none =>
    rw [put, replace_eq_none _ _ h]
    rfl
  | some old =>
    have hmem : name ∈ t.names := get?_isSome_iff.1 (h ▸ rfl)
    obtain ⟨t', hreplace, hentries⟩ := exists_replace_eq [(name, value)] (.refl _) h
    rw [put, hreplace]
    refine congrArg (some old, ·) (ext ?_)
    rw [hentries, replaced_singleton, insert_of_mem hmem, entries_update]

theorem overwrite_eq (t : Table α) (name : String) (value : α) :
    t.overwrite name value = (t.get? name, t.update name value) := by
  cases h : t.get? name with
  | none =>
    rw [overwrite, replace_eq_none _ _ h]
    refine congrArg (none, ·) (ext ?_)
    rw [entries_update, ← replaced_singleton, replaced_of_not_mem (not_mem_of_get?_eq_none h)]
  | some old =>
    obtain ⟨t', hreplace, hentries⟩ := exists_replace_eq [(name, value)] (.refl _) h
    rw [overwrite, hreplace]
    refine congrArg (some old, ·) (ext ?_)
    rw [hentries, replaced_singleton, entries_update]

theorem take_eq (t : Table α) (name : String) :
    t.take name = (t.get? name, t.erase name) := by
  cases h : t.get? name with
  | none =>
    rw [take, replace_eq_none _ _ h]
    refine congrArg (none, ·) (ext ?_)
    rw [entries_erase, ← replaced_nil, replaced_of_not_mem (not_mem_of_get?_eq_none h)]
  | some old =>
    obtain ⟨t', hreplace, hentries⟩ := exists_replace_eq [] (List.nil_sublist _) h
    rw [take, hreplace]
    refine congrArg (some old, ·) (ext ?_)
    rw [hentries, replaced_nil, entries_erase]

theorem putAll_eq (t : Table α) (entries : List (String × α)) :
    t.putAll entries = t.insertAll entries := by
  induction entries generalizing t with
  | nil => rfl
  | cons e rest ih =>
    have hput : (t.put e.1 e.2).2 = t.insert e.1 e.2 := congrArg Prod.snd (put_eq t e.1 e.2)
    calc t.putAll (e :: rest) = ((t.put e.1 e.2).2).putAll rest := rfl
      _ = (t.insert e.1 e.2).putAll rest := by rw [hput]
      _ = (t.insert e.1 e.2).insertAll rest := ih _

/-- What an edit makes of a table. -/
def Edit.next : Edit α → Table α → Table α
  | put name value, t => t.insert name value
  | take name, t => t.erase name
  | overwrite name value, t => t.update name value
  | putAll entries, t => t.insertAll entries

theorem Edit.apply_eq (edit : Edit α) (t : Table α) : (edit.apply t).2 = edit.next t := by
  cases edit with
  | put name value => exact congrArg Prod.snd (put_eq t name value)
  | take name => exact congrArg Prod.snd (take_eq t name)
  | overwrite name value => exact congrArg Prod.snd (overwrite_eq t name value)
  | putAll entries => exact putAll_eq t entries

theorem edited_cons (t : Table α) (edit : Edit α) (rest : List (Edit α)) :
    t.edited (edit :: rest) = (edit.next t).edited rest := by
  rw [← edit.apply_eq]
  rfl

theorem edited_append (t : Table α) (edits more : List (Edit α)) :
    t.edited (edits ++ more) = (t.edited edits).edited more := List.foldl_append

/-! ## The order of names -/

/-- Both names are present, the first one before the second. -/
def Precedes (t : Table α) (first second : String) : Prop := [first, second].Sublist t.names

theorem names_prefix_insertAll (t : Table α) (entries : List (String × α)) :
    t.names <+: (t.insertAll entries).names := by
  rw [names_insertAll]
  exact t.nameSet.prefix_insertAll _

theorem filter_mem_eq {part whole : List String} (hsub : part.Sublist whole)
    (hnodup : whole.Nodup) : whole.filter (· ∈ part) = part := by
  have hself : part.filter (· ∈ part) = part := List.filter_eq_self.2 fun x hx => decide_eq_true hx
  have hpart : part.Sublist (whole.filter (· ∈ part)) := by
    have hfilter := hsub.filter (· ∈ part)
    rwa [hself] at hfilter
  have hperm : part.Perm (whole.filter (· ∈ part)) := by
    refine (List.perm_ext_iff_of_nodup (hnodup.sublist hsub) (hnodup.filter _)).2 fun x => ?_
    rw [List.mem_filter, decide_eq_true_eq]
    exact ⟨fun hx => ⟨hsub.subset hx, hx⟩, fun hx => hx.2⟩
  exact (hpart.eq_of_length hperm.length_eq).symm

theorem pair_sublist_iff {part whole : List String} (hsub : part.Sublist whole)
    (hnodup : whole.Nodup) {a b : String} (ha : a ∈ part) (hb : b ∈ part) :
    [a, b].Sublist part ↔ [a, b].Sublist whole := by
  refine ⟨fun h => h.trans hsub, fun h => ?_⟩
  have hfilter := h.filter (· ∈ part)
  rwa [filter_mem_eq hsub hnodup, List.filter_eq_self.2 (by simp [ha, hb])] at hfilter

theorem Edit.names_next (edit : Edit α) (t : Table α) :
    t.names <+: (edit.next t).names ∨ (edit.next t).names.Sublist t.names := by
  cases edit with
  | put name value => exact .inl (names_prefix_insertAll t [(name, value)])
  | take name => exact .inr (names_erase t name ▸ List.filter_sublist)
  | overwrite name value => exact .inl (List.prefix_refl _)
  | putAll entries => exact .inl (names_prefix_insertAll t entries)

/-- No edit changes the order of two names that are present before and after it. -/
theorem Edit.precedes_next_iff {t : Table α} (edit : Edit α) {a b : String} (ha : a ∈ t.names) (hb : b ∈ t.names) (ha' : a ∈ (edit.next t).names)
    (hb' : b ∈ (edit.next t).names) : (edit.next t).Precedes a b ↔ t.Precedes a b := by
  rcases edit.names_next t with hprefix | hsub
  · exact (pair_sublist_iff hprefix.sublist (edit.next t).distinct ha hb).symm
  · exact pair_sublist_iff hsub t.distinct ha' hb'

theorem entries_put_of_not_mem {t : Table α} {name : String} (hnew : name ∉ t.names) (value : α) :
    (t.put name value).2.entries = t.entries ++ [(name, value)] := by
  rw [put_eq, entries_insert_of_not_mem hnew]

/-! ## Building -/

/-- However a table is made of a list of entries, they are written first to last. -/
theorem Building.table_eq (way : Building) (entries : List (String × α)) :
    way.table entries = ofList entries := by
  have hputAll : (empty : Table α).putAll entries = ofList entries :=
    putAll_eq empty entries
  cases way with
  | writing =>
    rw [← hputAll]
    exact List.foldl_map
  | adding => exact hputAll
  | collecting => rfl
  | extending => exact hputAll

theorem Building.edited_eq (way : Building) (entries : List (String × α))
    (edits : List (Edit α)) :
    (way.table entries).edited edits = empty.edited (.putAll entries :: edits) := by
  rw [way.table_eq, edited_cons]
  rfl

end Table

end AtomicCss
