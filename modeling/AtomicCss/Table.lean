import AtomicCss.OrderedSet

/-!
# Ordered tables

A table holds values under distinct names (`Rows`, `Table.distinct`), in the order of their first
writing. Writing under a name that is present changes the value in its place, a new name goes last,
and erasing closes the gap. A table is known by its entries (`Table.ext`), and its content is its
look-up (`get?_insert`, `get?_erase`). The entries after a list of writes are `entries_insertAll`
where the list names nothing twice; in general the names are `names_insertAll`.
-/

namespace AtomicCss

/-- Values under names, none of which stands twice. -/
inductive Rows (α : Type) : List String → Type
  | nil : Rows α []
  | cons {names : List String} (name : String) (value : α) (rest : Rows α names)
      (fresh : name ∉ names) : Rows α (name :: names)

namespace Rows

variable {α β : Type}

def entries : {names : List String} → Rows α names → List (String × α)
  | _, nil => []
  | _, cons name value rest _ => (name, value) :: rest.entries

/-- Changes every value, in sight of its name. -/
def map (f : String → α → β) : {names : List String} → Rows α names → Rows β names
  | _, nil => nil
  | _, cons name value rest fresh => cons name (f name value) (rest.map f) fresh

/-- Puts a value last, under a name that is not there. -/
def snoc (name : String) (value : α) :
    {names : List String} → Rows α names → name ∉ names → Rows α (names ++ [name])
  | _, nil, h => cons name value nil h
  | _, cons other held rest fresh, h =>
    cons other held (rest.snoc name value fun hmem => h (List.mem_cons_of_mem _ hmem))
      (by simpa [fresh] using fun he => h (by simp [he]))

/-- The rows that a list of entries with distinct names is. -/
def ofNodup : (entries : List (String × α)) → (entries.map Prod.fst).Nodup →
    Rows α (entries.map Prod.fst)
  | [], _ => nil
  | e :: rest, h => cons e.1 e.2 (ofNodup rest (List.nodup_cons.1 h).2) (List.nodup_cons.1 h).1

variable {names : List String}

theorem nodup (rows : Rows α names) : names.Nodup := by
  induction rows with
  | nil => exact List.nodup_nil
  | cons name value rest fresh ih => exact List.nodup_cons.2 ⟨fresh, ih⟩

theorem map_fst_entries (rows : Rows α names) : rows.entries.map Prod.fst = names := by
  induction rows with
  | nil => rfl
  | cons name value rest fresh ih => exact congrArg (name :: ·) ih

theorem entries_map (f : String → α → β) (rows : Rows α names) :
    (rows.map f).entries = rows.entries.map fun e => (e.1, f e.1 e.2) := by
  induction rows with
  | nil => rfl
  | cons name value rest fresh ih => exact congrArg ((name, f name value) :: ·) ih

theorem entries_snoc (rows : Rows α names) (name : String) (value : α) (h : name ∉ names) :
    (rows.snoc name value h).entries = rows.entries ++ [(name, value)] := by
  induction rows with
  | nil => rfl
  | cons other held rest fresh ih => exact congrArg ((other, held) :: ·) (ih _)

theorem entries_ofNodup (entries : List (String × α)) (h : (entries.map Prod.fst).Nodup) :
    (ofNodup entries h).entries = entries := by
  induction entries with
  | nil => rfl
  | cons e rest ih => exact congrArg (e :: ·) (ih _)

end Rows

/-- Values under distinct names, in order. -/
structure Table (α : Type) where
  names : List String
  rows : Rows α names

namespace Table

variable {α β : Type}

def empty : Table α := ⟨[], .nil⟩

instance : EmptyCollection (Table α) := ⟨empty⟩
instance : Inhabited (Table α) := ⟨empty⟩

def entries (t : Table α) : List (String × α) := t.rows.entries

/-- The table that a list of entries with distinct names is. -/
def ofNodup (entries : List (String × α)) (h : (entries.map Prod.fst).Nodup) : Table α :=
  ⟨entries.map Prod.fst, .ofNodup entries h⟩

def size (t : Table α) : Nat := t.entries.length

def isEmpty (t : Table α) : Bool := t.entries.isEmpty

def contains (t : Table α) (name : String) : Bool := t.names.contains name

def get? (t : Table α) (name : String) : Option α := t.entries.lookup name

theorem distinct (t : Table α) : t.names.Nodup := t.rows.nodup

theorem map_fst_entries (t : Table α) : t.entries.map Prod.fst = t.names := t.rows.map_fst_entries

theorem nodup_entries (t : Table α) : (t.entries.map Prod.fst).Nodup :=
  t.map_fst_entries ▸ t.distinct

/-- Gives the name a new value if it is present, and leaves the table alone otherwise. -/
def update (t : Table α) (name : String) (value : α) : Table α :=
  ⟨t.names, t.rows.map fun other held => if other = name then value else held⟩

/-- Writes a value under a name: in place if the name is present, last otherwise. -/
def insert (t : Table α) (name : String) (value : α) : Table α :=
  if h : name ∈ t.names then t.update name value
  else ⟨t.names ++ [name], t.rows.snoc name value h⟩

/-- Removes a name; the entries behind it move up. -/
def erase (t : Table α) (name : String) : Table α :=
  ofNodup (t.entries.filter fun e => e.1 ≠ name) ((List.filter_sublist.map _).nodup t.nodup_entries)

def insertAll (t : Table α) (entries : List (String × α)) : Table α :=
  entries.foldl (fun t e => t.insert e.1 e.2) t

/-- The table written by the entries of a list, first to last. -/
def ofList (entries : List (String × α)) : Table α := empty.insertAll entries

/-- Whether two tables hold the same names with equal values, whatever their order. -/
def sameEntries (eq : α → α → Bool) (s t : Table α) : Bool :=
  s.size == t.size && s.entries.all fun e => (t.get? e.1).any (eq e.2)

/-! ## Entries -/

theorem ext {s t : Table α} (h : s.entries = t.entries) : s = t := by
  obtain ⟨names, rows⟩ := s
  induction rows generalizing t with
  | nil =>
    obtain ⟨_, _ | _⟩ := t
    · rfl
    · cases h
  | cons name value rest fresh ih =>
    obtain ⟨_, _ | ⟨name', value', rest', fresh'⟩⟩ := t
    · cases h
    · obtain ⟨hfirst, hrest⟩ := List.cons.inj h
      cases hfirst
      cases ih (t := ⟨_, rest'⟩) hrest
      rfl

instance [DecidableEq α] : DecidableEq (Table α) := fun s t =>
  decidable_of_iff (s.entries = t.entries) ⟨ext, congrArg entries⟩

@[simp] theorem entries_ofNodup (entries : List (String × α)) (h : (entries.map Prod.fst).Nodup) :
    (ofNodup entries h).entries = entries := Rows.entries_ofNodup entries h

theorem mem_names_of_mem {t : Table α} {e : String × α} (h : e ∈ t.entries) : e.1 ∈ t.names :=
  t.map_fst_entries ▸ List.mem_map_of_mem h

theorem entries_update (t : Table α) (name : String) (value : α) :
    (t.update name value).entries =
      t.entries.map fun e => if e.1 = name then (e.1, value) else e := by
  refine (Rows.entries_map _ t.rows).trans (List.map_congr_left fun e _ => ?_)
  by_cases h : e.1 = name
  · rw [if_pos h, if_pos h]
  · rw [if_neg h, if_neg h]

theorem insert_of_mem {t : Table α} {name : String} (h : name ∈ t.names) (value : α) :
    t.insert name value = t.update name value := dif_pos h

theorem entries_insert_of_not_mem {t : Table α} {name : String} (h : name ∉ t.names) (value : α) :
    (t.insert name value).entries = t.entries ++ [(name, value)] := by
  rw [insert, dif_neg h]
  exact t.rows.entries_snoc name value h

theorem entries_erase (t : Table α) (name : String) :
    (t.erase name).entries = t.entries.filter fun e => e.1 ≠ name := entries_ofNodup _ _

/-! ## Names -/

@[simp] theorem names_empty : (empty : Table α).names = [] := rfl

@[simp] theorem names_update (t : Table α) (name : String) (value : α) :
    (t.update name value).names = t.names := rfl

theorem contains_iff {t : Table α} {name : String} : t.contains name = true ↔ name ∈ t.names := by
  simp [contains]

theorem names_insert_of_mem {t : Table α} {name : String} (h : name ∈ t.names) (value : α) :
    (t.insert name value).names = t.names := by
  rw [insert_of_mem h, names_update]

theorem names_insert_of_not_mem {t : Table α} {name : String} (h : name ∉ t.names) (value : α) :
    (t.insert name value).names = t.names ++ [name] := by
  rw [insert, dif_neg h]

@[simp] theorem mem_names_insert {t : Table α} {name other : String} {value : α} :
    other ∈ (t.insert name value).names ↔ other ∈ t.names ∨ other = name := by
  by_cases h : name ∈ t.names
  · rw [names_insert_of_mem h]
    exact ⟨Or.inl, fun h' => h'.elim id fun e => e ▸ h⟩
  · rw [names_insert_of_not_mem h]
    simp

theorem contains_insert (t : Table α) (name other : String) (value : α) :
    (t.insert name value).contains other = (t.contains other || other == name) := by
  rw [Bool.eq_iff_iff, Bool.or_eq_true, contains_iff, contains_iff, mem_names_insert, beq_iff_eq]

theorem names_erase (t : Table α) (name : String) :
    (t.erase name).names = t.names.filter (· ≠ name) := by
  rw [← t.map_fst_entries, List.filter_map]
  rfl

theorem entries_insertAll_of_nodup {t : Table α} {entries : List (String × α)}
    (h : (t.names ++ entries.map Prod.fst).Nodup) :
    (t.insertAll entries).entries = t.entries ++ entries := by
  induction entries generalizing t with
  | nil => exact (List.append_nil _).symm
  | cons e rest ih =>
    have hnew : e.1 ∉ t.names := fun hmem =>
      (List.nodup_append.1 h).2.2 e.1 hmem e.1 List.mem_cons_self rfl
    have hrest : ((t.insert e.1 e.2).names ++ rest.map Prod.fst).Nodup := by
      rw [names_insert_of_not_mem hnew, List.append_assoc]
      exact h
    show ((t.insert e.1 e.2).insertAll rest).entries = _
    rw [ih hrest, entries_insert_of_not_mem hnew, List.append_assoc]
    rfl

theorem entries_ofList_of_nodup {entries : List (String × α)} (h : (entries.map Prod.fst).Nodup) :
    (ofList entries).entries = entries :=
  entries_insertAll_of_nodup (t := empty) h

theorem ofList_entries (t : Table α) : ofList t.entries = t :=
  ext (entries_ofList_of_nodup t.nodup_entries)

/-! ## Look-up -/

@[simp] theorem get?_empty (name : String) : (empty : Table α).get? name = none := rfl

theorem lookup_eq_none_iff {entries : List (String × α)} {name : String} :
    entries.lookup name = none ↔ name ∉ entries.map Prod.fst := by
  simp only [List.lookup_eq_none_iff, List.mem_map, not_exists, not_and]
  exact ⟨fun h e he hn => by simpa [hn] using h e he,
    fun h e he => by simpa using fun hn => h e he hn.symm⟩

theorem lookup_update (entries : List (String × α)) (name other : String) (value : α) :
    (entries.map fun e => if e.1 = name then (e.1, value) else e).lookup other =
      if other = name then (entries.lookup other).map fun _ => value else entries.lookup other := by
  induction entries with
  | nil => simp
  | cons e rest ih =>
    obtain ⟨k, v⟩ := e
    by_cases ho : other = k
    · subst ho
      by_cases hk : other = name
      · simp only [List.map_cons, if_pos hk, List.lookup_cons_self, Option.map_some]
      · simp only [List.map_cons, if_neg hk, List.lookup_cons_self]
    · have hb : (other == k) = false := beq_eq_false_iff_ne.mpr ho
      by_cases hk : k = name
      · simp only [List.map_cons, if_pos hk, List.lookup_cons, hb, ih]
      · simp only [List.map_cons, if_neg hk, List.lookup_cons, hb, ih]

theorem lookup_eq_some_iff {entries : List (String × α)} (h : (entries.map Prod.fst).Nodup)
    {name : String} {value : α} :
    entries.lookup name = some value ↔ (name, value) ∈ entries := by
  rw [List.lookup_eq_some_iff]
  constructor
  · rintro ⟨before, after, rfl, -⟩
    exact List.mem_append_right _ List.mem_cons_self
  · intro hmem
    obtain ⟨before, after, rfl⟩ := List.append_of_mem hmem
    refine ⟨before, after, rfl, fun e he => ?_⟩
    rw [List.map_append, List.nodup_append] at h
    have hne := h.2.2 e.1 (List.mem_map_of_mem he) name List.mem_cons_self
    exact bne_iff_ne.2 hne.symm

theorem lookup_of_perm {entries entries' : List (String × α)}
    (h : (entries.map Prod.fst).Nodup) (hperm : entries.Perm entries') (name : String) :
    entries.lookup name = entries'.lookup name := by
  have h' : (entries'.map Prod.fst).Nodup := (hperm.map Prod.fst).nodup_iff.1 h
  refine Option.ext fun v => ?_
  rw [lookup_eq_some_iff h, lookup_eq_some_iff h', hperm.mem_iff]

theorem get?_eq_none_iff {t : Table α} {name : String} : t.get? name = none ↔ name ∉ t.names := by
  rw [← t.map_fst_entries]
  exact lookup_eq_none_iff

theorem get?_isSome_iff {t : Table α} {name : String} :
    (t.get? name).isSome = true ↔ name ∈ t.names := by
  rw [Option.isSome_iff_ne_none, ne_eq, get?_eq_none_iff, Decidable.not_not]

theorem get?_eq_some_iff {t : Table α} {name : String} {value : α} :
    t.get? name = some value ↔ (name, value) ∈ t.entries := lookup_eq_some_iff t.nodup_entries

theorem eq_of_mem {t : Table α} {name : String} {v w : α} (hv : (name, v) ∈ t.entries)
    (hw : (name, w) ∈ t.entries) : v = w :=
  Option.some.inj ((get?_eq_some_iff.2 hv).symm.trans (get?_eq_some_iff.2 hw))

theorem get?_update (t : Table α) (name other : String) (value : α) :
    (t.update name value).get? other =
      if other = name then (t.get? other).map fun _ => value else t.get? other := by
  rw [get?, entries_update, lookup_update]
  rfl

/-- After a write the name holds the written value and every other name what it held. -/
theorem get?_insert (t : Table α) (name other : String) (value : α) :
    (t.insert name value).get? other = if other = name then some value else t.get? other := by
  by_cases hm : name ∈ t.names
  · rw [insert_of_mem hm, get?_update]
    split
    · next h =>
      subst h
      obtain ⟨v, hv⟩ := Option.isSome_iff_exists.1 (get?_isSome_iff.2 hm)
      rw [hv]
      rfl
    · rfl
  · have hnone : t.entries.lookup name = none := get?_eq_none_iff.2 hm
    rw [get?, get?, entries_insert_of_not_mem hm, List.lookup_append]
    split
    · next h => rw [h, hnone, List.lookup_cons_self, Option.none_or]
    · next h => rw [List.lookup_cons, beq_eq_false_iff_ne.2 h, List.lookup_nil, Option.or_none]

theorem get?_erase (t : Table α) (name other : String) :
    (t.erase name).get? other = if other = name then none else t.get? other := by
  rw [get?, get?, entries_erase]
  generalize t.entries = entries
  induction entries with
  | nil => simp
  | cons e rest ih =>
    obtain ⟨k, v⟩ := e
    by_cases hk : k = name
    · rw [List.filter_cons_of_neg (by simpa using hk), ih, List.lookup_cons]
      split
      · rfl
      · next h => rw [beq_eq_false_iff_ne.2 fun he => h (he.trans hk)]
    · rw [List.filter_cons_of_pos (by simpa using hk), List.lookup_cons, List.lookup_cons, ih]
      by_cases ho : other = k
      · subst ho; simp [hk]
      · rw [beq_eq_false_iff_ne.2 ho]

theorem get?_insertAll (t : Table α) (entries : List (String × α)) (name : String) :
    (t.insertAll entries).get? name = (entries.reverse.lookup name).or (t.get? name) := by
  induction entries generalizing t with
  | nil => rfl
  | cons e rest ih =>
    show ((t.insert e.1 e.2).insertAll rest).get? name = _
    rw [ih, get?_insert, List.reverse_cons, List.lookup_append, Option.or_assoc]
    by_cases hname : name = e.1
    · rw [if_pos hname, hname, List.lookup_cons_self, Option.some_or]
    · rw [if_neg hname, List.lookup_cons, beq_eq_false_iff_ne.2 hname]
      rfl

theorem get?_ofList (entries : List (String × α)) (name : String) :
    (ofList entries).get? name = entries.reverse.lookup name := by
  rw [ofList, get?_insertAll, get?_empty, Option.or_none]

/-- Where every name of a list has one value, look-up finds it. -/
theorem get?_ofList_eq_some_iff {entries : List (String × α)}
    (h : ∀ name v w, (name, v) ∈ entries → (name, w) ∈ entries → v = w) {name : String} {v : α} :
    (ofList entries).get? name = some v ↔ (name, v) ∈ entries := by
  have hmem : ∀ {w}, entries.reverse.lookup name = some w → (name, w) ∈ entries := fun hw => by
    obtain ⟨before, after, hentries, -⟩ := List.lookup_eq_some_iff.1 hw
    rw [← List.mem_reverse, hentries]
    exact List.mem_append_right _ List.mem_cons_self
  rw [get?_ofList]
  refine ⟨hmem, fun hv => ?_⟩
  cases hfound : entries.reverse.lookup name with
  | none =>
    have hnone := List.lookup_eq_none_iff.1 hfound _ (List.mem_reverse.2 hv)
    exact absurd hnone (by simp)
  | some w => rw [h name w v (hmem hfound) hv]

/-! ## Entries after writing and erasing -/

/-- The names of a table, as a set. -/
def nameSet (t : Table α) : OrderedSet := ⟨t.names, t.distinct⟩

theorem nameSet_insert (t : Table α) (name : String) (value : α) :
    (t.insert name value).nameSet = t.nameSet.insert name := by
  refine OrderedSet.ext ?_
  by_cases h : name ∈ t.nameSet
  · rw [OrderedSet.insert_of_mem h]
    exact names_insert_of_mem h value
  · rw [OrderedSet.items_insert_of_not_mem h]
    exact names_insert_of_not_mem h value

theorem names_insertAll (t : Table α) (entries : List (String × α)) :
    (t.insertAll entries).names = (t.nameSet.insertAll (entries.map Prod.fst)).items := by
  induction entries generalizing t with
  | nil => rfl
  | cons e rest ih =>
    refine (ih (t.insert e.1 e.2)).trans ?_
    rw [nameSet_insert]
    rfl

theorem names_ofList (entries : List (String × α)) :
    (ofList entries).names = (entries.map Prod.fst).eraseDups := by
  rw [← OrderedSet.items_ofList]
  exact names_insertAll empty entries

/-- Entries under distinct names are written in place where their name is present; the others go
last, in their order. -/
theorem entries_insertAll (t : Table α) {entries : List (String × α)}
    (h : (entries.map Prod.fst).Nodup) :
    (t.insertAll entries).entries =
      (t.entries.map fun e => (e.1, (entries.lookup e.1).getD e.2)) ++
        entries.filter fun e => !t.contains e.1 := by
  induction entries generalizing t with
  | nil => simp [insertAll]
  | cons e rest ih =>
    obtain ⟨name, value⟩ := e
    obtain ⟨hnew, hrest⟩ := List.nodup_cons.1 h
    have hlookup : rest.lookup name = none := lookup_eq_none_iff.2 hnew
    have hother : ∀ e : String × α, e.1 ≠ name →
        ((name, value) :: rest).lookup e.1 = rest.lookup e.1 := fun e hne => by
      rw [List.lookup_cons, beq_eq_false_iff_ne.2 hne]
    have hfilter : (rest.filter fun e => !(t.insert name value).contains e.1) =
        rest.filter fun e => !t.contains e.1 := by
      refine List.filter_congr fun e he => ?_
      have hmem : e.1 ∈ rest.map Prod.fst := List.mem_map_of_mem he
      have hne : e.1 ≠ name := fun hn => hnew (hn ▸ hmem)
      rw [contains_insert, beq_eq_false_iff_ne.2 hne, Bool.or_false]
    show ((t.insert name value).insertAll rest).entries = _
    rw [ih _ hrest, hfilter]
    by_cases hmem : name ∈ t.names
    · rw [List.filter_cons_of_neg (by simp [contains_iff.2 hmem]), insert_of_mem hmem,
        entries_update, List.map_map]
      refine congrArg (· ++ _) (List.map_congr_left fun e _ => ?_)
      by_cases hn : e.1 = name
      · simp [hn, hlookup]
      · simp [hn, hother e hn]
    · have hmap : (t.entries.map fun e => (e.1, (rest.lookup e.1).getD e.2)) =
          t.entries.map fun e => (e.1, (((name, value) :: rest).lookup e.1).getD e.2) := by
        refine List.map_congr_left fun e he => ?_
        rw [hother e fun hn => hmem (hn ▸ mem_names_of_mem he)]
      have hc : t.contains name = false := Bool.eq_false_iff.2 (mt contains_iff.1 hmem)
      rw [List.filter_cons_of_pos (by simp [hc]), entries_insert_of_not_mem hmem, List.map_append,
        List.map_singleton, hlookup, hmap, List.append_assoc]
      rfl

theorem erase_insert_of_ne {name other : String} (h : other ≠ name) (t : Table α) (value : α) :
    (t.insert other value).erase name = (t.erase name).insert other value := by
  have hiff : other ∈ (t.erase name).names ↔ other ∈ t.names := by
    rw [names_erase, List.mem_filter]
    simp [h]
  refine ext ?_
  by_cases hmem : other ∈ t.names
  · rw [insert_of_mem hmem, insert_of_mem (hiff.2 hmem), entries_erase, entries_update,
      entries_update, entries_erase, List.filter_map]
    refine congrArg (List.map _) (List.filter_congr fun e _ => ?_)
    rw [Function.comp_apply]
    split <;> rfl
  · rw [entries_insert_of_not_mem (mt hiff.1 hmem), entries_erase, entries_erase,
      entries_insert_of_not_mem hmem, List.filter_append,
      List.filter_cons_of_pos (by simpa using h), List.filter_nil]

theorem erase_insertAll_of_not_mem {name : String} {entries : List (String × α)}
    (h : name ∉ entries.map Prod.fst) (t : Table α) :
    (t.insertAll entries).erase name = (t.erase name).insertAll entries := by
  induction entries generalizing t with
  | nil => rfl
  | cons e rest ih =>
    rw [List.map_cons, List.mem_cons, not_or] at h
    exact (ih h.2 _).trans (congrArg (insertAll · rest) (erase_insert_of_ne (Ne.symm h.1) t e.2))

theorem insertAll_append (t : Table α) (xs ys : List (String × α)) :
    t.insertAll (xs ++ ys) = (t.insertAll xs).insertAll ys := List.foldl_append

theorem foldl_erase_insertAll {names : List String} {entries : List (String × α)}
    (h : ∀ name ∈ names, name ∉ entries.map Prod.fst) (t : Table α) :
    names.foldl erase (t.insertAll entries) = (names.foldl erase t).insertAll entries := by
  induction names generalizing t with
  | nil => rfl
  | cons name rest ih =>
    obtain ⟨hname, hrest⟩ := List.forall_mem_cons.1 h
    rw [List.foldl_cons, erase_insertAll_of_not_mem hname, ih hrest, List.foldl_cons]

theorem entries_foldl_erase (t : Table α) (names : List String) :
    (names.foldl erase t).entries = t.entries.filter fun e => !names.contains e.1 := by
  induction names generalizing t with
  | nil => exact (List.filter_eq_self.2 fun _ _ => rfl).symm
  | cons name rest ih =>
    rw [List.foldl_cons, ih, entries_erase, List.filter_filter]
    refine List.filter_congr fun e _ => ?_
    by_cases h : e.1 = name <;> simp [h]

theorem mem_names_foldl_erase {t : Table α} {names : List String} {name : String} :
    name ∈ (names.foldl erase t).names ↔ name ∈ t.names ∧ name ∉ names := by
  induction names generalizing t with
  | nil => simp
  | cons first rest ih =>
    rw [List.foldl_cons, ih, names_erase, List.mem_filter, List.mem_cons]
    simp [and_assoc]

/-! ## Changed values -/

section map

variable (f : String → α → β) {s : Table α} {t : Table β}

theorem entries_insert_map (h : t.entries = s.entries.map fun e => (e.1, f e.1 e.2))
    (name : String) (value : α) :
    (t.insert name (f name value)).entries =
      (s.insert name value).entries.map fun e => (e.1, f e.1 e.2) := by
  have hnames : t.names = s.names := by
    rw [← t.map_fst_entries, ← s.map_fst_entries, h, List.map_map]
    rfl
  by_cases hmem : name ∈ s.names
  · rw [insert_of_mem hmem, insert_of_mem (hnames ▸ hmem), entries_update, entries_update, h,
      List.map_map, List.map_map]
    refine List.map_congr_left fun e _ => ?_
    simp only [Function.comp_apply]
    split
    · next hname => rw [hname]
    · rfl
  · rw [entries_insert_of_not_mem hmem, entries_insert_of_not_mem (hnames ▸ hmem), h,
      List.map_append, List.map_singleton]

theorem entries_insertAll_map (h : t.entries = s.entries.map fun e => (e.1, f e.1 e.2))
    (entries : List (String × α)) :
    (t.insertAll (entries.map fun e => (e.1, f e.1 e.2))).entries =
      (s.insertAll entries).entries.map fun e => (e.1, f e.1 e.2) := by
  induction entries generalizing s t with
  | nil => exact h
  | cons e rest ih => exact ih (entries_insert_map f h e.1 e.2)

theorem entries_ofList_map (entries : List (String × α)) :
    (ofList (entries.map fun e => (e.1, f e.1 e.2))).entries =
      (ofList entries).entries.map fun e => (e.1, f e.1 e.2) :=
  entries_insertAll_map (s := empty) (t := empty) f rfl entries

end map

end Table

end AtomicCss
