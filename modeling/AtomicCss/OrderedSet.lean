/-!
# Ordered sets of texts

A set of texts in the order of their first insertion. A text that is present is not inserted again
(`insert_of_mem`), so what is in the set never moves (`prefix_insertAll`).
-/

namespace AtomicCss

/-- Distinct texts in the order of their first insertion. -/
structure OrderedSet where
  items : List String
  nodup : items.Nodup
deriving DecidableEq

namespace OrderedSet

def empty : OrderedSet := ⟨[], List.nodup_nil⟩

instance : EmptyCollection OrderedSet := ⟨empty⟩
instance : Inhabited OrderedSet := ⟨empty⟩
instance : Membership String OrderedSet := ⟨fun s x => x ∈ s.items⟩

instance (s : OrderedSet) (x : String) : Decidable (x ∈ s) :=
  inferInstanceAs (Decidable (x ∈ s.items))

theorem ext {s t : OrderedSet} (h : s.items = t.items) : s = t := by
  cases s
  cases t
  cases h
  rfl

theorem mem_def {s : OrderedSet} {x : String} : x ∈ s ↔ x ∈ s.items := Iff.rfl

def size (s : OrderedSet) : Nat := s.items.length

def isEmpty (s : OrderedSet) : Bool := s.items.isEmpty

def contains (s : OrderedSet) (x : String) : Bool := s.items.contains x

/-- Puts a text last unless it is present. -/
def insert (s : OrderedSet) (x : String) : OrderedSet :=
  if h : x ∈ s.items then s
  else ⟨s.items ++ [x], by
    rw [List.nodup_append]
    refine ⟨s.nodup, by simp, fun a ha b hb => ?_⟩
    rw [List.mem_singleton.1 hb]
    exact fun e => h (e ▸ ha)⟩

def insertAll (s : OrderedSet) (xs : List String) : OrderedSet := xs.foldl insert s

def ofList (xs : List String) : OrderedSet := empty.insertAll xs

/-- Whether two sets have the same items, whatever their order. -/
def sameItems (s t : OrderedSet) : Bool := s.size == t.size && s.items.all t.contains

theorem contains_iff {s : OrderedSet} {x : String} : s.contains x = true ↔ x ∈ s := by
  simp [contains, mem_def]

@[simp] theorem not_mem_empty (x : String) : x ∉ empty := by simp [mem_def, empty]

theorem insert_of_mem {s : OrderedSet} {x : String} (h : x ∈ s) : s.insert x = s := by
  simp [insert, mem_def.1 h]

theorem items_insert_of_not_mem {s : OrderedSet} {x : String} (h : x ∉ s) :
    (s.insert x).items = s.items ++ [x] := by
  simp [insert, mt mem_def.2 h]

@[simp] theorem mem_insert {s : OrderedSet} {x y : String} : y ∈ s.insert x ↔ y ∈ s ∨ y = x := by
  by_cases h : x ∈ s
  · rw [insert_of_mem h]
    exact ⟨Or.inl, fun h' => h'.elim id fun e => e ▸ h⟩
  · simp [mem_def, items_insert_of_not_mem h]

@[simp] theorem mem_insertAll {s : OrderedSet} {xs : List String} {y : String} :
    y ∈ s.insertAll xs ↔ y ∈ s ∨ y ∈ xs := by
  induction xs generalizing s with
  | nil => simp [insertAll]
  | cons x rest ih =>
    rw [show s.insertAll (x :: rest) = (s.insert x).insertAll rest from rfl, ih, mem_insert,
      List.mem_cons, or_assoc]

theorem prefix_insert (s : OrderedSet) (x : String) : s.items <+: (s.insert x).items := by
  by_cases h : x ∈ s
  · exact (insert_of_mem h).symm ▸ List.prefix_refl _
  · exact items_insert_of_not_mem h ▸ List.prefix_append _ _

theorem prefix_insertAll (s : OrderedSet) (xs : List String) :
    s.items <+: (s.insertAll xs).items := by
  induction xs generalizing s with
  | nil => exact List.prefix_refl _
  | cons x rest ih => exact (prefix_insert s x).trans (ih (s.insert x))

theorem items_insertAll_of_nodup {s : OrderedSet} {xs : List String}
    (h : (s.items ++ xs).Nodup) : (s.insertAll xs).items = s.items ++ xs := by
  induction xs generalizing s with
  | nil => rw [List.append_nil]; rfl
  | cons x rest ih =>
    have hx : x ∉ s := by
      intro hmem
      have hd := (List.nodup_append.1 h).2.2 x hmem x List.mem_cons_self
      exact hd rfl
    have hi := items_insert_of_not_mem hx
    have hstep : ((s.insert x).items ++ rest).Nodup := by
      rwa [hi, List.append_assoc, List.singleton_append]
    show ((s.insert x).insertAll rest).items = _
    rw [ih hstep, hi, List.append_assoc, List.singleton_append]

theorem insertAll_of_forall_mem {s : OrderedSet} {xs : List String} (h : ∀ x ∈ xs, x ∈ s) :
    s.insertAll xs = s := by
  induction xs with
  | nil => rfl
  | cons x rest ih =>
    show (s.insert x).insertAll rest = s
    rw [insert_of_mem (h x List.mem_cons_self)]
    exact ih fun y hy => h y (List.mem_cons_of_mem x hy)

/-! ## The set of a list -/

theorem ofList_append (xs ys : List String) : ofList (xs ++ ys) = (ofList xs).insertAll ys :=
  List.foldl_append

/-- Inserting a set is inserting the texts it was made of, one by one. -/
theorem insertAll_items_insertAll (s t : OrderedSet) (xs : List String) :
    s.insertAll (t.insertAll xs).items = (s.insertAll t.items).insertAll xs := by
  induction xs generalizing t with
  | nil => rfl
  | cons x rest ih =>
    have hstep : s.insertAll (t.insert x).items = (s.insertAll t.items).insert x := by
      by_cases hmem : x ∈ t
      · rw [insert_of_mem hmem, insert_of_mem (mem_insertAll.2 (Or.inr (mem_def.1 hmem)))]
      · rw [items_insert_of_not_mem hmem]
        exact List.foldl_append
    show s.insertAll ((t.insert x).insertAll rest).items =
      ((s.insertAll t.items).insert x).insertAll rest
    rw [ih, hstep]

theorem items_insertAll (s : OrderedSet) (xs : List String) :
    (s.insertAll xs).items = s.items ++ (xs.removeAll s.items).eraseDups := by
  induction xs generalizing s with
  | nil => exact (List.append_nil _).symm
  | cons x rest ih =>
    show ((s.insert x).insertAll rest).items = _
    by_cases h : x ∈ s
    · have hin : s.items.contains x = true := contains_iff.2 h
      rw [insert_of_mem h, ih s, List.cons_removeAll, if_neg (by simpa using hin)]
    · have hout : s.items.contains x = false := by simpa using mt mem_def.2 h
      rw [ih, items_insert_of_not_mem h, List.cons_removeAll, if_pos (by simpa using hout),
        List.eraseDups_cons, List.append_assoc, List.singleton_append]
      simp only [List.removeAll, List.filter_filter]
      congr 3
      refine List.filter_congr fun y _ => ?_
      by_cases hy : y = x <;> simp [hy]

theorem items_ofList (xs : List String) : (ofList xs).items = xs.eraseDups := by
  have hall : xs.removeAll [] = xs := List.filter_eq_self.2 fun _ _ => rfl
  rw [ofList, items_insertAll]
  exact congrArg List.eraseDups hall

theorem ofList_items (s : OrderedSet) : ofList s.items = s :=
  ext (items_insertAll_of_nodup s.nodup)

end OrderedSet

end AtomicCss
