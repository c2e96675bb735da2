import AtomicCss.ClassMap
import AtomicCss.Proofs.Table

/-!
# Composition of class maps

Composed maps are written into one table, entry by entry (`ClassMap.table_compose`), so what is
known of written tables is known of compositions: the keys stand in the order of their first map,
each with the class of its last map (`ClassMap.entries_compose`). A table that is written into
another acts as the entries it was made of (`Table.insertAll_ofList_entries`), and so parts of a
list can be composed first (`ClassMap.compose_flatten`).
-/

namespace AtomicCss

namespace ClassMap

def keys (m : ClassMap) : List String := m.entries.map Prod.fst

theorem keys_eq_names (m : ClassMap) : m.keys = m.table.names := m.table.map_fst_entries

/-! ## The composed table -/

theorem table_foldl_merge (maps : List ClassMap) (m : ClassMap) :
    (maps.foldl merge m).table = m.table.insertAll (maps.flatMap entries) := by
  induction maps generalizing m with
  | nil => rfl
  | cons n rest ih =>
    rw [List.foldl_cons, ih, List.flatMap_cons, Table.insertAll_append]
    rfl

theorem table_compose (maps : List (Option ClassMap)) :
    (compose maps).table = Table.ofList ((maps.filterMap id).flatMap entries) :=
  table_foldl_merge _ _

theorem keys_compose (maps : List (Option ClassMap)) :
    (compose maps).keys = ((maps.filterMap id).flatMap keys).eraseDups := by
  rw [keys_eq_names, table_compose, Table.names_ofList, List.map_flatMap]
  rfl

theorem lookup_reverse_flatMap_entries (maps : List ClassMap) (key : String) :
    (maps.flatMap entries).reverse.lookup key = maps.reverse.findSome? (·.get? key) := by
  induction maps with
  | nil => rfl
  | cons m rest ih =>
    rw [List.flatMap_cons, List.reverse_append, List.lookup_append, ih, List.reverse_cons,
      List.findSome?_append, List.findSome?_singleton]
    exact congrArg _ (Table.lookup_reverse_entries m.table key)

theorem get?_compose (maps : List (Option ClassMap)) (key : String) :
    (compose maps).get? key = (maps.filterMap id).reverse.findSome? (·.get? key) := by
  rw [get?, table_compose, Table.get?_ofList, lookup_reverse_flatMap_entries]

theorem entries_compose (maps : List (Option ClassMap)) :
    (compose maps).entries =
      ((maps.filterMap id).flatMap keys).eraseDups.filterMap fun key =>
        ((maps.filterMap id).reverse.findSome? (·.get? key)).map (key, ·) := by
  rw [← keys_compose, keys_eq_names]
  simp only [← get?_compose]
  exact Table.entries_eq_filterMap (compose maps).table

/-! ## Composing parts first -/

theorem compose_append (xs ys : List (Option ClassMap)) :
    compose (xs ++ ys) = compose [some (compose xs), some (compose ys)] := by
  refine ext_table ?_
  have hparts : (compose [some (compose xs), some (compose ys)]).table =
      (Table.ofList (compose xs).entries).insertAll (compose ys).entries :=
    rfl
  have hxs : Table.ofList (compose xs).entries = (compose xs).table :=
    Table.ofList_entries (compose xs).table
  have hys : (compose ys).entries = (Table.ofList ((ys.filterMap id).flatMap entries)).entries :=
    congrArg Table.entries (table_compose ys)
  rw [hparts, hxs, hys, Table.insertAll_ofList_entries, table_compose xs,
    table_compose, List.filterMap_append, List.flatMap_append]
  exact Table.insertAll_append _ _ _

theorem compose_singleton (m : ClassMap) : compose [some m] = m :=
  ext_table (Table.ofList_entries m.table)

/-- Any grouping of the list may be composed group by group. -/
theorem compose_flatten (groups : List (List (Option ClassMap))) :
    compose groups.flatten = compose (groups.map fun maps => some (compose maps)) := by
  induction groups with
  | nil => rfl
  | cons maps rest ih =>
    have hfirst := compose_append [some (compose maps)]
      (rest.map fun maps => some (compose maps))
    rw [compose_singleton, List.singleton_append] at hfirst
    rw [List.flatten_cons, compose_append, ih, List.map_cons, hfirst]

theorem compose_gap (xs ys : List (Option ClassMap)) :
    compose (xs ++ none :: ys) = compose (xs ++ ys) := by
  rw [compose, compose, List.filterMap_append, List.filterMap_append]
  rfl

theorem compose_empty (xs ys : List (Option ClassMap)) :
    compose (xs ++ some empty :: ys) = compose (xs ++ ys) := by
  refine ext_table ?_
  rw [table_compose, table_compose, List.filterMap_append, List.filterMap_append,
    List.flatMap_append, List.flatMap_append]
  rfl

theorem compose_replicate (m : ClassMap) (n : Nat) :
    compose (List.replicate (n + 1) (some m)) = m := by
  have hagain : m.merge m = m := ext_table (Table.insertAll_self m.table)
  induction n with
  | zero => exact compose_singleton m
  | succ n ih =>
    rw [List.replicate_succ, ← List.singleton_append, compose_append, compose_singleton, ih]
    exact (congrArg (merge · m) (compose_singleton m)).trans hagain

/-! ## Composition as a whole -/

/-- Composition overrides from left to right and keeps first places. Parts can be composed first,
absent and empty maps count for nothing, and a map composed with itself is that map. The keys stand
in the order of their first appearance, each holds what the last map with that key holds, and the
attribute value lists these classes in that order. -/
theorem composition_overrides_in_place :
    (∀ xs ys : List (Option ClassMap),
      compose (xs ++ ys) = compose [some (compose xs), some (compose ys)]) ∧
    (∀ groups : List (List (Option ClassMap)),
      compose groups.flatten = compose (groups.map fun maps => some (compose maps))) ∧
    (∀ xs ys : List (Option ClassMap), compose (xs ++ none :: ys) = compose (xs ++ ys) ∧
      compose (xs ++ some empty :: ys) = compose (xs ++ ys)) ∧
    (∀ (m : ClassMap) (n : Nat), compose (List.replicate (n + 1) (some m)) = m) ∧
    ∀ maps : List (Option ClassMap),
      (compose maps).keys = ((maps.filterMap id).flatMap keys).eraseDups ∧
      (∀ key, (compose maps).get? key = (maps.filterMap id).reverse.findSome? (·.get? key)) ∧
      (compose maps).entries =
        ((maps.filterMap id).flatMap keys).eraseDups.filterMap (fun key =>
          ((maps.filterMap id).reverse.findSome? (·.get? key)).map (key, ·)) ∧
      composedNames maps = " ".intercalate ((compose maps).entries.map Prod.snd) :=
  ⟨compose_append, compose_flatten, fun xs ys => ⟨compose_gap xs ys, compose_empty xs ys⟩,
    compose_replicate, fun maps =>
      ⟨keys_compose maps, get?_compose maps, entries_compose maps, rfl⟩⟩

/-- The margin keeps its first place and takes its last class. -/
example : composedNames
    [some (ofList [("margin", "a"), ("color", "b")]), none,
      some (ofList [("padding", "c"), ("margin", "d")])] = "d b c" := by
  decide

end ClassMap

end AtomicCss
