import AtomicCss.Proofs.Transform.NormalForm

/-!
# The entries after expansion

Families are expanded one after the other, each by an erasure and four writes. They do not get into
each other's way, so the whole is one erasure of all expanded shorthands and one writing of all their
longhands (`expandBoxShorthands_eq`). `entries_expandBoxShorthands` reads off the result entry by
entry: what goes, what stays in its place, with which value, and what is new at the end.
-/

namespace AtomicCss

namespace BoxFamily

/-! ## What the shorthands give -/

/-- The component that counts for a side: the first for the top, the second for the right, the third
for the bottom, the fourth for the left. A missing left is the right, what else is missing the top. -/
def component? (parts : List Value) : Side → Option Value
  | .top => parts[0]?
  | .right => parts[1]?.or parts[0]?
  | .bottom => parts[2]?.or parts[0]?
  | .left => parts[3]?.or (parts[1]?.or parts[0]?)

/-- What the family's shorthand gives to a side of the box: nothing unless the declaration has it with
a text or a finite number. -/
def given (f : BoxFamily) (d : Declaration) (side : Side) : Option Value :=
  (d.get? f.shorthand).bind fun v => component? (parts v) side

/-- The family's longhands with the values that the shorthand gives them. -/
def longhands (f : BoxFamily) (d : Declaration) : List (String × Value) :=
  Side.all.filterMap fun side => (f.given d side).map (f.longhand side, ·)

/-- The given longhands of all families, family by family. -/
def spread (d : Declaration) : List (String × Value) := all.flatMap (·.longhands d)

/-- The family's shorthand, if it is expanded. -/
def expanded (f : BoxFamily) (d : Declaration) : List String :=
  if (d.get? f.shorthand).any Value.isScalar then [f.shorthand] else []

theorem share_eq_component? (side : Side) (parts : List Value) :
    share side parts = component? parts side := by
  rcases parts with _ | ⟨a, _ | ⟨b, _ | ⟨c, _ | ⟨d, rest⟩⟩⟩⟩ <;> cases side <;> rfl

section given

variable {f g : BoxFamily} {d : Declaration} {side : Side}

theorem given_eq : f.given d side = ((d.get? f.shorthand).bind sides?).map (· side) := by
  rw [given, Option.map_bind]
  refine congrArg (Option.bind _) (funext fun v => ?_)
  rw [← share_eq_component?]
  exact (map_sides? v side).symm

theorem name_of_mem_longhands {e : String × Value} (h : e ∈ f.longhands d) :
    ∃ side, e.1 = f.longhand side ∧ f.given d side = some e.2 := by
  obtain ⟨side, -, hv⟩ := List.mem_filterMap.1 h
  obtain ⟨v, hgiven, rfl⟩ := Option.map_eq_some_iff.1 hv
  exact ⟨side, rfl, hgiven⟩

theorem longhand_mem_longhands {v : Value} (h : f.given d side = some v) :
    (f.longhand side, v) ∈ f.longhands d :=
  List.mem_filterMap.2 ⟨side, side.mem_all, by rw [h, Option.map_some]⟩

theorem shorthand_not_mem_longhands (hf : f ∈ all) (hg : g ∈ all) :
    g.shorthand ∉ (f.longhands d).map Prod.fst := by
  intro h
  obtain ⟨e, he, hname⟩ := List.mem_map.1 h
  obtain ⟨side, hside, -⟩ := name_of_mem_longhands he
  exact shorthand_ne_longhand hg hf side (hname.symm.trans hside)

theorem names_longhands_sublist (f : BoxFamily) (d : Declaration) (sides : List Side) :
    ((sides.filterMap fun side => (f.given d side).map (f.longhand side, ·)).map Prod.fst).Sublist
      (sides.map f.longhand) := by
  induction sides with
  | nil => exact .slnil
  | cons side rest ih =>
    rw [List.filterMap_cons]
    cases f.given d side with
    | none => exact ih.cons _
    | some v => exact ih.cons_cons _

theorem nodup_names_spread (d : Declaration) : ((spread d).map Prod.fst).Nodup := by
  have hall : (all.flatMap fun f => Side.all.map f.longhand).Nodup := by decide
  refine hall.sublist ?_
  rw [spread, List.map_flatMap]
  exact .flatMap_right _ fun f _ => names_longhands_sublist f d Side.all

theorem lookup_spread (hf : f ∈ all) : (spread d).lookup (f.longhand side) = f.given d side := by
  have hiff : ∀ v, (spread d).lookup (f.longhand side) = some v ↔ f.given d side = some v := by
    intro v
    rw [Table.lookup_eq_some_iff (nodup_names_spread d)]
    constructor
    · intro h
      obtain ⟨g, hg, hmem⟩ := List.mem_flatMap.1 h
      obtain ⟨t, hname, hv⟩ := name_of_mem_longhands hmem
      obtain ⟨rfl, rfl⟩ := longhand_inj hf hg hname
      exact hv
    · exact fun h => List.mem_flatMap.2 ⟨f, hf, longhand_mem_longhands h⟩
  exact Option.ext hiff

end given

/-! ## Many expansions as one -/

theorem expanded_of_settled {f : BoxFamily} {d : Declaration} (h : f.Settled d) :
    f.expanded d = [] := by
  refine if_neg fun hany => ?_
  obtain ⟨v, hv, hscalar⟩ := (Option.any_eq_true _ _).1 hany
  rw [settled_iff.1 h v hv] at hscalar
  cases hscalar

theorem expand_eq (f : BoxFamily) (d : Declaration) :
    f.expand d = ((f.expanded d).foldl Table.erase d).insertAll (f.longhands d) := by
  cases hvalue : (d.get? f.shorthand).bind sides? with
  | none =>
    have hnone : ∀ side, f.given d side = none := fun side => by
      rw [given_eq, hvalue, Option.map_none]
    have hlonghands : f.longhands d = [] :=
      List.filterMap_eq_nil_iff.2 fun side _ => by rw [hnone, Option.map_none]
    rw [Settled.expand hvalue, expanded_of_settled hvalue, hlonghands]
    rfl
  | some value =>
    have hsome : ∀ side, f.given d side = some (value side) := fun side => by
      rw [given_eq, hvalue, Option.map_some]
    have hlonghands : f.longhands d = Side.all.map fun side => (f.longhand side, value side) := by
      rw [longhands, ← List.filterMap_eq_map]
      exact List.filterMap_congr fun side _ => by rw [hsome]; rfl
    have hexpanded : f.expanded d = [f.shorthand] := by
      obtain ⟨v, hv, hsides⟩ := Option.bind_eq_some_iff.1 hvalue
      have hscalar : v.isScalar = true := by
        rw [← Bool.not_eq_false, ← sides?_eq_none_iff, hsides]
        simp
      rw [expanded, hv, Option.any_some, if_pos hscalar]
    rw [expand, hvalue, hexpanded, hlonghands]
    rfl

section expand

variable {f g : BoxFamily} (hf : f ∈ all) (hg : g ∈ all)

include hf hg

theorem expanded_expand_other (h : f ≠ g) (d : Declaration) :
    g.expanded (f.expand d) = g.expanded d := by
  rw [expanded, get?_shorthand_expand hf hg h, expanded]

theorem longhands_expand_other (h : f ≠ g) (d : Declaration) :
    g.longhands (f.expand d) = g.longhands d := by
  simp only [longhands, given, get?_shorthand_expand hf hg h]

end expand

theorem mem_expanded {f : BoxFamily} {d : Declaration} {name : String} :
    name ∈ f.expanded d ↔ name = f.shorthand ∧ (d.get? name).any Value.isScalar = true := by
  unfold expanded
  split
  · next h =>
    rw [List.mem_singleton]
    exact ⟨fun hname => ⟨hname, hname ▸ h⟩, And.left⟩
  · next h =>
    refine ⟨fun hname => absurd hname List.not_mem_nil, ?_⟩
    rintro ⟨rfl, hany⟩
    exact absurd hany h

theorem foldl_expand {fs : List BoxFamily} (hfs : ∀ f ∈ fs, f ∈ all) (hd : fs.Nodup)
    (d : Declaration) :
    fs.foldl (fun d f => f.expand d) d =
      ((fs.flatMap (·.expanded d)).foldl Table.erase d).insertAll (fs.flatMap (·.longhands d)) := by
  induction fs generalizing d with
  | nil => rfl
  | cons f rest ih =>
    obtain ⟨hf, hrest⟩ := List.forall_mem_cons.1 hfs
    obtain ⟨hnew, hnodup⟩ := List.nodup_cons.1 hd
    have hother : ∀ g ∈ rest, f ≠ g := fun g hg h => hnew (h ▸ hg)
    have hexpanded : rest.flatMap (·.expanded (f.expand d)) = rest.flatMap (·.expanded d) :=
      List.flatMap_congr fun g hg => expanded_expand_other hf (hrest g hg) (hother g hg) d
    have hlonghands : rest.flatMap (·.longhands (f.expand d)) = rest.flatMap (·.longhands d) :=
      List.flatMap_congr fun g hg => longhands_expand_other hf (hrest g hg) (hother g hg) d
    have hshorthands : ∀ name ∈ rest.flatMap (·.expanded d), name ∉ (f.longhands d).map Prod.fst := by
      intro name hname
      obtain ⟨g, hg, hmem⟩ := List.mem_flatMap.1 hname
      rw [(mem_expanded.1 hmem).1]
      exact shorthand_not_mem_longhands hf (hrest g hg)
    rw [List.foldl_cons, ih hrest hnodup, hexpanded, hlonghands, expand_eq,
      Table.foldl_erase_insertAll hshorthands, ← List.foldl_append, ← Table.insertAll_append]
    rfl

/-- All expanded shorthands are erased, and then all their longhands are written. -/
theorem expandBoxShorthands_eq (d : Declaration) :
    expandBoxShorthands d =
      ((all.flatMap (·.expanded d)).foldl Table.erase d).insertAll (spread d) :=
  foldl_expand (fun _ hf => hf) (by decide) d

/-! ## The entries -/

/-- What is erased are the shorthands with a text or a finite number. -/
theorem mem_expanded_iff {d : Declaration} {entry : String × Value} (h : entry ∈ d.entries) :
    entry.1 ∈ all.flatMap (·.expanded d) ↔ isShorthand entry.1 = true ∧ entry.2.isScalar = true := by
  have hvalue : d.get? entry.1 = some entry.2 := Table.get?_eq_some_iff.2 h
  simp only [List.mem_flatMap, mem_expanded, hvalue, Option.any_some, isShorthand, List.any_eq_true,
    decide_eq_true_eq]
  constructor
  · rintro ⟨f, hf, hname, hscalar⟩
    exact ⟨⟨f, hf, hname.symm⟩, hscalar⟩
  · rintro ⟨⟨f, hf, hname⟩, hscalar⟩
    exact ⟨f, hf, hname.symm, hscalar⟩

theorem contains_longhand {d : Declaration} {entry : String × Value} (h : entry ∈ spread d) :
    ((all.flatMap (·.expanded d)).foldl Table.erase d).contains entry.1 = d.contains entry.1 := by
  obtain ⟨f, hf, hmem⟩ := List.mem_flatMap.1 h
  obtain ⟨side, hname, -⟩ := name_of_mem_longhands hmem
  have hkept : entry.1 ∉ all.flatMap (·.expanded d) := by
    intro hgone
    obtain ⟨g, hg, hshorthand⟩ := List.mem_flatMap.1 hgone
    exact shorthand_ne_longhand hg hf side ((mem_expanded.1 hshorthand).1.symm.trans hname)
  rw [Bool.eq_iff_iff, Table.contains_iff, Table.contains_iff, Table.mem_names_foldl_erase]
  exact and_iff_left hkept

/-- Expansion entry by entry. The shorthands with a text or a finite number go. All other entries stay
in their order, a longhand with the value that its family's shorthand gives to its side, if there is
one, everything else as it is. Behind them come the given longhands that the declaration lacks,
families in their order and sides in theirs. -/
theorem entries_expandBoxShorthands (d : Declaration) :
    (expandBoxShorthands d).entries =
      ((d.entries.filter fun entry => !(isShorthand entry.1 && entry.2.isScalar)).map fun entry =>
        (entry.1, ((spread d).lookup entry.1).getD entry.2)) ++
      (spread d).filter (fun entry => !d.contains entry.1) ∧
    (∀ f ∈ all, ∀ side, (spread d).lookup (f.longhand side) = f.given d side) ∧
    ∀ name, (∀ f ∈ all, ∀ side, name ≠ f.longhand side) → (spread d).lookup name = none := by
  refine ⟨?_, fun f hf side => lookup_spread hf, fun name hname => ?_⟩
  · have hfilter : (d.entries.filter fun e => !(all.flatMap (·.expanded d)).contains e.1) =
        d.entries.filter fun entry => !(isShorthand entry.1 && entry.2.isScalar) := by
      refine List.filter_congr fun entry hentry => congrArg (!·) ?_
      rw [Bool.eq_iff_iff, List.contains_iff_mem, mem_expanded_iff hentry, Bool.and_eq_true]
    rw [expandBoxShorthands_eq, Table.entries_insertAll _ (nodup_names_spread d),
      Table.entries_foldl_erase, hfilter]
    exact congrArg (_ ++ ·) (List.filter_congr fun entry h => congrArg (!·) (contains_longhand h))
  · rw [List.lookup_eq_none_iff]
    intro entry hentry
    obtain ⟨f, hf, hmem⟩ := List.mem_flatMap.1 hentry
    obtain ⟨side, hlonghand, -⟩ := name_of_mem_longhands hmem
    simpa [hlonghand] using hname f hf side

/-- Shorthands that are expanded and shorthands that are not, with one longhand in front. -/
def crowded : Declaration :=
  Table.ofList [("marginLeft", .text "9px"), ("color", .text "red"), ("padding", .ofInt 3),
    ("margin", .text "1px calc(2px + 3px) 4px"), ("borderStyle", .null),
    ("borderWidth", .number .nan)]

theorem entries_expand_crowded :
    (∀ name, (∀ f ∈ all, ∀ side, name ≠ f.longhand side) → (spread crowded).lookup name = none) ∧
    (expandBoxShorthands crowded).entries.map (fun entry => (entry.1, entry.2.render)) =
      [("marginLeft", "calc(2px + 3px)"), ("color", "red"), ("borderStyle", "null"),
        ("borderWidth", "NaN"), ("marginTop", "1px"), ("marginRight", "calc(2px + 3px)"),
        ("marginBottom", "4px"), ("paddingTop", "3"), ("paddingRight", "3"), ("paddingBottom", "3"),
        ("paddingLeft", "3")] := by
  obtain ⟨hentries, -, hnone⟩ := entries_expandBoxShorthands crowded
  refine ⟨hnone, ?_⟩
  rw [hentries]
  decide +kernel

end BoxFamily

end AtomicCss
