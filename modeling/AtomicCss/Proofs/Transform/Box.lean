import AtomicCss.Transform

/-!
# What box shorthands say about the sides

An entry of a declaration assigns a value to the sides it names: a longhand to its own, a shorthand to
all four. Reading the entries in order, later ones override earlier ones (`reading`). The expansion
holds what is read if the shorthands are taken after all longhands (`get?_longhand_expandBoxShorthands`,
`reading_shorthandsLast`): a shorthand overrides the longhands of its family wherever it stands. This
is the reading in order as long as no longhand stands behind its shorthand (`reading_entries`).
-/

namespace AtomicCss

/-! ## Names of the families -/

theorem Side.mem_all (s : Side) : s ∈ Side.all := by cases s <;> decide

namespace BoxFamily

theorem shorthand_inj {f g : BoxFamily} (hf : f ∈ all) (hg : g ∈ all)
    (h : f.shorthand = g.shorthand) : f = g := by
  have hall : ∀ f ∈ all, ∀ g ∈ all, f.shorthand = g.shorthand → f = g := by decide
  exact hall f hf g hg h

theorem longhand_inj {f g : BoxFamily} (hf : f ∈ all) (hg : g ∈ all) {s t : Side}
    (h : f.longhand s = g.longhand t) : f = g ∧ s = t := by
  have hall : ∀ f ∈ all, ∀ g ∈ all, ∀ s ∈ Side.all, ∀ t ∈ Side.all,
      f.longhand s = g.longhand t → f = g ∧ s = t := by decide
  exact hall f hf g hg s s.mem_all t t.mem_all h

theorem shorthand_ne_longhand {f g : BoxFamily} (hf : f ∈ all) (hg : g ∈ all) (s : Side) :
    f.shorthand ≠ g.longhand s := by
  have hall : ∀ f ∈ all, ∀ g ∈ all, ∀ s ∈ Side.all, f.shorthand ≠ g.longhand s := by
    decide
  exact hall f hf g hg s s.mem_all

/-! ## The reading -/

/-- The components of a shorthand's value: a finite number is one. -/
def parts : Value → List Value
  | .number x => if x.isFinite then [.number x] else []
  | .text s => (Css.components s).map .text
  | _ => []

/-- What a side gets from one, two, three or more components. -/
def share : Side → List Value → Option Value
  | _, [] => none
  | _, [a] => some a
  | .top, [a, _] | .bottom, [a, _] => some a
  | .right, [_, b] | .left, [_, b] => some b
  | .top, [a, _, _] => some a
  | .right, [_, b, _] | .left, [_, b, _] => some b
  | .bottom, [_, _, c] => some c
  | .top, a :: _ :: _ :: _ :: _ => some a
  | .right, _ :: b :: _ :: _ :: _ => some b
  | .bottom, _ :: _ :: c :: _ :: _ => some c
  | .left, _ :: _ :: _ :: d :: _ => some d

/-- What an entry assigns to a side of the family. -/
def assigns (f : BoxFamily) (side : Side) (entry : String × Value) : Option Value :=
  if entry.1 = f.shorthand then share side (parts entry.2)
  else if entry.1 = f.longhand side then some entry.2
  else none

/-- What is finally assigned to a side of the family when entries are read in order. -/
def reading (f : BoxFamily) (side : Side) (entries : List (String × Value)) : Option Value :=
  entries.foldl (fun held entry => (f.assigns side entry).or held) none

def isShorthand (name : String) : Bool := all.any fun f => f.shorthand = name

/-- The entries with the shorthands of all families moved behind the others. -/
def shorthandsLast (entries : List (String × Value)) : List (String × Value) :=
  entries.filter (fun entry => !isShorthand entry.1) ++
    entries.filter fun entry => isShorthand entry.1

theorem map_sides? (v : Value) (side : Side) : (sides? v).map (· side) = share side (parts v) := by
  cases v with
  | number x => cases h : x.isFinite <;> cases side <;> simp [sides?, parts, share, Side.pick, h]
  | text s =>
    simp only [sides?, parts]
    rcases Css.components s with _ | ⟨a, _ | ⟨b, _ | ⟨c, _ | ⟨d, rest⟩⟩⟩⟩ <;> cases side <;> rfl
  | null => cases side <;> rfl
  | nested d => cases side <;> rfl

/-! ## Readings and look-ups -/

section reading

variable {f : BoxFamily} {side : Side} {entries : List (String × Value)}

theorem foldl_assigns (zs : List (String × Value)) (held : Option Value) :
    zs.foldl (fun held entry => (f.assigns side entry).or held) held =
      (f.reading side zs).or held := by
  induction zs generalizing held with
  | nil => rfl
  | cons z rest ih =>
    have hz : f.reading side (z :: rest) = (f.reading side rest).or (f.assigns side z) :=
      (ih _).trans (by simp)
    rw [List.foldl_cons, ih, hz, Option.or_assoc]

theorem reading_append (xs ys : List (String × Value)) :
    f.reading side (xs ++ ys) = (f.reading side ys).or (f.reading side xs) := by
  rw [reading, List.foldl_append, foldl_assigns]
  rfl

theorem reading_singleton (entry : String × Value) :
    f.reading side [entry] = f.assigns side entry := by simp [reading]

theorem reading_eq_lookup {name : String} {value? : Value → Option Value}
    (hd : (entries.map Prod.fst).Nodup)
    (h : ∀ entry ∈ entries, f.assigns side entry = if entry.1 = name then value? entry.2 else none) :
    f.reading side entries = (entries.lookup name).bind value? := by
  induction entries with
  | nil => rfl
  | cons entry rest ih =>
    obtain ⟨hnew, hrest⟩ := List.nodup_cons.1 hd
    rw [← List.singleton_append, reading_append, reading_singleton, h entry List.mem_cons_self,
      ih hrest fun e he => h e (List.mem_cons_of_mem entry he), List.singleton_append,
      List.lookup_cons]
    by_cases hn : entry.1 = name
    · have hnone : rest.lookup name = none := by
        rw [List.lookup_eq_none_iff]
        intro e he
        have hne : e.1 ≠ name := fun he' => hnew (hn ▸ he' ▸ List.mem_map_of_mem he)
        simpa using hne.symm
      simp [hn, hnone]
    · have hne : (name == entry.1) = false := by simpa using fun h => hn h.symm
      simp [hn, hne]

theorem lookup_filter (keep : String → Bool) (name : String) :
    (entries.filter fun entry => keep entry.1).lookup name =
      if keep name then entries.lookup name else none := by
  induction entries with
  | nil => simp
  | cons entry rest ih =>
    obtain ⟨other, value⟩ := entry
    by_cases hn : name = other
    · subst hn
      cases hk : keep name <;> simp [hk, ih]
    · have hne : (name == other) = false := by simpa using hn
      cases hk : keep other <;> simp [List.lookup_cons, hk, hne, ih]

theorem reading_longhands (hd : (entries.map Prod.fst).Nodup)
    (h : f.shorthand ∉ entries.map Prod.fst) :
    f.reading side entries = entries.lookup (f.longhand side) := by
  have hread : ∀ entry ∈ entries, f.assigns side entry =
      if entry.1 = f.longhand side then some entry.2 else none := by
    intro entry he
    have hne : entry.1 ≠ f.shorthand := fun hn => h (hn ▸ List.mem_map_of_mem he)
    rw [assigns, if_neg hne]
  rw [reading_eq_lookup hd hread, Option.bind_fun_some]

theorem reading_shorthands (hd : (entries.map Prod.fst).Nodup)
    (h : f.longhand side ∉ entries.map Prod.fst) :
    f.reading side entries =
      (entries.lookup f.shorthand).bind fun v => share side (parts v) := by
  refine reading_eq_lookup hd fun entry he => ?_
  have hne : entry.1 ≠ f.longhand side := fun hn => h (hn ▸ List.mem_map_of_mem he)
  rw [assigns, if_neg hne]

end reading

theorem isShorthand_shorthand {f : BoxFamily} (hf : f ∈ all) : isShorthand f.shorthand = true := by
  rw [isShorthand, List.any_eq_true]
  exact ⟨f, hf, decide_eq_true rfl⟩

theorem isShorthand_longhand {f : BoxFamily} (hf : f ∈ all) (side : Side) :
    isShorthand (f.longhand side) = false := by
  rw [isShorthand, List.any_eq_false]
  intro g hg
  simpa using shorthand_ne_longhand hg hf side

/-- What the family says of a side if its shorthand counts more than its longhands. -/
def held (f : BoxFamily) (side : Side) (d : Declaration) : Option Value :=
  ((d.get? f.shorthand).bind fun v => share side (parts v)).or (d.get? (f.longhand side))

theorem reading_shorthandsLast {f : BoxFamily} (hf : f ∈ all) (side : Side) (d : Declaration) :
    f.reading side (shorthandsLast d.entries) = f.held side d := by
  have hnodup : ∀ keep : String × Value → Bool,
      ((d.entries.filter keep).map Prod.fst).Nodup := fun keep =>
    (List.filter_sublist.map _).nodup d.nodup_entries
  have hfirst : f.shorthand ∉
      (d.entries.filter fun entry => !isShorthand entry.1).map Prod.fst := by
    intro hmem
    obtain ⟨entry, he, hn⟩ := List.mem_map.1 hmem
    have hk := (List.mem_filter.1 he).2
    rw [hn, isShorthand_shorthand hf] at hk
    cases hk
  have hlast : f.longhand side ∉
      (d.entries.filter fun entry => isShorthand entry.1).map Prod.fst := by
    intro hmem
    obtain ⟨entry, he, hn⟩ := List.mem_map.1 hmem
    have hk := (List.mem_filter.1 he).2
    rw [hn, isShorthand_longhand hf] at hk
    cases hk
  rw [shorthandsLast, reading_append, reading_shorthands (hnodup _) hlast,
    reading_longhands (hnodup _) hfirst, lookup_filter isShorthand,
    lookup_filter fun name => !isShorthand name, isShorthand_shorthand hf,
    isShorthand_longhand hf]
  rfl

/-- If the longhand does not stand behind the shorthand, the order of the entries makes no
difference. -/
theorem reading_entries {f : BoxFamily} (hf : f ∈ all) {side : Side} {d : Declaration}
    (hlast : ∀ before after v, d.entries = before ++ (f.shorthand, v) :: after →
      f.longhand side ∉ after.map Prod.fst) :
    f.reading side d.entries = f.held side d := by
  cases hs : d.get? f.shorthand with
  | none =>
    rw [held, hs, reading_longhands d.nodup_entries (Table.lookup_eq_none_iff.1 hs)]
    rfl
  | some v =>
    obtain ⟨before, after, hentries, -⟩ := List.lookup_eq_some_iff.1 hs
    have hafter := hlast before after v hentries
    have hnames : (before.map Prod.fst ++ f.shorthand :: after.map Prod.fst).Nodup := by
      have h := d.nodup_entries
      rwa [hentries, List.map_append, List.map_cons] at h
    obtain ⟨hbefore, hrest, hdisjoint⟩ := List.nodup_append.1 hnames
    obtain ⟨hnot, hnodup⟩ := List.nodup_cons.1 hrest
    have hnotBefore : f.shorthand ∉ before.map Prod.fst := fun h =>
      hdisjoint _ h _ List.mem_cons_self rfl
    have hreadAfter : f.reading side after = none := by
      rw [reading_longhands hnodup hnot, Table.lookup_eq_none_iff]
      exact hafter
    have hlonghand : d.get? (f.longhand side) = before.lookup (f.longhand side) := by
      have hnone : after.lookup (f.longhand side) = none := Table.lookup_eq_none_iff.2 hafter
      have hne : (f.longhand side == f.shorthand) = false := by
        simpa using (shorthand_ne_longhand hf hf side).symm
      rw [Table.get?, hentries, List.lookup_append, List.lookup_cons, hne, hnone, Option.or_none]
    rw [held, hs, hlonghand, hentries, reading_append, ← List.singleton_append, reading_append,
      reading_singleton, hreadAfter, reading_longhands hbefore hnotBefore, assigns, if_pos rfl]
    rfl

/-! ## The expansion -/

section expand

variable {f g : BoxFamily} (hf : f ∈ all) (hg : g ∈ all)

include hf hg

theorem get?_shorthand_expand (h : f ≠ g) (d : Declaration) :
    (f.expand d).get? g.shorthand = d.get? g.shorthand := by
  unfold expand
  cases (d.get? f.shorthand).bind sides? with
  | none => rfl
  | some value =>
    have hs : g.shorthand ≠ f.shorthand := fun hn => h (shorthand_inj hg hf hn).symm
    have hl := shorthand_ne_longhand hg hf
    simp [Table.insertAll, Side.all, Table.get?_insert, Table.get?_erase, hs, hl]

theorem get?_longhand_expand_other (h : f ≠ g) (side : Side) (d : Declaration) :
    (f.expand d).get? (g.longhand side) = d.get? (g.longhand side) := by
  unfold expand
  cases (d.get? f.shorthand).bind sides? with
  | none => rfl
  | some value =>
    have hs : g.longhand side ≠ f.shorthand := (shorthand_ne_longhand hf hg side).symm
    have hl : ∀ s, g.longhand side ≠ f.longhand s := fun s hn => h (longhand_inj hg hf hn).1.symm
    simp [Table.insertAll, Side.all, Table.get?_insert, Table.get?_erase, hs, hl]

omit hg in
theorem get?_longhand_expand_self (side : Side) (d : Declaration) :
    (f.expand d).get? (f.longhand side) = f.held side d := by
  have hmap : ((d.get? f.shorthand).bind fun v => share side (parts v)) =
      ((d.get? f.shorthand).bind sides?).map (· side) := by
    cases d.get? f.shorthand with
    | none => rfl
    | some v => exact (map_sides? v side).symm
  rw [held, hmap]
  unfold expand
  cases (d.get? f.shorthand).bind sides? with
  | none => rfl
  | some value =>
    have hl : ∀ s t, f.longhand s = f.longhand t ↔ s = t := fun s t =>
      ⟨fun hn => (longhand_inj hf hf hn).2, fun h => h ▸ rfl⟩
    cases side <;> simp [Table.insertAll, Side.all, Table.get?_insert, hl]

theorem held_expand_other (h : f ≠ g) (side : Side) (d : Declaration) :
    g.held side (f.expand d) = g.held side d := by
  rw [held, get?_shorthand_expand hf hg h, get?_longhand_expand_other hf hg h, held]

end expand

theorem get?_longhand_foldl_expand {g : BoxFamily} (hg : g ∈ all) {fs : List BoxFamily}
    (hfs : ∀ f ∈ fs, f ∈ all) (hd : fs.Nodup) (side : Side) (d : Declaration) :
    (fs.foldl (fun d f => f.expand d) d).get? (g.longhand side) =
      if g ∈ fs then g.held side d else d.get? (g.longhand side) := by
  induction fs generalizing d with
  | nil => simp
  | cons f rest ih =>
    obtain ⟨hnew, hnodup⟩ := List.nodup_cons.1 hd
    have hf := hfs f List.mem_cons_self
    rw [List.foldl_cons, ih (fun f' h' => hfs f' (List.mem_cons_of_mem f h')) hnodup]
    by_cases hfg : f = g
    · subst hfg
      rw [if_neg hnew, if_pos List.mem_cons_self, get?_longhand_expand_self hf]
    · have hmem : g ∈ f :: rest ↔ g ∈ rest := by simp [Ne.symm hfg]
      rw [held_expand_other hf hg hfg, get?_longhand_expand_other hf hg hfg]
      simp only [hmem]

/-- The expansion holds under every longhand what its family says of the side, the shorthand counting
more. -/
theorem get?_longhand_expandBoxShorthands {f : BoxFamily} (hf : f ∈ all) (side : Side)
    (d : Declaration) : (expandBoxShorthands d).get? (f.longhand side) = f.held side d := by
  rw [expandBoxShorthands, get?_longhand_foldl_expand hf (fun f hf => hf) (by decide) side d,
    if_pos hf]

/-- Expansion keeps what a declaration says of the sides. Under every longhand it holds what is
assigned to it when the entries are read in order with the shorthands behind all longhands, and
nothing where nothing is assigned. If the longhand does not stand behind its shorthand, that is what
is assigned when the entries are read as they stand. -/
theorem expand_holds_reading (d : Declaration) (f : BoxFamily) (hf : f ∈ all) (side : Side) :
    (expandBoxShorthands d).get? (f.longhand side) = f.reading side (shorthandsLast d.entries) ∧
      ((∀ before after v, d.entries = before ++ (f.shorthand, v) :: after →
          f.longhand side ∉ after.map Prod.fst) →
        (expandBoxShorthands d).get? (f.longhand side) = f.reading side d.entries) := by
  rw [get?_longhand_expandBoxShorthands hf]
  exact ⟨(reading_shorthandsLast hf side d).symm, fun h => (reading_entries hf h).symm⟩

/-- A longhand with its shorthand behind it. -/
def earlyLonghand : Declaration :=
  Table.ofList [("marginTop", .text "1px"), ("margin", .text "2px calc(1px + 2px)")]

theorem earlyLonghand_holds_reading :
    (expandBoxShorthands earlyLonghand).get? "marginTop" =
      reading ⟨"margin", "margin", ""⟩ .top earlyLonghand.entries := by
  refine (expand_holds_reading earlyLonghand ⟨"margin", "margin", ""⟩ (by decide) .top).2
    fun before after v h => ?_
  have hlength := congrArg List.length h
  have hafter : after = [] := by
    rcases before with _ | ⟨x, before⟩
    · have hname : "marginTop" = "margin" := congrArg Prod.fst (List.cons.inj h).1
      exact absurd hname (by decide)
    · have hsize : earlyLonghand.entries.length = 2 := by decide
      rw [hsize, List.length_append, List.length_cons, List.length_cons] at hlength
      exact List.eq_nil_of_length_eq_zero (by omega)
  simp [hafter]

/-- A shorthand with one of its longhands behind it. -/
def lateLonghand : Declaration :=
  Table.ofList [("margin", .text "2px"), ("marginTop", .text "1px")]

/-- The expansion does not always hold what is assigned when the entries are read as they stand. -/
theorem not_expand_holds_reading_in_order :
    ¬ ∀ d : Declaration,
      (∀ entry ∈ d.entries, ∀ f ∈ all,
        (entry.1 = f.shorthand ∨ ∃ side, entry.1 = f.longhand side) → entry.2.isScalar = true) →
      ∀ f ∈ all, ∀ side,
        (expandBoxShorthands d).get? (f.longhand side) = f.reading side d.entries := by
  intro h
  have hscalar : ∀ entry ∈ lateLonghand.entries, entry.2.isScalar = true := by decide
  have htop := h lateLonghand (fun entry he f _ _ => hscalar entry he)
    ⟨"margin", "margin", ""⟩ (by decide) .top
  have htext := congrArg (Option.map Value.render) htop
  revert htext
  decide

end BoxFamily

end AtomicCss
