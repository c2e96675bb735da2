import AtomicCss.Proofs.Engine.Command

/-!
# Which declarations are rejected

Where the sheet takes every rule, a walk fails at the first block inside a block that it meets, and
only there (`walk_result`). So what a compilation comes to is decided by the declaration and the
pipeline alone, and the failure names the first block of the transformed declaration that holds one
and the first block in it (`compile_rejects_nesting`).
-/

namespace AtomicCss.Engine

/-! ## Blocks among entries -/

/-- No entry is a block. -/
def BlockFree (entries : List (String × Value)) : Prop :=
  ∀ s b, (Pseudo.key s, Value.nested b) ∉ entries

/-- The state of the first block. -/
def firstBlock? (entries : List (String × Value)) : Option Pseudo :=
  entries.findSome? fun entry => (block? entry.1 entry.2).map Prod.fst

theorem block?_eq_none_iff {entry : String × Value} :
    block? entry.1 entry.2 = none ↔ ∀ s b, entry ≠ (Pseudo.key s, .nested b) := by
  obtain ⟨name, value⟩ := entry
  rw [Option.eq_none_iff_forall_ne_some, Prod.forall]
  refine forall₂_congr fun s b => not_congr ?_
  rw [block?_eq_some_iff, Prod.mk.injEq]

theorem blockFree_iff {entries : List (String × Value)} :
    BlockFree entries ↔ ∀ entry ∈ entries, block? entry.1 entry.2 = none := by
  simp only [block?_eq_none_iff]
  constructor
  · rintro h entry hentry s b rfl
    exact h s b hentry
  · exact fun h s b hmem => h _ hmem s b rfl

theorem firstBlock?_eq_none_iff {entries : List (String × Value)} :
    firstBlock? entries = none ↔ BlockFree entries := by
  rw [firstBlock?, List.findSome?_eq_none_iff, blockFree_iff]
  simp only [Option.map_eq_none_iff]

theorem firstBlock?_eq_some_iff {entries : List (String × Value)} {s : Pseudo} :
    firstBlock? entries = some s ↔
      ∃ before b after, entries = before ++ (s.key, .nested b) :: after ∧ BlockFree before := by
  rw [firstBlock?, List.findSome?_eq_some_iff]
  simp only [Option.map_eq_none_iff, ← blockFree_iff]
  constructor
  · rintro ⟨before, ⟨name, value⟩, after, hentries, hblock, hbefore⟩
    obtain ⟨⟨s', b⟩, hb, rfl⟩ := Option.map_eq_some_iff.1 hblock
    obtain ⟨rfl, rfl⟩ := block?_eq_some_iff.1 hb
    exact ⟨before, b, after, hentries, hbefore⟩
  · rintro ⟨before, b, after, hentries, hbefore⟩
    refine ⟨before, _, after, hentries, ?_, hbefore⟩
    rw [block?_eq_some_iff.2 ⟨rfl, rfl⟩, Option.map_some]

/-! ## Blocks inside blocks -/

variable {p : Pipeline} {d : Declaration} {e : Engine}

/-- The block that an entry is and the first block in it, after the transforms. -/
def nesting? (p : Pipeline) (entry : String × Value) : Option (Pseudo × Pseudo) :=
  (block? entry.1 entry.2).bind fun found =>
    (firstBlock? (p.run found.2).entries).map (found.1, ·)

/-- The first block that holds a block, and the first block in it, after the transforms. -/
def firstNesting? (p : Pipeline) (d : Declaration) : Option (Pseudo × Pseudo) :=
  (p.run d).entries.findSome? (nesting? p)

/-- The block of `outer` is the first that holds a block, and that of `inner` the first in it. -/
def FirstNesting (p : Pipeline) (d : Declaration) (outer inner : Pseudo) : Prop :=
  ∃ before b after, (p.run d).entries = before ++ (outer.key, .nested b) :: after ∧
    (∀ s b', (Pseudo.key s, Value.nested b') ∈ before → BlockFree (p.run b').entries) ∧
    ∃ before' c after', (p.run b).entries = before' ++ (inner.key, .nested c) :: after' ∧
      BlockFree before'

theorem nesting?_eq_some_iff {entry : String × Value} {outer inner : Pseudo} :
    nesting? p entry = some (outer, inner) ↔
      ∃ b, entry = (outer.key, .nested b) ∧ firstBlock? (p.run b).entries = some inner := by
  obtain ⟨name, value⟩ := entry
  rw [nesting?, Option.bind_eq_some_iff]
  constructor
  · rintro ⟨⟨s, b⟩, hb, hinner⟩
    obtain ⟨t, ht, he⟩ := Option.map_eq_some_iff.1 hinner
    obtain ⟨rfl, rfl⟩ := Prod.mk.inj he
    obtain ⟨rfl, rfl⟩ := block?_eq_some_iff.1 hb
    exact ⟨b, rfl, ht⟩
  · rintro ⟨b, he, hinner⟩
    obtain ⟨rfl, rfl⟩ := Prod.mk.inj he
    refine ⟨(outer, b), block?_eq_some_iff.2 ⟨rfl, rfl⟩, ?_⟩
    exact Option.map_eq_some_iff.2 ⟨inner, hinner, rfl⟩

theorem nesting?_eq_none_iff {entry : String × Value} :
    nesting? p entry = none ↔
      ∀ s b, entry = (Pseudo.key s, .nested b) → BlockFree (p.run b).entries := by
  rw [Option.eq_none_iff_forall_ne_some]
  simp only [Prod.forall, ne_eq, nesting?_eq_some_iff, not_exists, not_and,
    ← firstBlock?_eq_none_iff, Option.eq_none_iff_forall_ne_some]
  exact ⟨fun h s b he t => h s t b he, fun h s t b he => h s b he t⟩

theorem firstNesting?_eq_some_iff {outer inner : Pseudo} :
    firstNesting? p d = some (outer, inner) ↔ FirstNesting p d outer inner := by
  rw [firstNesting?, List.findSome?_eq_some_iff]
  simp only [nesting?_eq_some_iff, nesting?_eq_none_iff, firstBlock?_eq_some_iff]
  constructor
  · rintro ⟨before, entry, after, hentries, ⟨b, rfl, hinner⟩, hbefore⟩
    exact ⟨before, b, after, hentries, fun s b' hb => hbefore _ hb s b' rfl, hinner⟩
  · rintro ⟨before, b, after, hentries, hbefore, hinner⟩
    exact ⟨before, _, after, hentries, ⟨b, rfl, hinner⟩,
      fun entry hentry s b' he => hbefore s b' (he ▸ hentry)⟩

theorem firstNesting?_eq_none_iff : firstNesting? p d = none ↔ Flat p d := by
  rw [firstNesting?, List.findSome?_eq_none_iff]
  simp only [nesting?_eq_none_iff]
  exact ⟨fun h s b hb => h _ hb s b rfl, fun h entry hentry s b he => h s b (he ▸ hentry)⟩

/-! ## The first failure of a walk -/

/-- The block inside a block that a visit is. -/
def Visit.nesting? : Visit → Option (Pseudo × Pseudo)
  | .entry _ => none
  | .nesting outer inner => some (outer, inner)

theorem findSome?_flatMap {α β γ : Type} (f : β → Option γ) (g : α → List β) (l : List α) :
    (l.flatMap g).findSome? f = l.findSome? fun x => (g x).findSome? f := by
  induction l with
  | nil => rfl
  | cons x rest ih =>
    rw [List.flatMap_cons, List.findSome?_append, ih, List.findSome?_cons]
    cases (g x).findSome? f <;> rfl

theorem findSome?_visitInner (outer : Pseudo) (entries : List (String × Value)) :
    (entries.flatMap (visitInner outer)).findSome? Visit.nesting? =
      (firstBlock? entries).map (outer, ·) := by
  have hentry : ∀ entry : String × Value, (visitInner outer entry).findSome? Visit.nesting? =
      ((block? entry.1 entry.2).map Prod.fst).map (outer, ·) := by
    rintro ⟨name, value⟩
    unfold visitInner
    cases value with
    | nested d => cases block? name (.nested d) <;> rfl
    | _ => split <;> rfl
  rw [findSome?_flatMap, firstBlock?, List.map_findSome?]
  simp only [hentry]
  rfl

theorem findSome?_visitOuter (entry : String × Value) :
    (visitOuter p entry).findSome? Visit.nesting? = nesting? p entry := by
  obtain ⟨name, value⟩ := entry
  unfold visitOuter nesting?
  cases value with
  | nested d =>
    cases block? name (.nested d) with
    | none => rfl
    | some found => exact findSome?_visitInner found.1 (p.run found.2).entries
  | _ => split <;> rfl

theorem findSome?_visits (p : Pipeline) (d : Declaration) :
    (visits p d).findSome? Visit.nesting? = firstNesting? p d := by
  rw [visits, findSome?_flatMap, firstNesting?]
  simp only [findSome?_visitOuter]

theorem inject_takesAll (hs : e.sheet.TakesAll) (o : Occurrence) :
    (inject (suffix o.state) o.name o.value e).result = .ok o.cls ∧
      (inject (suffix o.state) o.name o.value e).engine.sheet.TakesAll := by
  by_cases hk : o.cls ∈ e.injected
  · rw [inject_known hk]
    exact ⟨rfl, hs⟩
  · obtain ⟨hr, he⟩ := inject_taken (s := suffix o.state) hk (hs.answer _ 0)
    rw [he]
    exact ⟨hr, hs.insert _ 0⟩

/-- Where the sheet takes every rule, a walk fails at the first block inside a block. -/
theorem walk_result (hs : e.sheet.TakesAll) (vs : List Visit) (classes : ClassMap) :
    (walk vs classes e).result =
      match vs.findSome? Visit.nesting? with
      | some (outer, inner) => .error (.invalidNesting outer inner)
      | none => .ok (classesOf classes (entered vs)) := by
  induction vs generalizing classes e with
  | nil => rfl
  | cons v rest ih =>
    cases v with
    | nesting outer inner => rfl
    | entry o =>
      obtain ⟨hr, hs'⟩ := inject_takesAll hs o
      rw [walk, Action.bind_apply_of_ok hr]
      exact ih hs' _

theorem walk_sheet_takesAll (hs : e.sheet.TakesAll) (vs : List Visit) (classes : ClassMap) :
    (walk vs classes e).engine.sheet.TakesAll := by
  induction vs generalizing classes e with
  | nil => exact hs
  | cons v rest ih =>
    cases v with
    | nesting outer inner => exact hs
    | entry o =>
      obtain ⟨hr, hs'⟩ := inject_takesAll hs o
      rw [walk, Action.bind_apply_of_ok hr]
      exact ih hs' _

theorem compile_sheet_takesAll (hm : e.options.mode ≠ .noop) (hs : e.sheet.TakesAll)
    (d : Declaration) : (compile d e).engine.sheet.TakesAll :=
  (compile_eq_walk hm).2 ▸ walk_sheet_takesAll hs _ _

/-- What a compilation comes to where every rule is taken. -/
theorem compile_result (hm : e.options.mode ≠ .noop) (hs : e.sheet.TakesAll) (d : Declaration) :
    (compile d e).result =
      match firstNesting? e.options.pipeline d with
      | some (outer, inner) => .error (.invalidNesting outer inner)
      | none => .ok (classesOf ClassMap.empty (entered (visits e.options.pipeline d))) := by
  rw [(compile_eq_walk hm).1, walk_result hs, findSome?_visits]

/-- The entry does not matter for failures: it is under no key of a pseudo-selector, or it holds no
declaration. -/
def Harmless (entry : String × Value) : Prop :=
  Pseudo.ofKey? entry.1 = none ∨ entry.2.nested? = none

instance : DecidablePred Harmless := fun _ => inferInstanceAs (Decidable (_ ∨ _))

theorem Harmless.not_block {entry : String × Value} (h : Harmless entry) :
    block? entry.1 entry.2 = none := by
  rw [block?_eq_none_iff]
  rintro s b rfl
  rcases h with hkey | hvalue
  · rw [Pseudo.ofKey?_eq_some_iff.2 rfl] at hkey
    cases hkey
  · cases hvalue

theorem Harmless.nesting?_eq_none {entry : String × Value} (h : Harmless entry) :
    nesting? p entry = none := by
  rw [nesting?, h.not_block, Option.bind_none]

/-- Only the other entries decide whether compilation fails, and how. -/
theorem firstNesting?_eq_filter (p : Pipeline) (d : Declaration) :
    firstNesting? p d =
      ((p.run d).entries.filter fun entry => ¬ Harmless entry).findSome? (nesting? p) := by
  rw [firstNesting?]
  induction (p.run d).entries with
  | nil => rfl
  | cons entry rest ih =>
    by_cases h : Harmless entry
    · rw [List.findSome?_cons, h.nesting?_eq_none, List.filter_cons_of_neg (by simpa using h)]
      exact ih
    · rw [List.findSome?_cons, List.filter_cons_of_pos (by simpa using h), List.findSome?_cons, ih]

theorem blockFree_of_harmless {entries : List (String × Value)}
    (h : ∀ entry ∈ entries, Harmless entry) : BlockFree entries :=
  blockFree_iff.2 fun entry hentry => (h entry hentry).not_block

theorem compile_error_iff (hm : e.options.mode ≠ .noop) (hs : e.sheet.TakesAll) (d : Declaration)
    (failure : StyleFailure) :
    (compile d e).result = .error failure ↔
      ∃ outer inner, failure = .invalidNesting outer inner ∧
        FirstNesting e.options.pipeline d outer inner := by
  rw [compile_result hm hs]
  constructor
  · intro h
    split at h
    · next outer inner hfirst =>
      exact ⟨outer, inner, (Except.error.inj h).symm, firstNesting?_eq_some_iff.1 hfirst⟩
    · cases h
  · rintro ⟨outer, inner, rfl, hfirst⟩
    rw [firstNesting?_eq_some_iff.2 hfirst]

theorem compile_ok_iff (hm : e.options.mode ≠ .noop) (hs : e.sheet.TakesAll) (d : Declaration) :
    (∃ m, (compile d e).result = .ok m) ↔ Flat e.options.pipeline d := by
  rw [compile_result hm hs, ← firstNesting?_eq_none_iff]
  cases firstNesting? e.options.pipeline d with
  | none => simp
  | some found => simp

theorem compile_fails_iff (hm : e.options.mode ≠ .noop) (hs : e.sheet.TakesAll)
    (d : Declaration) :
    (∃ failure, (compile d e).result = .error failure) ↔ ¬ Flat e.options.pipeline d := by
  rw [compile_result hm hs, ← firstNesting?_eq_none_iff]
  cases firstNesting? e.options.pipeline d with
  | none => simp
  | some found => simp

theorem not_flat_iff :
    ¬ Flat p d ↔ ∃ outer b, (Pseudo.key outer, Value.nested b) ∈ (p.run d).entries ∧
      ∃ inner c, (Pseudo.key inner, Value.nested c) ∈ (p.run b).entries := by
  simp only [Flat, not_forall, not_not, exists_prop]

theorem takesAll_of_isSynthetic {s : Sheet} (h : s.isSynthetic = true) : s.TakesAll := by
  cases s with
  | synthetic rules => trivial
  | host sink => cases h

/-- Declarations are rejected for a block inside a block, and for nothing else. On any engine that
writes rules to a synthetic sheet, compilation fails if and only if some block of the transformed
declaration holds a block after its own transforms. The failure names the first block that holds one
and the first block in it, and what the engine remembers and has written makes no difference.
Entries that hold no declaration or are under no key of a pseudo-selector never lead to a failure,
by themselves or in a block, whatever they hold. -/
theorem compile_rejects_nesting (e : Engine) (hm : e.options.mode ≠ .noop)
    (hs : e.sheet.isSynthetic = true) (d : Declaration) :
    let p := e.options.pipeline
    ((∃ failure, (compile d e).result = .error failure) ↔
      ∃ outer b, (Pseudo.key outer, Value.nested b) ∈ (p.run d).entries ∧
        ∃ inner c, (Pseudo.key inner, Value.nested c) ∈ (p.run b).entries) ∧
    (∀ failure, (compile d e).result = .error failure ↔
      ∃ outer inner, failure = .invalidNesting outer inner ∧ FirstNesting p d outer inner) ∧
    (∀ f : Engine, f.options.pipeline = p → f.options.mode ≠ .noop → f.sheet.isSynthetic = true →
      (compile d f).result = (compile d e).result) ∧
    ((∀ outer b, (Pseudo.key outer, Value.nested b) ∈ (p.run d).entries →
        ∀ entry ∈ (p.run b).entries, Harmless entry) →
      ∃ m, (compile d e).result = .ok m) ∧
    ∀ d', ((p.run d').entries.filter fun entry => ¬ Harmless entry) =
        ((p.run d).entries.filter fun entry => ¬ Harmless entry) →
      ∀ failure, (compile d' e).result = .error failure ↔
        (compile d e).result = .error failure := by
  intro p
  have ht := takesAll_of_isSynthetic hs
  refine ⟨?_, compile_error_iff hm ht d, fun f hp hf hsheet => ?_, fun h => ?_, fun d' h => ?_⟩
  · rw [compile_fails_iff hm ht, not_flat_iff]
  · rw [compile_result hf (takesAll_of_isSynthetic hsheet), compile_result hm ht, hp]
  · exact (compile_ok_iff hm ht d).2 fun outer b hb => blockFree_of_harmless (h outer b hb)
  · intro failure
    have hfirst : firstNesting? e.options.pipeline d' = firstNesting? e.options.pipeline d := by
      rw [firstNesting?_eq_filter, firstNesting?_eq_filter, h]
    rw [compile_error_iff hm ht, compile_error_iff hm ht]
    simp only [← firstNesting?_eq_some_iff, hfirst]

/-- Every kind of entry that does no harm, with a block inside a block where it is not looked
for. -/
def harmless : List (String × Value) :=
  [("color", .text "red"), (":active", .text "x"), (":visited", .null),
    (":unknown", .nested (.ofList [(":hover", .nested (.ofList [(":link", .nested {})]))]))]

/-- Three blocks, with two blocks inside the second and one inside the third. -/
def blocks : List (String × Value) :=
  [(":first-child", .nested (.ofList harmless)),
    (":hover", .nested (.ofList (harmless ++ [(":focus", .nested {}), (":link", .nested {})]))),
    (":focus", .nested (.ofList [(":disabled", .nested {})]))]

def tangled : Declaration := .ofList (harmless ++ blocks)

theorem entries_tangled : tangled.entries = harmless ++ blocks :=
  Table.entries_ofList_of_nodup (by decide)

theorem harmless_of_mem {entry : String × Value} (h : entry ∈ harmless) : Harmless entry := by
  have hall : ∀ entry ∈ harmless, Harmless entry := by decide
  exact hall entry h

theorem filter_tangled :
    (tangled.entries.filter fun entry => ¬ Harmless entry) =
      blocks.filter fun entry => ¬ Harmless entry := by
  have hnone : (harmless.filter fun entry => ¬ Harmless entry) = [] :=
    List.filter_eq_nil_iff.2 fun entry hentry => by simpa using harmless_of_mem hentry
  rw [entries_tangled, List.filter_append, hnone, List.nil_append]

/-- A declaration with one block, in which there is no block. -/
def tame : Declaration := .ofList ((":hover", .nested (.ofList harmless)) :: harmless)

theorem harmless_of_block_tame {outer : Pseudo} {b : Declaration}
    (h : (Pseudo.key outer, Value.nested b) ∈ (Pipeline.empty.run tame).entries) :
    ∀ entry ∈ (Pipeline.empty.run b).entries, Harmless entry := by
  have hentries : tame.entries = (":hover", .nested (.ofList harmless)) :: harmless :=
    Table.entries_ofList_of_nodup (by decide)
  rw [Pipeline.run_empty, hentries] at h
  rcases List.mem_cons.1 h with he | hmem
  · obtain ⟨-, hb⟩ := Prod.mk.inj he
    obtain rfl := Value.nested.inj hb
    have hblock : (Table.ofList harmless).entries = harmless :=
      Table.entries_ofList_of_nodup (by decide)
    rw [Pipeline.run_empty, hblock]
    exact fun entry => harmless_of_mem
  · exact absurd hmem (blockFree_of_harmless (fun entry => harmless_of_mem) outer b)

theorem compile_rejects_nesting_tangled :
    let e := (synthetic Options.standard).after (.compile tangled)
    e.options.mode ≠ .noop ∧ e.sheet.isSynthetic = true ∧
    (compile tangled e).result = .error (.invalidNesting .hover .focus) ∧
    (compile tangled (synthetic Options.standard)).result = (compile tangled e).result ∧
    (∃ m, (compile tame e).result = .ok m) ∧
    (compile (.ofList blocks) e).result = .error (.invalidNesting .hover .focus) := by
  intro e
  have hoptions : e.options = Options.standard := after_options _ _
  have hmode : e.options.mode ≠ .noop := by
    rw [hoptions]
    decide
  have hsheet : e.sheet.isSynthetic = true := by decide
  have hfirst : firstNesting? Pipeline.empty tangled = some (.hover, .focus) := by decide
  obtain ⟨-, hfails, hsame, -, hothers⟩ := compile_rejects_nesting e hmode hsheet tangled
  obtain ⟨-, -, -, hcompiles, -⟩ := compile_rejects_nesting e hmode hsheet tame
  rw [hoptions] at hfails hsame hcompiles hothers
  have hblocks : (Table.ofList blocks).entries = blocks :=
    Table.entries_ofList_of_nodup (by decide)
  have htangled : (compile tangled e).result = .error (.invalidNesting .hover .focus) :=
    (hfails _).2 ⟨.hover, .focus, rfl, firstNesting?_eq_some_iff.1 hfirst⟩
  exact ⟨hmode, hsheet, htangled, hsame _ rfl (by decide) rfl,
    hcompiles fun outer b => harmless_of_block_tame, (hothers _ ((congrArg _ hblocks).trans filter_tangled.symm) _).2 htangled⟩

end AtomicCss.Engine
