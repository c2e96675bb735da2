import AtomicCss.Proofs.Engine.Resuming

/-!
# Named declarations

Named declarations are compiled one behind the other on one engine. On a sheet that takes every rule
each of them compiles to the map of its own keys and classes, whatever stands before it, and the
classes of all of them are known at the end (`compileAll_takesAll`). The list fails if one of them
fails by itself (`compileAll_rejects_nesting`). Neither depends on the order of the list
(`namespaces_stand_apart`).
-/

namespace AtomicCss.Engine

/-- The class maps of named declarations, each by itself. -/
def classMaps (p : Pipeline) (namespaces : List (String × Declaration)) :
    List (String × ClassMap) :=
  namespaces.map fun n => (n.1, ClassMap.ofList (assigned p n.2))

/-- The classes of named declarations, one declaration behind the other. -/
def classList (p : Pipeline) (namespaces : List (String × Declaration)) : List String :=
  namespaces.flatMap fun n => (assigned p n.2).map Prod.snd

variable {e : Engine} {namespaces : List (String × Declaration)}

/-! ## The whole list -/

theorem compileAll_takesAll (hm : e.options.mode ≠ .noop) (hs : e.sheet.TakesAll)
    (hflat : ∀ n ∈ namespaces, Flat e.options.pipeline n.2) :
    (compileAll namespaces e).result = .ok (classMaps e.options.pipeline namespaces) ∧
      (compileAll namespaces e).engine.injected =
        e.injected.insertAll (classList e.options.pipeline namespaces) := by
  -- The first compilation changes the sheet and what is known, but keeps the options and a sheet that
  -- takes every rule.
  induction namespaces generalizing e with
  | nil => exact ⟨rfl, rfl⟩
  | cons n rest ih =>
    obtain ⟨hfirst, hrest⟩ := List.forall_mem_cons.1 hflat
    have hr := compile_takesAll hs hm hfirst
    have hinjected := injected_of_compile_ok hm hr
    have hoptions := compile_options n.2 e
    obtain ⟨hothers, hknown⟩ := ih (e := (compile n.2 e).engine) (by rwa [hoptions])
      (compile_sheet_takesAll hm hs n.2) (by rwa [hoptions])
    rw [hoptions] at hothers hknown
    rw [compileAll, Action.bind_apply_of_ok hr, Action.bind_apply_of_ok hothers]
    refine ⟨rfl, ?_⟩
    show (compileAll rest (compile n.2 e).engine).engine.injected = _
    rw [hknown, hinjected]
    exact List.foldl_append.symm

theorem compileAll_rejects_nesting (hm : e.options.mode ≠ .noop) (hs : e.sheet.TakesAll)
    (hnests : ∃ n ∈ namespaces, ¬ Flat e.options.pipeline n.2) :
    ∃ n ∈ namespaces, ∃ outer inner, FirstNesting e.options.pipeline n.2 outer inner ∧
      (compileAll namespaces e).result = .error (.invalidNesting outer inner) := by
  induction namespaces generalizing e with
  | nil => simp at hnests
  | cons n rest ih =>
    cases hr : (compile n.2 e).result with
    | error failure =>
      obtain ⟨outer, inner, rfl, hfirst⟩ := (compile_error_iff hm hs n.2 failure).1 hr
      refine ⟨n, List.mem_cons_self, outer, inner, hfirst, ?_⟩
      rw [compileAll, Action.bind_apply_of_error hr]
    | ok m =>
      -- The first declaration is flat, so the block inside a block is further on.
      have hflat := (compile_ok_iff hm hs n.2).1 ⟨m, hr⟩
      have hoptions := compile_options n.2 e
      have hrest : ∃ n' ∈ rest, ¬ Flat (compile n.2 e).engine.options.pipeline n'.2 := by
        obtain ⟨n', hmem, hn'⟩ := hnests
        rcases List.mem_cons.1 hmem with rfl | hmem
        · exact absurd hflat hn'
        · exact ⟨n', hmem, by rwa [hoptions]⟩
      obtain ⟨n', hmem, outer, inner, hfirst, hfails⟩ := ih (by rwa [hoptions])
        (compile_sheet_takesAll hm hs n.2) hrest
      rw [hoptions] at hfirst
      refine ⟨n', List.mem_cons_of_mem n hmem, outer, inner, hfirst, ?_⟩
      rw [compileAll, Action.bind_apply_of_ok hr, Action.bind_apply_of_error hfails]

/-! ## The table of class maps -/

theorem create_takesAll (hm : e.options.mode ≠ .noop) (hs : e.sheet.TakesAll)
    (hflat : ∀ n ∈ namespaces, Flat e.options.pipeline n.2) :
    (create namespaces e).result =
        .ok (Table.ofList (classMaps e.options.pipeline namespaces)) ∧
      (create namespaces e).engine.injected =
        e.injected.insertAll (classList e.options.pipeline namespaces) := by
  obtain ⟨hr, hknown⟩ := compileAll_takesAll hm hs hflat
  rw [create, Action.bind_apply_of_ok hr]
  exact ⟨rfl, hknown⟩

theorem create_rejects_nesting (hm : e.options.mode ≠ .noop) (hs : e.sheet.TakesAll)
    (hnests : ∃ n ∈ namespaces, ¬ Flat e.options.pipeline n.2) :
    ∃ n ∈ namespaces, ∃ outer inner, FirstNesting e.options.pipeline n.2 outer inner ∧
      (create namespaces e).result = .error (.invalidNesting outer inner) := by
  obtain ⟨n, hmem, outer, inner, hfirst, hfails⟩ := compileAll_rejects_nesting hm hs hnests
  refine ⟨n, hmem, outer, inner, hfirst, ?_⟩
  rw [create, Action.bind_apply_of_error hfails]

theorem create_ok_iff (hm : e.options.mode ≠ .noop) (hs : e.sheet.TakesAll) :
    (∃ t, (create namespaces e).result = .ok t) ↔
      ∀ n ∈ namespaces, Flat e.options.pipeline n.2 := by
  constructor
  · rintro ⟨t, hok⟩
    by_contra h
    push Not at h
    obtain ⟨n, -, outer, inner, -, hfails⟩ := create_rejects_nesting hm hs h
    rw [hok] at hfails
    cases hfails
  · exact fun hflat => ⟨_, (create_takesAll hm hs hflat).1⟩

theorem names_classMaps (p : Pipeline) (namespaces : List (String × Declaration)) :
    (classMaps p namespaces).map Prod.fst = namespaces.map Prod.fst := by
  rw [classMaps, List.map_map]
  rfl

theorem get?_classMaps {p : Pipeline} (hnames : (namespaces.map Prod.fst).Nodup)
    {n : String × Declaration} (hn : n ∈ namespaces) :
    (Table.ofList (classMaps p namespaces)).get? n.1 = some (ClassMap.ofList (assigned p n.2)) := by
  have hdistinct : ((classMaps p namespaces).map Prod.fst).Nodup := by rwa [names_classMaps]
  rw [Table.get?_eq_some_iff, Table.entries_ofList_of_nodup hdistinct]
  exact List.mem_map_of_mem hn

/-! ## Reordered lists -/

/-- Named declarations do not influence each other. On an engine that writes rules to a synthetic
sheet, a list of declarations under distinct names compiles if and only if none of them holds a
block inside a block. Then it compiles in every order, to a table in that order; in all of them a
name holds the class map to which its declaration compiles by itself on a new engine, and the same
classes are known at the end. Otherwise it fails in every order, for such a block in one of its
declarations. -/
theorem namespaces_stand_apart (e : Engine) (hm : e.options.mode ≠ .noop)
    (hs : e.sheet.isSynthetic = true) (namespaces : List (String × Declaration))
    (hnames : (namespaces.map Prod.fst).Nodup) :
    let p := e.options.pipeline
    ((∃ t, (create namespaces e).result = .ok t) ↔ ∀ n ∈ namespaces, Flat p n.2) ∧
    (∀ t, (create namespaces e).result = .ok t → ∀ others, others.Perm namespaces →
      ∃ t', (create others e).result = .ok t' ∧ t'.names = others.map Prod.fst ∧
        (∀ n ∈ namespaces, ∃ m, t.get? n.1 = some m ∧ t'.get? n.1 = some m ∧
          (compile n.2 (synthetic e.options)).result = .ok m) ∧
        ∀ id, id ∈ (create others e).engine.injected ↔
          id ∈ (create namespaces e).engine.injected) ∧
    ((∃ n ∈ namespaces, ¬ Flat p n.2) → ∀ others, others.Perm namespaces →
      ∃ n ∈ namespaces, ∃ outer inner, FirstNesting p n.2 outer inner ∧
        (create others e).result = .error (.invalidNesting outer inner)) := by
  intro p
  have ht := takesAll_of_isSynthetic hs
  refine ⟨create_ok_iff hm ht, fun t hok others hperm => ?_, fun hnests others hperm => ?_⟩
  · have hflat := (create_ok_iff hm ht).1 ⟨t, hok⟩
    have hflat' : ∀ n ∈ others, Flat p n.2 := fun n hn => hflat n (hperm.mem_iff.1 hn)
    have hnames' : (others.map Prod.fst).Nodup := (hperm.map Prod.fst).nodup_iff.2 hnames
    obtain ⟨hr, hknown⟩ := create_takesAll hm ht hflat
    obtain ⟨hr', hknown'⟩ := create_takesAll hm ht hflat'
    obtain rfl : Table.ofList (classMaps p namespaces) = t := Except.ok.inj (hr.symm.trans hok)
    refine ⟨_, hr', ?_, fun n hn => ?_, fun id => ?_⟩
    · have hdistinct : ((classMaps p others).map Prod.fst).Nodup := by rwa [names_classMaps]
      rw [← Table.map_fst_entries, Table.entries_ofList_of_nodup hdistinct, names_classMaps]
    · exact ⟨_, get?_classMaps hnames hn, get?_classMaps hnames' (hperm.mem_iff.2 hn),
        compile_takesAll (e := synthetic e.options) trivial hm (hflat n hn)⟩
    · have hclasses : (classList p others).Perm (classList p namespaces) := hperm.flatMap_right _
      rw [hknown, hknown', OrderedSet.mem_insertAll, OrderedSet.mem_insertAll, hclasses.mem_iff]
  · obtain ⟨n, hn, hnot⟩ := hnests
    obtain ⟨n', hn', outer, inner, hfirst, hfails⟩ :=
      create_rejects_nesting hm ht ⟨n, hperm.mem_iff.2 hn, hnot⟩
    exact ⟨n', hperm.mem_iff.1 hn', outer, inner, hfirst, hfails⟩

/-- Three declarations with properties in common, two of them with a block. -/
def page : List (String × Declaration) :=
  [("link", mixed), ("base", .ofList [("margin", .text "2px"), ("color", .text "red")]),
    ("list", tame)]

/-- An engine that has compiled, failed and been seeded. -/
def busyEngine : Engine :=
  (synthetic Options.standard).afterAll
    [.compile (Table.ofList [("color", .text "red")]), .compile tangled, .seed ["cx"]]

theorem namespaces_stand_apart_page :
    busyEngine.options.mode ≠ .noop ∧ busyEngine.sheet.isSynthetic = true ∧
    (page.map Prod.fst).Nodup ∧
    (∃ t t', (create page busyEngine).result = .ok t ∧
      (create page.reverse busyEngine).result = .ok t' ∧ t'.names = ["list", "base", "link"] ∧
      ∃ m, t.get? "link" = some m ∧ t'.get? "link" = some m ∧
        (compile mixed (synthetic busyEngine.options)).result = .ok m) ∧
    (∃ n ∈ ("rest", tangled) :: page, ¬ Flat busyEngine.options.pipeline n.2) ∧
    ∃ failure, (create (page ++ [("rest", tangled)]) busyEngine).result = .error failure := by
  have hoptions : busyEngine.options = Options.standard := afterAll_options _ _
  have hmode : busyEngine.options.mode ≠ .noop := by
    rw [hoptions]
    decide
  have hsheet : busyEngine.sheet.isSynthetic = true := by decide
  have hnames : (page.map Prod.fst).Nodup := by decide
  have hnames' : ((("rest", tangled) :: page).map Prod.fst).Nodup := by decide
  have hnests : ∃ n ∈ ("rest", tangled) :: page, ¬ Flat busyEngine.options.pipeline n.2 := by
    refine ⟨_, List.mem_cons_self, ?_⟩
    rw [hoptions, ← firstNesting?_eq_none_iff]
    decide
  obtain ⟨t, hok⟩ : ∃ t, (create page busyEngine).result = .ok t := by
    apply Action.exists_of_isOk
    decide
  obtain ⟨-, hcompiles, -⟩ := namespaces_stand_apart busyEngine hmode hsheet page hnames
  obtain ⟨-, -, hfails⟩ :=
    namespaces_stand_apart busyEngine hmode hsheet (("rest", tangled) :: page) hnames'
  obtain ⟨t', hok', hlisted, hmaps, -⟩ := hcompiles t hok _ page.reverse_perm
  obtain ⟨-, -, outer, inner, -, hfailed⟩ :=
    hfails hnests _ (List.perm_append_singleton _ page)
  exact ⟨hmode, hsheet, hnames, ⟨t, t', hok, hok', hlisted, hmaps _ List.mem_cons_self⟩, hnests,
    _, hfailed⟩

end AtomicCss.Engine
