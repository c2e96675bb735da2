import AtomicCss.Proofs.Engine.Command

/-!
# What a declaration compiles to

The class map of a declaration can be told from the pipeline and the declaration alone: it is written
from the list `assigned` of keys and classes. An engine that compiles the declaration without failure
gives this map, whatever it has written, been told of or been refused before, and afterwards it knows
the listed classes besides those that it knew (`compile_history_free`).
-/

namespace AtomicCss.Engine

/-! ## The keys and classes of a declaration -/

/-- The keys and classes of entries in a state, absent values left out. -/
def assignedIn (state : Option Pseudo) (entries : List (String × Value)) :
    List (String × String) :=
  (entries.filter fun entry => !entry.2.isNull).map fun entry =>
    (entry.1 ++ suffix state, classId entry.1 entry.2)

/-- The keys and classes that a declaration compiles to, in the order of its entries after the
transforms. In place of a block stand those of its declaration, which is transformed in its turn. -/
def assigned (p : Pipeline) (d : Declaration) : List (String × String) :=
  (p.run d).entries.flatMap fun entry =>
    match block? entry.1 entry.2 with
    | some (state, b) => assignedIn (some state) (p.run b).entries
    | none => assignedIn none [entry]

theorem classesOf_eq_ofList (os : List Occurrence) :
    classesOf ClassMap.empty os = ClassMap.ofList (os.map fun o => (o.key, o.cls)) := by
  have h : ∀ m : ClassMap,
      (classesOf m os).table = m.table.insertAll (os.map fun o => (o.key, o.cls)) := by
    induction os with
    | nil => exact fun m => rfl
    | cons o rest ih => exact fun m => ih (m.insert o.key o.cls)
  exact ClassMap.ext_table (h ClassMap.empty)

section visits

variable {p : Pipeline} {d : Declaration}

theorem entered_visitInner {s : Pseudo} {entries : List (String × Value)}
    (h : ¬ Nests (entries.flatMap (visitInner s))) :
    (entered (entries.flatMap (visitInner s))).map (fun o => (o.key, o.cls)) =
      assignedIn (some s) entries := by
  induction entries with
  | nil => rfl
  | cons entry rest ih =>
    obtain ⟨name, value⟩ := entry
    rw [List.flatMap_cons] at h ⊢
    cases hn : value.isNull with
    | true =>
      have hv : visitInner s (name, value) = [] := by rw [visitInner, if_pos hn]
      rw [hv, List.nil_append] at h ⊢
      rw [ih h]
      simp [assignedIn, hn]
    | false =>
      cases hb : block? name value with
      | some found =>
        have hv : visitInner s (name, value) = [.nesting s found.1] := by
          simp [visitInner, hn, hb]
        rw [hv] at h
        exact absurd (nests_nesting s found.1 _) h
      | none =>
        have hv : visitInner s (name, value) = [.entry ⟨some s, name, value⟩] := by
          simp [visitInner, hn, hb]
        rw [hv, List.singleton_append] at h ⊢
        rw [entered, List.map_cons, ih (mt nests_entry.2 h)]
        simp [assignedIn, hn, Occurrence.key, Occurrence.cls]

theorem entered_visitOuter {entry : String × Value} (h : ¬ Nests (visitOuter p entry)) :
    (entered (visitOuter p entry)).map (fun o => (o.key, o.cls)) =
      match block? entry.1 entry.2 with
      | some (state, b) => assignedIn (some state) (p.run b).entries
      | none => assignedIn none [entry] := by
  obtain ⟨name, value⟩ := entry
  cases hn : value.isNull with
  | true =>
    have hb : block? name value = none := by
      cases value with
      | nested b => cases hn
      | _ => rfl
    simp [visitOuter, hn, hb, assignedIn, entered]
  | false =>
    cases hb : block? name value with
    | some found =>
      obtain ⟨s, b⟩ := found
      have hv : visitOuter p (name, value) = (p.run b).entries.flatMap (visitInner s) := by
        simp [visitOuter, hn, hb]
      rw [hv] at h ⊢
      exact entered_visitInner h
    | none => simp [visitOuter, hn, hb, assignedIn, entered, Occurrence.key, Occurrence.cls]

theorem entered_visits (h : ¬ Nests (visits p d)) :
    (entered (visits p d)).map (fun o => (o.key, o.cls)) = assigned p d := by
  unfold visits at h ⊢
  unfold assigned
  generalize (p.run d).entries = entries at h ⊢
  induction entries with
  | nil => rfl
  | cons entry rest ih =>
    rw [List.flatMap_cons] at h ⊢
    have hfirst : ¬ Nests (visitOuter p entry) := by
      rintro ⟨outer, inner, hmem⟩
      exact h ⟨outer, inner, List.mem_append_left _ hmem⟩
    have hrest : ¬ Nests (rest.flatMap (visitOuter p)) := by
      rintro ⟨outer, inner, hmem⟩
      exact h ⟨outer, inner, List.mem_append_right _ hmem⟩
    rw [entered_append hfirst, List.map_append, entered_visitOuter hfirst, ih hrest,
      List.flatMap_cons]

end visits

/-! ## What is known afterwards -/

theorem injected_of_inject_ok {s name : String} {value : Value} {e : Engine} {id : String}
    (h : (inject s name value e).result = .ok id) :
    (inject s name value e).engine.injected = e.injected.insert (classId name value) := by
  by_cases hk : classId name value ∈ e.injected
  · rw [inject_known hk, OrderedSet.insert_of_mem hk]
  · have ha := (inject_eq_ok_iff.1 h).2.resolve_left hk
    rw [(inject_taken hk ha).2]

theorem injected_of_walk_ok {vs : List Visit} {classes m : ClassMap} {e : Engine}
    (h : (walk vs classes e).result = .ok m) :
    (walk vs classes e).engine.injected =
      e.injected.insertAll ((entered vs).map Occurrence.cls) := by
  induction vs generalizing classes e with
  | nil => rfl
  | cons v rest ih =>
    cases v with
    | nesting outer inner => cases h
    | entry o =>
      cases hr : (inject (suffix o.state) o.name o.value e).result with
      | error failure =>
        rw [walk, Action.bind_apply_of_error hr] at h
        cases h
      | ok id =>
        rw [walk, Action.bind_apply_of_ok hr] at h ⊢
        exact (ih h).trans (congrArg (OrderedSet.insertAll · _) (injected_of_inject_ok hr))

/-- A declaration that compiles without failure leaves its classes known, in its own order behind
those known before. -/
theorem injected_of_compile_ok {d : Declaration} {e : Engine} {m : ClassMap}
    (hm : e.options.mode ≠ .noop) (h : (compile d e).result = .ok m) :
    (compile d e).engine.injected =
      e.injected.insertAll ((assigned e.options.pipeline d).map Prod.snd) := by
  rw [(compile_eq_walk hm).1] at h
  rw [(compile_eq_walk hm).2, injected_of_walk_ok h, ← entered_visits (walk_ok h).1, List.map_map]
  rfl

/-! ## Independence of the history -/

/-- Compilation does not depend on what the engine has done. In every state and on every sheet, a
declaration that compiles without failure compiles to the class map of its keys and classes, and the
classes known afterwards are those known before and those of the declaration. -/
theorem compile_history_free (e : Engine) (hm : e.options.mode ≠ .noop) (d : Declaration)
    (m : ClassMap) (hok : (compile d e).result = .ok m) :
    m = ClassMap.ofList (assigned e.options.pipeline d) ∧
      ∀ id, id ∈ (compile d e).engine.injected ↔
        id ∈ e.injected ∨ id ∈ (assigned e.options.pipeline d).map Prod.snd := by
  rw [(compile_eq_walk hm).1] at hok
  obtain ⟨hflat, hmap⟩ := walk_ok hok
  have hmet := entered_visits hflat
  refine ⟨?_, fun id => ?_⟩
  · rw [hmap, classesOf_eq_ofList, hmet]
  · have hclasses : (assigned e.options.pipeline d).map Prod.snd =
        (entered (visits e.options.pipeline d)).map Occurrence.cls := by
      rw [← hmet, List.map_map]
      rfl
    rw [(compile_eq_walk hm).2, injected_of_walk_ok hok, OrderedSet.mem_insertAll, hclasses]

/-- A property by itself, absent, and in two blocks, one of which stands under another name. -/
def mixed : Declaration :=
  Table.ofList [("color", .text "red"), ("margin", .null),
    (":hover", .nested (Table.ofList [("color", .text "red"), ("width", .text "1px")])),
    ("color:hover", .text "blue"), (":unknown", .nested (Table.ofList [("color", .text "red")]))]

/-- An engine on a host's sheet that has compiled, been seeded and been refused. -/
def usedEngine : Engine :=
  (new Options.standard (.host (.ofVerdict fun rule =>
      if rule = "@import url(a);" then some (.unavailable "closed") else none))).afterAll
    [.compile (Table.ofList [("color", .text "red")]), .seed ["cx"],
      .injectGlobal "@import url(a);"]

theorem compile_mixed : ∃ m, (compile mixed usedEngine).result = .ok m := by
  apply Action.exists_of_isOk
  decide

theorem mixed_history_free :
    ∃ m, (compile mixed usedEngine).result = .ok m ∧
      m = ClassMap.ofList (assigned Pipeline.empty mixed) := by
  obtain ⟨m, hok⟩ := compile_mixed
  exact ⟨m, hok, (compile_history_free usedEngine (by decide) mixed m hok).1⟩

end AtomicCss.Engine
