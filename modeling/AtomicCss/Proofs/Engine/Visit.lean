import AtomicCss.Proofs.Engine.Naming
import AtomicCss.Proofs.Engine.Writing

/-!
# Compilation as a walk

Compiling a declaration visits its entries, and those of its blocks, in one fixed order that depends
on the pipeline alone (`visits`). `compileClasses_eq_walk`: compilation is a walk over these visits,
one `inject` each, up to the first block inside a block. What a compilation does is then shown by
induction over a list.
-/

namespace AtomicCss.Engine

/-- An entry as compilation meets it: the state it holds in, its property and its value. -/
structure Occurrence where
  state : Option Pseudo
  name : String
  value : Value

namespace Occurrence

def key (o : Occurrence) : String := o.name ++ suffix o.state

def cls (o : Occurrence) : String := classId o.name o.value

def rule (o : Occurrence) : String := Rule.ofClass o.cls (suffix o.state) o.name o.value

theorem rule_inj {o o' : Occurrence} (h : o.rule = o'.rule) : o.cls = o'.cls ∧ o.state = o'.state :=
  Rule.ofClass_inj (fun _ => isAlphanum_of_mem_classId) (fun _ => isAlphanum_of_mem_classId) h

end Occurrence

/-- What compilation meets: an entry, or a block inside a block. -/
inductive Visit
  | entry (o : Occurrence)
  | nesting (outer inner : Pseudo)

/-- What an entry of a block is. -/
def visitInner (outer : Pseudo) (entry : String × Value) : List Visit :=
  if entry.2.isNull then []
  else
    match block? entry.1 entry.2 with
    | some (inner, _) => [.nesting outer inner]
    | none => [.entry ⟨some outer, entry.1, entry.2⟩]

/-- What an entry of a declaration is. A block is visited in its place, after the transforms. -/
def visitOuter (p : Pipeline) (entry : String × Value) : List Visit :=
  if entry.2.isNull then []
  else
    match block? entry.1 entry.2 with
    | some (state, d) => (p.run d).entries.flatMap (visitInner state)
    | none => [.entry ⟨none, entry.1, entry.2⟩]

/-- What compilation meets in a declaration, in order. -/
def visits (p : Pipeline) (d : Declaration) : List Visit :=
  (p.run d).entries.flatMap (visitOuter p)

/-- Goes over visits and gives the class map they fill. -/
def walk : List Visit → ClassMap → Action ClassMap
  | [], classes => pure classes
  | .entry o :: rest, classes => do
    let id ← inject (suffix o.state) o.name o.value
    walk rest (classes.insert o.key id)
  | .nesting outer inner :: _, _ => Action.fail (.invalidNesting outer inner)

/-- The entries that a walk meets when the sheet refuses nothing: those before the first block inside
a block. -/
def entered : List Visit → List Occurrence
  | [] => []
  | .entry o :: rest => o :: entered rest
  | .nesting _ _ :: _ => []

/-- Whether a block inside a block is met. -/
def Nests (vs : List Visit) : Prop := ∃ outer inner, Visit.nesting outer inner ∈ vs

/-- The class map that entries fill. -/
def classesOf (classes : ClassMap) (os : List Occurrence) : ClassMap :=
  os.foldl (fun m o => m.insert o.key o.cls) classes

theorem walk_append (vs ws : List Visit) (classes : ClassMap) :
    walk (vs ++ ws) classes = walk vs classes >>= walk ws := by
  induction vs generalizing classes with
  | nil => rfl
  | cons v rest ih =>
    cases v with
    | entry o =>
      simp only [List.cons_append, walk, ih, bind_assoc]
    | nesting outer inner =>
      funext e
      rfl

theorem walk_options (vs : List Visit) (classes : ClassMap) (e : Engine) :
    (walk vs classes e).engine.options = e.options := by
  induction vs generalizing classes e with
  | nil => rfl
  | cons v rest ih =>
    cases v with
    | nesting outer inner => rfl
    | entry o =>
      rw [walk, Action.bind_apply]
      have h := inject_options (suffix o.state) o.name o.value e
      cases hr : (inject (suffix o.state) o.name o.value e).result with
      | ok id => exact (ih _ _).trans h
      | error failure => exact h

/-! ## The class map of entries -/

theorem mem_entries_insert {m : ClassMap} {key cls : String} {entry : String × String}
    (h : entry ∈ (m.insert key cls).entries) : entry ∈ m.entries ∨ entry = (key, cls) := by
  change entry ∈ (m.table.insert key cls).entries at h
  by_cases hkey : key ∈ m.table.names
  · rw [Table.insert_of_mem hkey, Table.entries_update] at h
    obtain ⟨old, hold, he⟩ := List.mem_map.1 h
    split at he
    · next hk => exact .inr (by rw [← he, hk])
    · exact .inl (he ▸ hold)
  · rw [Table.entries_insert_of_not_mem hkey] at h
    exact (List.mem_append.1 h).imp id List.mem_singleton.1

theorem mem_classesOf {os : List Occurrence} {entry : String × String}
    (h : entry ∈ (classesOf ClassMap.empty os).entries) : ∃ o ∈ os, (o.key, o.cls) = entry := by
  induction os using List.reverseRecOn with
  | nil => cases h
  | append_singleton os x ih =>
    rw [classesOf, List.foldl_append] at h
    rcases mem_entries_insert h with h | h
    · obtain ⟨o, ho, he⟩ := ih h
      exact ⟨o, List.mem_append_left _ ho, he⟩
    · exact ⟨x, by simp, h.symm⟩

/-! ## Blocks inside blocks -/

@[simp] theorem not_nests_nil : ¬ Nests [] := by
  rintro ⟨outer, inner, h⟩
  cases h

@[simp] theorem nests_entry {o : Occurrence} {vs : List Visit} :
    Nests (.entry o :: vs) ↔ Nests vs := by
  simp [Nests]

@[simp] theorem nests_nesting (outer inner : Pseudo) (vs : List Visit) :
    Nests (.nesting outer inner :: vs) :=
  ⟨outer, inner, List.mem_cons_self⟩

theorem entered_append_of_nests {vs : List Visit} (h : Nests vs) (ws : List Visit) :
    entered (vs ++ ws) = entered vs := by
  induction vs with
  | nil => exact absurd h not_nests_nil
  | cons v rest ih =>
    cases v with
    | entry o => rw [List.cons_append, entered, entered, ih (nests_entry.1 h)]
    | nesting outer inner => rfl

theorem entered_append {vs : List Visit} (h : ¬ Nests vs) (ws : List Visit) :
    entered (vs ++ ws) = entered vs ++ entered ws := by
  induction vs with
  | nil => rfl
  | cons v rest ih =>
    cases v with
    | entry o => rw [List.cons_append, entered, entered, ih (mt nests_entry.2 h), List.cons_append]
    | nesting outer inner => exact absurd (nests_nesting outer inner rest) h

theorem mem_entered_of_mem {vs : List Visit} (h : ¬ Nests vs) {o : Occurrence}
    (ho : Visit.entry o ∈ vs) : o ∈ entered vs := by
  induction vs with
  | nil => cases ho
  | cons v rest ih =>
    cases v with
    | entry x =>
      rw [entered]
      rcases List.mem_cons.1 ho with he | ho
      · cases he
        exact List.mem_cons_self
      · exact List.mem_cons_of_mem x (ih (mt nests_entry.2 h) ho)
    | nesting outer inner => exact absurd (nests_nesting outer inner rest) h

theorem mem_of_mem_entered {vs : List Visit} {o : Occurrence} (h : o ∈ entered vs) :
    Visit.entry o ∈ vs := by
  induction vs with
  | nil => cases h
  | cons v rest ih =>
    cases v with
    | entry x =>
      rw [entered] at h
      rcases List.mem_cons.1 h with rfl | h
      · exact List.mem_cons_self
      · exact List.mem_cons_of_mem _ (ih h)
    | nesting outer inner => cases h

theorem entered_entries (os : List Occurrence) : entered (os.map .entry) = os := by
  induction os with
  | nil => rfl
  | cons o rest ih => rw [List.map_cons, entered, ih]

theorem not_nests_entries (os : List Occurrence) : ¬ Nests (os.map .entry) := by
  induction os with
  | nil => exact not_nests_nil
  | cons o rest ih => exact mt nests_entry.1 ih

theorem walk_ok {vs : List Visit} {classes m : ClassMap} {e : Engine}
    (h : (walk vs classes e).result = .ok m) : ¬ Nests vs ∧ m = classesOf classes (entered vs) := by
  induction vs generalizing classes e with
  | nil => exact ⟨not_nests_nil, (Except.ok.inj h).symm⟩
  | cons v rest ih =>
    cases v with
    | nesting outer inner => cases h
    | entry o =>
      rw [walk, Action.bind_apply] at h
      cases hr : (inject (suffix o.state) o.name o.value e).result with
      | error failure =>
        rw [hr] at h
        cases h
      | ok id =>
        rw [hr] at h
        obtain ⟨hn, hm⟩ := ih h
        rw [inject_ok hr] at hm
        exact ⟨mt nests_entry.1 hn, hm⟩

/-! ## What a declaration holds -/

theorem block?_eq_some_iff {name : String} {value : Value} {s : Pseudo} {b : Declaration} :
    block? name value = some (s, b) ↔ name = s.key ∧ value = .nested b := by
  cases value with
  | nested d =>
    rw [block?, Option.map_eq_some_iff]
    constructor
    · rintro ⟨q, hq, h⟩
      cases h
      exact ⟨Pseudo.ofKey?_eq_some_iff.1 hq, rfl⟩
    · rintro ⟨hk, h⟩
      cases h
      exact ⟨s, Pseudo.ofKey?_eq_some_iff.2 hk, rfl⟩
  | null => simp [block?]
  | number x => simp [block?]
  | text t => simp [block?]

/-- The declaration holds the entry after its transforms: by itself, or in a block, which is
transformed in its turn. -/
def Occurs (p : Pipeline) (d : Declaration) (o : Occurrence) : Prop :=
  o.value.isNull = false ∧
    match o.state with
    | none => (o.name, o.value) ∈ (p.run d).entries ∧ block? o.name o.value = none
    | some s =>
      ∃ b, (s.key, Value.nested b) ∈ (p.run d).entries ∧ (o.name, o.value) ∈ (p.run b).entries

theorem entry_mem_visitInner {s : Pseudo} {entry : String × Value} {o : Occurrence} :
    Visit.entry o ∈ visitInner s entry ↔
      entry.2.isNull = false ∧ block? entry.1 entry.2 = none ∧ o = ⟨some s, entry.1, entry.2⟩ := by
  unfold visitInner
  cases entry.2.isNull <;> cases block? entry.1 entry.2 <;> simp

theorem nesting_mem_visitInner {s outer inner : Pseudo} {entry : String × Value} :
    Visit.nesting outer inner ∈ visitInner s entry ↔
      outer = s ∧ ∃ c, entry = (inner.key, .nested c) := by
  obtain ⟨name, value⟩ := entry
  have hblock : (∃ c, block? name value = some (inner, c)) ↔
      ∃ c, (name, value) = (inner.key, Value.nested c) := by
    simp only [block?_eq_some_iff, Prod.mk.injEq]
  rw [← hblock]
  unfold visitInner
  cases value with
  | nested d => cases block? name (.nested d) <;> simp [Value.isNull, eq_comm, Prod.ext_iff]
  | _ => simp [block?]

theorem mem_visitOuter {p : Pipeline} {entry : String × Value} {v : Visit} :
    v ∈ visitOuter p entry ↔
      (entry.2.isNull = false ∧ block? entry.1 entry.2 = none ∧
        v = .entry ⟨none, entry.1, entry.2⟩) ∨
      ∃ s b, entry = (Pseudo.key s, .nested b) ∧ ∃ x ∈ (p.run b).entries, v ∈ visitInner s x := by
  obtain ⟨name, value⟩ := entry
  have hblock : ∀ s b, (name, value) = (Pseudo.key s, Value.nested b) ↔
      block? name value = some (s, b) := by
    simp only [block?_eq_some_iff, Prod.mk.injEq, implies_true]
  simp only [hblock]
  unfold visitOuter
  cases hn : value.isNull with
  | true =>
    cases value with
    | nested d => cases hn
    | _ => simp [block?]
  | false =>
    cases block? name value with
    | none => simp
    | some found => simp [Prod.ext_iff]

theorem mem_visits {p : Pipeline} {d : Declaration} {v : Visit} :
    v ∈ visits p d ↔
      (∃ entry ∈ (p.run d).entries, entry.2.isNull = false ∧ block? entry.1 entry.2 = none ∧
        v = .entry ⟨none, entry.1, entry.2⟩) ∨
      ∃ s b, (Pseudo.key s, Value.nested b) ∈ (p.run d).entries ∧
        ∃ entry ∈ (p.run b).entries, v ∈ visitInner s entry := by
  constructor
  · intro h
    obtain ⟨entry, hmem, ho⟩ := List.mem_flatMap.1 h
    rcases mem_visitOuter.1 ho with hv | ⟨s, b, rfl, hv⟩
    · exact .inl ⟨entry, hmem, hv⟩
    · exact .inr ⟨s, b, hmem, hv⟩
  · rintro (⟨entry, hmem, hv⟩ | ⟨s, b, hmem, hv⟩)
    · exact List.mem_flatMap.2 ⟨entry, hmem, mem_visitOuter.2 (.inl hv)⟩
    · exact List.mem_flatMap.2 ⟨_, hmem, mem_visitOuter.2 (.inr ⟨s, b, rfl, hv⟩)⟩

theorem occurs_of_mem_visits {p : Pipeline} {d : Declaration} {o : Occurrence}
    (h : Visit.entry o ∈ visits p d) : Occurs p d o := by
  rcases mem_visits.1 h with ⟨entry, hmem, hnull, hb, he⟩ | ⟨s, b, hb, entry, hmem, hi⟩
  · cases he
    exact ⟨hnull, hmem, hb⟩
  · obtain ⟨hnull, -, rfl⟩ := entry_mem_visitInner.1 hi
    exact ⟨hnull, b, hb, hmem⟩

/-- All that the declaration holds is met, unless a block stands inside a block. -/
theorem mem_visits_of_occurs {p : Pipeline} {d : Declaration} {o : Occurrence}
    (hn : ¬ Nests (visits p d)) (h : Occurs p d o) : Visit.entry o ∈ visits p d := by
  obtain ⟨state, name, value⟩ := o
  obtain ⟨hnull, hstate⟩ := h
  cases state with
  | none => exact mem_visits.2 (.inl ⟨(name, value), hstate.1, hnull, hstate.2, rfl⟩)
  | some s =>
    obtain ⟨b, hb, hmem⟩ := hstate
    have hin : ∀ v ∈ visitInner s (name, value), v ∈ visits p d :=
      fun v hv => mem_visits.2 (.inr ⟨s, b, hb, _, hmem, hv⟩)
    cases hblock : block? name value with
    | none => exact hin _ (entry_mem_visitInner.2 ⟨hnull, hblock, rfl⟩)
    | some found =>
      obtain ⟨inner, c⟩ := found
      obtain ⟨rfl, rfl⟩ := block?_eq_some_iff.1 hblock
      exact absurd ⟨s, inner, hin _ (nesting_mem_visitInner.2 ⟨rfl, c, rfl⟩)⟩ hn

/-- After the transforms no block of the declaration holds a block. -/
def Flat (p : Pipeline) (d : Declaration) : Prop :=
  ∀ outer b, (Pseudo.key outer, Value.nested b) ∈ (p.run d).entries →
    ∀ inner c, (Pseudo.key inner, Value.nested c) ∉ (p.run b).entries

/-- Compilation meets a block inside a block exactly if the declaration holds one. -/
theorem not_nests_visits_iff {p : Pipeline} {d : Declaration} :
    ¬ Nests (visits p d) ↔ Flat p d := by
  constructor
  · intro h outer b hb inner c hc
    have hi : Visit.nesting outer inner ∈ visitInner outer (inner.key, .nested c) :=
      nesting_mem_visitInner.2 ⟨rfl, c, rfl⟩
    exact h ⟨outer, inner, mem_visits.2 (.inr ⟨outer, b, hb, _, hc, hi⟩)⟩
  · rintro hflat ⟨outer, inner, h⟩
    rcases mem_visits.1 h with ⟨entry, -, -, -, he⟩ | ⟨s, b, hb, entry, hmem, hi⟩
    · cases he
    · obtain ⟨rfl, c, rfl⟩ := nesting_mem_visitInner.1 hi
      exact hflat _ b hb inner c hmem

/-! ## Compilation -/

theorem compileEntries_eq_walk {block : Pseudo → Declaration → ClassMap → Action ClassMap}
    {state : Option Pseudo} {visit : String × Value → List Visit} {options : Options}
    (hnull : ∀ entry, entry.2.isNull = true → visit entry = [])
    (hentry : ∀ name value, value.isNull = false → block? name value = none →
      visit (name, value) = [.entry ⟨state, name, value⟩])
    (hblock : ∀ name value p d, value.isNull = false → block? name value = some (p, d) →
      ∀ classes e, e.options = options → block p d classes e = walk (visit (name, value)) classes e)
    (entries : List (String × Value)) (classes : ClassMap) (e : Engine) (he : e.options = options) :
    compileEntries block state entries classes e = walk (entries.flatMap visit) classes e := by
  induction entries generalizing classes e with
  | nil => rfl
  | cons entry rest ih =>
    obtain ⟨name, value⟩ := entry
    rw [compileEntries, List.flatMap_cons]
    cases hn : value.isNull with
    | true =>
      rw [hnull (name, value) hn]
      exact ih classes e he
    | false =>
      rw [if_neg Bool.false_ne_true, walk_append]
      cases hb : block? name value with
      | some found =>
        obtain ⟨p, d⟩ := found
        simp only [Action.bind_apply]
        rw [hblock name value p d hn hb classes e he]
        cases hr : (walk (visit (name, value)) classes e).result with
        | error failure => rfl
        | ok classes' =>
          have ho := (walk_options (visit (name, value)) classes e).trans he
          simp only [ih classes' _ ho]
      | none =>
        rw [hentry name value hn hb]
        simp only [walk, Action.bind_apply]
        cases hr : (inject (suffix state) name value e).result with
        | error failure => rfl
        | ok id =>
          have ho := (inject_options (suffix state) name value e).trans he
          simp [ih _ _ ho, Occurrence.key]

theorem compileBlock_eq_walk (state : Pseudo) (d : Declaration) (classes : ClassMap) (e : Engine) :
    compileBlock state d classes e =
      walk ((e.options.pipeline.run d).entries.flatMap (visitInner state)) classes e := by
  unfold compileBlock
  rw [Action.look_bind]
  refine compileEntries_eq_walk (fun entry h => ?_) (fun name value hn hb => ?_)
    (fun name value p d hn hb classes e _ => ?_) _ classes e rfl
  · rw [visitInner, if_pos h]
  · simp [visitInner, hn, hb]
  · simp [visitInner, hn, hb, walk]

/-- Compilation is a walk over what the declaration holds. -/
theorem compileClasses_eq_walk (d : Declaration) (e : Engine) :
    compileClasses d e = walk (visits e.options.pipeline d) ClassMap.empty e := by
  unfold compileClasses visits
  rw [Action.look_bind]
  refine compileEntries_eq_walk (fun entry h => ?_) (fun name value hn hb => ?_)
    (fun name value p d hn hb classes e' he => ?_) _ ClassMap.empty e rfl
  · rw [visitOuter, if_pos h]
  · simp [visitOuter, hn, hb]
  · rw [compileBlock_eq_walk, he]
    simp [visitOuter, hn, hb]

theorem compile_eq_walk {d : Declaration} {e : Engine} (h : e.options.mode ≠ .noop) :
    (compile d e).result = (walk (visits e.options.pipeline d) ClassMap.empty e).result ∧
      (compile d e).engine = (walk (visits e.options.pipeline d) ClassMap.empty e).engine := by
  unfold compile
  rw [Action.look_bind, Action.report_bind_result, Action.report_bind_engine, if_neg h,
    compileClasses_eq_walk]
  exact ⟨rfl, rfl⟩

theorem compile_options (d : Declaration) (e : Engine) :
    (compile d e).engine.options = e.options := by
  by_cases h : e.options.mode = .noop
  · unfold compile
    rw [Action.look_bind, Action.report_bind_engine, if_pos h]
    rfl
  · rw [(compile_eq_walk h).2, walk_options]

theorem compileAll_options (namespaces : List (String × Declaration)) (e : Engine) :
    (compileAll namespaces e).engine.options = e.options := by
  induction namespaces generalizing e with
  | nil => rfl
  | cons n rest ih =>
    have ho := compile_options n.2 e
    rw [compileAll]
    cases hx : (compile n.2 e).result with
    | error failure => rwa [Action.bind_apply_of_error hx]
    | ok m =>
      rw [Action.bind_apply_of_ok hx]
      simp only [bind_pure_comp, Action.map_engine]
      exact (ih _).trans ho

end AtomicCss.Engine
