import AtomicCss.Proofs.Engine.Command
import AtomicCss.Proofs.Transform.Box

/-!
# The normal form of the standard pipeline

Every step of the standard pipeline is about one name: it expands one shorthand or gives one length
its unit. Afterwards nothing is left to do under this name, and no other step brings something back,
since the names are all different. So one run leaves nothing to do under any of them
(`normal_standard_run`), and another run changes nothing (`Normal.standard_run`).
-/

namespace AtomicCss

/-! ## Steps that settle something -/

section steps

variable {α σ : Type} {step : σ → α → σ} {xs : List α}

theorem foldl_keeps {Q : σ → Prop} (h : ∀ x ∈ xs, ∀ s, Q s → Q (step s x)) {s : σ} (hs : Q s) :
    Q (xs.foldl step s) := by
  induction xs generalizing s with
  | nil => exact hs
  | cons x rest ih =>
    exact ih (fun y hy => h y (List.mem_cons_of_mem x hy)) (h x List.mem_cons_self s hs)

/-- Steps that each settle something of their own, and disturb nothing that is settled, settle
all. -/
theorem foldl_settles {P : α → σ → Prop} (hself : ∀ x ∈ xs, ∀ s, P x (step s x))
    (hkeep : ∀ x ∈ xs, ∀ y ∈ xs, ∀ s, P y s → P y (step s x)) (s : σ) :
    ∀ x ∈ xs, P x (xs.foldl step s) := by
  induction xs generalizing s with
  | nil => exact fun x hx => absurd hx List.not_mem_nil
  | cons x rest ih =>
    obtain ⟨hx, hrest⟩ := List.forall_mem_cons.1 hself
    have hkeeps : ∀ y ∈ rest, ∀ z ∈ x :: rest, ∀ s, P z s → P z (step s y) := fun y hy =>
      hkeep y (List.mem_cons_of_mem x hy)
    refine List.forall_mem_cons.2 ⟨?_, ih hrest (fun y hy z hz => ?_) (step s x)⟩
    · exact foldl_keeps (fun y hy => hkeeps y hy x List.mem_cons_self) (hx s)
    · exact hkeeps y hy z (List.mem_cons_of_mem x hz)

theorem foldl_eq_self {s : σ} (h : ∀ x ∈ xs, step s x = s) : xs.foldl step s = s := by
  induction xs with
  | nil => rfl
  | cons x rest ih =>
    obtain ⟨hx, hrest⟩ := List.forall_mem_cons.1 h
    rw [List.foldl_cons, hx, ih hrest]

end steps

/-! ## Shorthands -/

theorem Css.components_ne_nil (value : String) : Css.components value ≠ [] := by
  unfold Css.components
  split
  · simp
  · next parts hparts => simpa using hparts

namespace BoxFamily

theorem sides?_eq_none_iff {v : Value} : sides? v = none ↔ v.isScalar = false := by
  cases v with
  | null => exact ⟨fun _ => rfl, fun _ => rfl⟩
  | nested d => exact ⟨fun _ => rfl, fun _ => rfl⟩
  | number x => simp [sides?, Value.isScalar]
  | text s =>
    obtain ⟨first, others, hparts⟩ := List.exists_cons_of_ne_nil (Css.components_ne_nil s)
    simp [sides?, hparts, Value.isScalar]

/-- There is nothing to expand under the shorthand. -/
def Settled (f : BoxFamily) (d : Declaration) : Prop := (d.get? f.shorthand).bind sides? = none

theorem settled_iff {f : BoxFamily} {d : Declaration} :
    f.Settled d ↔ ∀ v, d.get? f.shorthand = some v → v.isScalar = false := by
  rw [Settled, Option.bind_eq_none_iff]
  simp only [sides?_eq_none_iff]

theorem Settled.expand {f : BoxFamily} {d : Declaration} (h : f.Settled d) : f.expand d = d := by
  unfold BoxFamily.expand
  rw [show (d.get? f.shorthand).bind sides? = none from h]

theorem settled_expand {f : BoxFamily} (hf : f ∈ all) (d : Declaration) :
    f.Settled (f.expand d) := by
  cases h : (d.get? f.shorthand).bind sides? with
  | none =>
    have hs : f.Settled d := h
    rwa [hs.expand]
  | some value =>
    have hl := shorthand_ne_longhand hf hf
    have hgone : (f.expand d).get? f.shorthand = none := by
      unfold BoxFamily.expand
      rw [h]
      simp [Table.insertAll, Side.all, Table.get?_insert, Table.get?_erase, hl]
    rw [Settled, hgone, Option.bind_none]

theorem settled_expandBoxShorthands (d : Declaration) :
    ∀ f ∈ all, f.Settled (expandBoxShorthands d) := by
  refine foldl_settles (fun f hf d => settled_expand hf d) (fun f hf g hg d h => ?_) d
  by_cases hfg : f = g
  · exact hfg ▸ settled_expand hf d
  · rwa [Settled, get?_shorthand_expand hf hg hfg]

end BoxFamily

/-! ## Lengths -/

/-- There is no bare number under the name that could get a unit. -/
def Unitless (name : String) (d : Declaration) : Prop :=
  ∀ x, d.get? name = some (.number x) → x.isFinite = false

theorem Unitless.inferUnit {name : String} {d : Declaration} (h : Unitless name d)
    (unit : String) : inferUnit d name unit = d := by
  unfold AtomicCss.inferUnit
  split
  · next x hx => rw [h x hx, if_neg Bool.false_ne_true]
  · rfl

theorem unitless_inferUnit (d : Declaration) (name unit : String) :
    Unitless name (inferUnit d name unit) := by
  by_cases h : Unitless name d
  · rwa [h.inferUnit]
  · obtain ⟨x, hx, hfinite⟩ : ∃ x, d.get? name = some (.number x) ∧ x.isFinite = true := by
      simpa [Unitless] using h
    intro y hy
    rw [inferUnit, hx] at hy
    simp [hfinite, Table.get?_insert] at hy

theorem get?_inferUnit (d : Declaration) {name other : String} (h : other ≠ name)
    (unit : String) : (inferUnit d name unit).get? other = d.get? other := by
  unfold inferUnit
  split
  · split
    · rw [Table.get?_insert, if_neg h]
    · rfl
  · rfl

theorem unitless_inferUnits (d : Declaration) : ∀ e ∈ lengthUnits, Unitless e.1 (inferUnits d) := by
  refine foldl_settles (fun e _ d => unitless_inferUnit d e.1 e.2) (fun e _ g _ d h => ?_) d
  by_cases hname : g.1 = e.1
  · exact hname ▸ unitless_inferUnit d e.1 e.2
  · rwa [Unitless, get?_inferUnit d hname]

theorem shorthand_not_length {f : BoxFamily} (hf : f ∈ BoxFamily.all) {e : String × String}
    (he : e ∈ lengthUnits) : f.shorthand ≠ e.1 := by
  have hall : ∀ f ∈ BoxFamily.all, ∀ e ∈ lengthUnits, f.shorthand ≠ e.1 := by decide
  exact hall f hf e he

theorem get?_shorthand_inferUnits {f : BoxFamily} (hf : f ∈ BoxFamily.all) (d : Declaration) :
    (inferUnits d).get? f.shorthand = d.get? f.shorthand :=
  foldl_keeps (Q := fun d' => d'.get? f.shorthand = d.get? f.shorthand)
    (fun e he d' h => (get?_inferUnit d' (shorthand_not_length hf he) e.2).trans h) rfl

/-! ## The pipeline -/

/-- There is nothing to expand and nothing to give a unit. -/
structure Normal (d : Declaration) : Prop where
  settled : ∀ f ∈ BoxFamily.all, f.Settled d
  unitless : ∀ e ∈ lengthUnits, Unitless e.1 d

theorem standard_run (d : Declaration) :
    Pipeline.standard.run d = inferUnits (expandBoxShorthands d) := by
  rw [Pipeline.standard, Pipeline.run_add, Pipeline.run_add, Pipeline.run_empty]

/-- One run of the pipeline leaves nothing to do. -/
theorem normal_standard_run (d : Declaration) : Normal (Pipeline.standard.run d) := by
  rw [standard_run]
  refine ⟨fun f hf => ?_, unitless_inferUnits _⟩
  rw [BoxFamily.Settled, get?_shorthand_inferUnits hf]
  exact BoxFamily.settled_expandBoxShorthands d f hf

/-- Where there is nothing to do, the pipeline changes nothing. -/
theorem Normal.standard_run {d : Declaration} (h : Normal d) : Pipeline.standard.run d = d := by
  have hbox : expandBoxShorthands d = d := foldl_eq_self fun f hf => (h.settled f hf).expand
  have hunits : inferUnits d = d := foldl_eq_self fun e he => (h.unitless e he).inferUnit e.2
  rw [AtomicCss.standard_run, hbox, hunits]

theorem Engine.compile_congr {e : Engine} {d d' : Declaration}
    (h : e.transform d = e.transform d') :
    (compile d e).result = (compile d' e).result ∧
      (compile d e).engine = (compile d' e).engine := by
  have hpass : e.passThrough d = e.passThrough d' := by rw [passThrough, passThrough, h]
  have hclasses : compileClasses d e = compileClasses d' e := by
    unfold compileClasses
    rw [Action.look_bind, Action.look_bind, h]
  unfold compile
  simp only [Action.look_bind, Action.report_bind_result, Action.report_bind_engine]
  split
  · exact ⟨congrArg Except.ok hpass, rfl⟩
  · rw [hclasses]
    exact ⟨rfl, rfl⟩

/-- One run of the standard pipeline reaches a normal form. No shorthand of a box is left with a
text or a finite number, and no length with a finite number; another run changes nothing, not even
the order. So an engine with the standard pipeline, in any state, compiles a declaration and the
transformed declaration to the same end. -/
theorem standard_reaches_normal_form (d : Declaration) :
    (∀ f ∈ BoxFamily.all, ∀ v, (Pipeline.standard.run d).get? f.shorthand = some v →
      v.isScalar = false) ∧
    (∀ e ∈ lengthUnits, ∀ x, (Pipeline.standard.run d).get? e.1 = some (.number x) →
      x.isFinite = false) ∧
    Pipeline.standard.run (Pipeline.standard.run d) = Pipeline.standard.run d ∧
    ∀ e : Engine, e.options.pipeline = Pipeline.standard →
      (Engine.compile (Pipeline.standard.run d) e).result = (Engine.compile d e).result ∧
      (Engine.compile (Pipeline.standard.run d) e).engine = (Engine.compile d e).engine := by
  have hnormal := normal_standard_run d
  refine ⟨fun f hf => BoxFamily.settled_iff.1 (hnormal.settled f hf), hnormal.unitless,
    hnormal.standard_run, fun e he => Engine.compile_congr ?_⟩
  rw [Engine.transform, Engine.transform, he, hnormal.standard_run]

/-- Shorthands and lengths with values of all kinds, some of which stay where they are. -/
def boxes : Declaration :=
  Table.ofList [("borderWidth", .number .nan), ("margin", .text "1px 2px"),
    ("borderColor", .nested Table.empty), ("padding", .ofInt 3), ("marginLeft", .ofInt 5),
    ("height", .number (.infinity false)), ("width", .ofInt 7)]

theorem number_of_bind {v? : Option Value} {x : Number} (h : v?.bind Value.number? = some x) :
    v? = some (.number x) := by
  obtain ⟨v, rfl, hx⟩ := Option.bind_eq_some_iff.1 h
  cases v <;> simp_all [Value.number?]

theorem boxes_reach_normal_form :
    let e := (Engine.synthetic ⟨.inject, Pipeline.standard⟩).after (.compile boxes)
    (Pipeline.standard.run boxes).get? "borderWidth" = some (.number .nan) ∧
    Value.isScalar (.number .nan) = false ∧
    (Pipeline.standard.run boxes).get? "height" = some (.number (.infinity false)) ∧
    Number.isFinite (.infinity false) = false ∧
    Pipeline.standard.run (Pipeline.standard.run boxes) = Pipeline.standard.run boxes ∧
    e.options.pipeline = Pipeline.standard ∧
    (Engine.compile (Pipeline.standard.run boxes) e).result = (Engine.compile boxes e).result := by
  intro e
  have hwidth : (Pipeline.standard.run boxes).get? "borderWidth" = some (.number .nan) :=
    number_of_bind (by decide +kernel)
  have hheight : (Pipeline.standard.run boxes).get? "height" = some (.number (.infinity false)) :=
    number_of_bind (by decide +kernel)
  have hpipeline : e.options.pipeline = Pipeline.standard := by
    rw [show e.options = ⟨.inject, Pipeline.standard⟩ from Engine.after_options _ _]
  obtain ⟨hboxes, hlengths, hagain, hcompile⟩ := standard_reaches_normal_form boxes
  exact ⟨hwidth, hboxes ⟨"borderWidth", "border", "Width"⟩ (by decide) _ hwidth, hheight,
    hlengths ("height", "px") (by decide) _ hheight, hagain, hpipeline, (hcompile e hpipeline).1⟩

end AtomicCss
