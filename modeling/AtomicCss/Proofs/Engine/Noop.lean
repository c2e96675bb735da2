import AtomicCss.Proofs.Engine.Result

/-!
# Engines that write nothing

In the mode `noop` a declaration compiles to its own values. Where it has no blocks, these are just
the texts that another engine makes its classes from (`noop_mirrors`). And nothing happens: an action
is `Idle` if it gives a result, leaves the engine as it is and sends nothing, and so is every
compilation in this mode.
-/

namespace AtomicCss

namespace Action

variable {α β : Type}

/-- The action gives `x`, leaves the engine as it is and sends nothing. -/
structure Idle (a : Action α) (e : Engine) (x : α) : Prop where
  result : (a e).result = .ok x
  engine : (a e).engine = e
  sends : Sends a e []

theorem Idle.bind {a : Action α} {next : α → Action β} {e : Engine} {x : α} {y : β}
    (ha : Idle a e x) (hn : Idle (next x) e y) : Idle (a >>= next) e y := by
  have hnext : Idle (next x) (a e).engine y := ha.engine.symm ▸ hn
  refine ⟨?_, ?_, ha.sends.after_blind ha.result hnext.sends⟩
  · rw [bind_apply_of_ok ha.result]
    exact hnext.result
  · rw [bind_apply_of_ok ha.result]
    exact hnext.engine.trans ha.engine

theorem Idle.map {a : Action α} {e : Engine} {x : α} (f : α → β) (h : Idle a e x) :
    Idle (f <$> a) e (f x) where
  result := by rw [map_result, h.result]; rfl
  engine := by rw [map_engine, h.engine]
  sends := h.sends.map f

theorem Idle.done (x : α) (e : Engine) : Idle (Pure.pure x : Action α) e x :=
  ⟨rfl, rfl, .done x e⟩

theorem Idle.report (events : List Event) (e : Engine) : Idle (Action.report events) e () :=
  ⟨rfl, rfl, .report events e⟩

theorem Idle.look {f : Engine → α} {e : Engine} (h : ∀ sink, f (e.on sink) = f e) :
    Idle (Action.look f) e (f e) :=
  ⟨rfl, rfl, .look h⟩

end Action

namespace Engine

open AtomicCss.Action

/-! ## Nothing happens -/

section noop

variable {e : Engine} (hm : e.options.mode = .noop)

include hm

theorem idle_compile (d : Declaration) : Idle (compile d) e (e.passThrough d) := by
  refine .bind (.look fun _ => rfl) (.bind (.report _ e) ?_)
  rw [if_pos hm]
  exact .look fun _ => rfl

theorem idle_compileAll (namespaces : List (String × Declaration)) :
    Idle (compileAll namespaces) e (namespaces.map fun n => (n.1, e.passThrough n.2)) := by
  induction namespaces with
  | nil => exact .done [] e
  | cons n rest ih => exact .bind (idle_compile hm n.2) (.bind ih (.done _ e))

theorem idle_action {c : Command} (hc : c.compiles = true) : ∃ x, Idle c.action e x := by
  cases c with
  | compile d => exact ⟨_, (idle_compile hm d).map Answer.classes⟩
  | create namespaces =>
    exact ⟨_, Idle.map Answer.namespaces (.bind (idle_compileAll hm namespaces) (.done _ e))⟩
  | _ => cases hc

theorem idle_run {cs : List Command} (hc : ∀ c ∈ cs, c.compiles = true) :
    (∀ a ∈ e.answers cs, a.isOk = true) ∧ e.log cs = [] ∧ e.afterAll cs = e := by
  induction cs with
  | nil => exact ⟨fun a ha => absurd ha List.not_mem_nil, rfl, rfl⟩
  | cons c rest ih =>
    obtain ⟨hcompiles, hrest⟩ := List.forall_mem_cons.1 hc
    obtain ⟨x, hidle⟩ := idle_action hm hcompiles
    obtain ⟨hanswers, hlog, hafter⟩ := ih hrest
    have hengine : e.after c = e := hidle.engine
    refine ⟨?_, ?_, ?_⟩
    · rw [answers_cons, hengine, List.forall_mem_cons, hidle.result]
      exact ⟨rfl, hanswers⟩
    · rw [log_cons, hengine, hlog, sendings, hidle.sends.sent_eq]
      rfl
    · rw [afterAll_cons, hengine, hafter]

end noop

/-! ## What classes are made from -/

theorem assigned_of_not_block {p : Pipeline} {d : Declaration}
    (hb : ∀ q b, (Pseudo.key q, Value.nested b) ∉ (p.run d).entries) :
    assigned p d = assignedIn none (p.run d).entries := by
  unfold assigned
  generalize (p.run d).entries = entries at hb
  induction entries with
  | nil => rfl
  | cons entry rest ih =>
    obtain ⟨name, value⟩ := entry
    have hblock : block? name value = none := by
      rw [Option.eq_none_iff_forall_ne_some]
      rintro ⟨q, b⟩ hsome
      obtain ⟨rfl, rfl⟩ := block?_eq_some_iff.1 hsome
      exact hb q b List.mem_cons_self
    rw [List.flatMap_cons, ih fun q b h => hb q b (List.mem_cons_of_mem _ h), hblock]
    simp only [assignedIn]
    rw [← List.map_append, ← List.filter_append, List.singleton_append]

/-- The class of a property whose value has this text. -/
def classOfText (name text : String) : String :=
  "c" ++ Digest.Purpose.property.digest name ++ Digest.Purpose.value.digest text

theorem assignedIn_none (entries : List (String × Value)) :
    assignedIn none entries =
      ((entries.filter fun entry => !entry.2.isNull).map fun entry =>
        (entry.1, entry.2.render)).map fun entry => (entry.1, classOfText entry.1 entry.2) := by
  rw [assignedIn, List.map_map]
  refine List.map_congr_left fun entry _ => ?_
  exact Prod.ext (String.append_empty) rfl

theorem compile_ok_eq {e : Engine} (hm : e.options.mode ≠ .noop) {d : Declaration} {m : ClassMap}
    (h : (compile d e).result = .ok m) : m = ClassMap.ofList (assigned e.options.pipeline d) := by
  rw [(compile_eq_walk hm).1] at h
  obtain ⟨hflat, hmap⟩ := walk_ok h
  rw [hmap, classesOf_eq_ofList, entered_visits hflat]

/-- An engine in the mode `noop` shows what the classes of other engines are made from. If no
pseudo-selector of the transformed declaration holds a declaration, and an engine that writes rules
compiles it without failure, in whatever state and on whatever sheet, then both engines give the same
keys in the same order, and the class of each key is made from the key and from the text that the
idle engine gives for it. Whatever declarations it compiles, with blocks or without, the idle engine
does not fail, sends nothing, and stays exactly as it was. -/
theorem noop_mirrors :
    (∀ (e f : Engine) (d : Declaration) (m₁ m₀ : ClassMap),
        e.options.mode ≠ .noop → f.options.mode = .noop →
        f.options.pipeline = e.options.pipeline →
        (∀ q b, (Pseudo.key q, Value.nested b) ∉ (e.options.pipeline.run d).entries) →
        (compile d e).result = .ok m₁ → (compile d f).result = .ok m₀ →
        m₁.entries = m₀.entries.map fun entry =>
          (entry.1, "c" ++ Digest.Purpose.property.digest entry.1 ++
            Digest.Purpose.value.digest entry.2)) ∧
      ∀ (f : Engine) (cs : List Command),
        f.options.mode = .noop → (∀ c ∈ cs, c.compiles = true) →
        (∀ a ∈ f.answers cs, a.isOk = true) ∧ f.log cs = [] ∧ f.afterAll cs = f := by
  refine ⟨fun e f d m₁ m₀ he hf hp hb h₁ h₀ => ?_, fun f cs hf hc => idle_run hf hc⟩
  have hm₀ : m₀ = f.passThrough d := Except.ok.inj (h₀.symm.trans (idle_compile hf d).result)
  have hm₁ := compile_ok_eq he h₁
  rw [assigned_of_not_block hb, assignedIn_none] at hm₁
  rw [hm₀, hm₁, passThrough, transform, hp]
  exact Table.entries_ofList_map classOfText _

/-- Values of all kinds; the key with the declaration is no pseudo-selector. -/
def blockless : Declaration :=
  Table.ofList [("color", .text "red"), ("margin", .null), ("zIndex", .ofInt 3),
    (":unknown", .nested (Table.ofList [("color", .text "red")]))]

/-- An engine that writes nothing. -/
def idleEngine : Engine := synthetic (Options.ofMode .noop)

theorem not_block_blockless (q : Pseudo) (b : Declaration) :
    (q.key, Value.nested b) ∉ (Options.standard.pipeline.run blockless).entries := by
  have hentries : (Options.standard.pipeline.run blockless).entries =
      [("color", .text "red"), ("margin", .null), ("zIndex", .ofInt 3),
        (":unknown", .nested (Table.ofList [("color", .text "red")]))] := rfl
  have hkey : q.key ≠ ":unknown" := by cases q <;> decide
  simp [hentries, Value.ofInt, hkey]

theorem compile_blockless : ∃ m, (compile blockless usedEngine).result = .ok m := by
  apply Action.exists_of_isOk
  decide +kernel

theorem noop_mirrors_blockless :
    (∃ m₁ m₀, (compile blockless usedEngine).result = .ok m₁ ∧
      (compile blockless idleEngine).result = .ok m₀ ∧
      m₁.entries = m₀.entries.map fun entry =>
        (entry.1, "c" ++ Digest.Purpose.property.digest entry.1 ++
          Digest.Purpose.value.digest entry.2)) ∧
      idleEngine.log [.compile mixed, .create [("a", mixed), ("b", blockless)]] = [] := by
  obtain ⟨m₁, h₁⟩ := compile_blockless
  have h₀ := (idle_compile (e := idleEngine) rfl blockless).result
  have hoptions : usedEngine.options = Options.standard := afterAll_options _ _
  refine ⟨⟨m₁, _, h₁, h₀, ?_⟩, ?_⟩
  · refine noop_mirrors.1 usedEngine idleEngine blockless m₁ _ ?_ rfl ?_ ?_ h₁ h₀
    · rw [hoptions]
      decide
    · rw [hoptions]
      rfl
    · rw [hoptions]
      exact not_block_blockless
  · exact (noop_mirrors.2 idleEngine _ rfl (by simp [Command.compiles])).2.1

end Engine

end AtomicCss
