import AtomicCss.Proofs.Engine.Command
import AtomicCss.Server

/-!
# What an engine adds

Nothing that an engine has injected or written changes its place: identifiers and rules are only put
behind those that are there (`Engine.Grows`). Every writing action is `Growing`, and so are
sequences of growing actions, whether they fail or not. What is rendered with an engine is made of
its operations (`Composed`), so the capture of a page extends the capture taken before the rendering
(`engine_only_grows`).
-/

namespace AtomicCss

/-- The rules of a synthetic sheet are kept in their places, and a sink remains one. -/
def Sheet.Grows : Sheet → Sheet → Prop
  | synthetic rules, synthetic rules' => rules.items <+: rules'.items
  | host _, host _ => True
  | _, _ => False

theorem prefix_intercalate (sep : List Char) (xs ys : List (List Char)) :
    sep.intercalate xs <+: sep.intercalate (xs ++ ys) := by
  induction xs with
  | nil => exact List.nil_prefix
  | cons x rest ih =>
    cases rest with
    | nil =>
      cases ys with
      | nil => exact List.prefix_refl _
      | cons y ys =>
        rw [List.intercalate_singleton, List.singleton_append, List.intercalate_cons_cons,
          List.append_assoc]
        exact List.prefix_append _ _
    | cons z rest =>
      rw [List.cons_append, List.cons_append, List.intercalate_cons_cons,
        List.intercalate_cons_cons]
      exact (List.prefix_append_right_inj _).2 ih

namespace Sheet.Grows

theorem refl (s : Sheet) : s.Grows s := by
  cases s with
  | synthetic rules => exact List.prefix_refl _
  | host sink => trivial

theorem of_synthetic {rules : OrderedSet} {t : Sheet} (h : (synthetic rules).Grows t) :
    ∃ rules', t = .synthetic rules' ∧ rules.items <+: rules'.items := by
  cases t with
  | synthetic rules' => exact ⟨rules', rfl, h⟩
  | host sink => cases h

theorem of_host {sink : Host} {t : Sheet} (h : (host sink).Grows t) :
    ∃ sink', t = .host sink' := by
  cases t with
  | synthetic rules => cases h
  | host sink' => exact ⟨sink', rfl⟩

theorem trans {s t u : Sheet} (h : s.Grows t) (h' : t.Grows u) : s.Grows u := by
  cases s with
  | synthetic rules =>
    obtain ⟨rules', rfl, hitems⟩ := h.of_synthetic
    obtain ⟨rules'', rfl, hitems'⟩ := h'.of_synthetic
    exact List.IsPrefix.trans hitems hitems'
  | host sink =>
    obtain ⟨sink', rfl⟩ := h.of_host
    obtain ⟨sink'', rfl⟩ := h'.of_host
    trivial

theorem insert (s : Sheet) (rule : String) (index : Nat) : s.Grows (s.insert rule index).1 := by
  cases s with
  | synthetic rules => exact OrderedSet.prefix_insert rules rule
  | host sink => trivial

theorem contents {s t : Sheet} (h : s.Grows t) : s.contents.toList <+: t.contents.toList := by
  cases s with
  | host sink => exact List.nil_prefix
  | synthetic rules =>
    obtain ⟨rules', rfl, more, hitems⟩ := h.of_synthetic
    rw [Sheet.contents, Sheet.contents, String.toList_intercalate, String.toList_intercalate,
      ← hitems, List.map_append]
    exact prefix_intercalate _ _ _

end Sheet.Grows

namespace Engine

/-- The identifiers and the rules are kept in their places. -/
structure Grows (e e' : Engine) : Prop where
  ids : e.injectedIds <+: e'.injectedIds
  sheet : e.sheet.Grows e'.sheet

namespace Grows

theorem refl (e : Engine) : e.Grows e := ⟨List.prefix_refl _, .refl _⟩

theorem trans {e e' e'' : Engine} (h : e.Grows e') (h' : e'.Grows e'') : e.Grows e'' :=
  ⟨h.ids.trans h'.ids, h.sheet.trans h'.sheet⟩

end Grows

end Engine

namespace Action

variable {α β : Type}

/-- The action leaves everything in its place on every engine. -/
def Growing (a : Action α) : Prop := ∀ e : Engine, e.Grows (a e).engine

namespace Growing

theorem bind {a : Action α} {next : α → Action β} (ha : Growing a)
    (hn : ∀ x, Growing (next x)) : Growing (a >>= next) := by
  intro e
  rw [bind_apply]
  cases (a e).result with
  | error failure => exact ha e
  | ok x => exact (ha e).trans (hn x _)

theorem pure (x : α) : Growing (Pure.pure x : Action α) := Engine.Grows.refl

theorem fail (failure : StyleFailure) : Growing (Action.fail failure : Action α) :=
  Engine.Grows.refl

theorem look (f : Engine → α) : Growing (Action.look f) := Engine.Grows.refl

theorem report (events : List Event) : Growing (Action.report events) := Engine.Grows.refl

theorem attempt {a : Action α} (h : Growing a) : Growing a.attempt := h

end Growing

end Action

namespace Engine

open AtomicCss.Action

/-! ## Writing actions -/

theorem growing_insertRule (rule : String) : Growing (insertRule rule) := by
  intro e
  rw [insertRule_engine]
  exact ⟨List.prefix_refl _, .insert _ rule 0⟩

theorem growing_inject (suffix name : String) (value : Value) :
    Growing (inject suffix name value) := by
  refine .bind (.look _) fun known => ?_
  split
  · exact .bind (.report _) fun _ => .pure _
  · refine .bind (growing_insertRule _) fun _ => .bind (.report _) fun _ => ?_
    refine .bind (fun e => ⟨?_, .refl _⟩) fun _ => .pure _
    exact OrderedSet.prefix_insert e.injected _

theorem growing_injectGlobal (rule : String) : Growing (injectGlobal rule) := by
  refine .bind (.look _) fun known => ?_
  split
  · exact .pure _
  · refine .bind (growing_insertRule _) fun _ => .bind (fun e => ?_) fun _ => .report _
    exact ⟨List.prefix_refl _, .refl _⟩

theorem growing_injectKeyframes (keyframes : Keyframes) : Growing (injectKeyframes keyframes) := by
  refine .bind (.look _) fun name => .bind (.report _) fun _ => ?_
  refine .bind (growing_insertRule _) fun _ => .bind (fun e => ?_) fun _ => ?_
  · exact ⟨List.prefix_refl _, .refl _⟩
  · exact .bind (.report _) fun _ => .pure _

theorem growing_seed (ids : List String) : Growing (seed ids) := by
  refine .bind (.look _) fun before => .bind (fun e => ⟨?_, .refl _⟩) fun _ => ?_
  · exact OrderedSet.prefix_insertAll e.injected ids
  · exact .bind (.look _) fun after => .report _

theorem growing_capture : Growing capture :=
  .bind (.look _) fun _ => .bind (.report _) fun _ => .pure _

/-! ## Compilation -/

theorem growing_compileEntries {block : Pseudo → Declaration → ClassMap → Action ClassMap}
    (hblock : ∀ p d classes, Growing (block p d classes)) (state : Option Pseudo)
    (entries : List (String × Value)) (classes : ClassMap) :
    Growing (compileEntries block state entries classes) := by
  induction entries generalizing classes with
  | nil => exact .pure classes
  | cons entry rest ih =>
    rw [compileEntries]
    split
    · exact ih classes
    · split
      · exact .bind (hblock _ _ _) fun classes => ih classes
      · exact .bind (growing_inject _ _ _) fun id => ih _

theorem growing_compileBlock (outer : Pseudo) (d : Declaration) (classes : ClassMap) :
    Growing (compileBlock outer d classes) :=
  .bind (.look _) fun entries => growing_compileEntries (fun _ _ _ => .fail _) _ entries classes

theorem growing_compile (d : Declaration) : Growing (compile d) := by
  refine .bind (.look _) fun mode => .bind (.report _) fun _ => ?_
  split
  · exact .look _
  · exact .bind (.look _) fun entries =>
      growing_compileEntries growing_compileBlock none entries ClassMap.empty

theorem growing_compileAll (namespaces : List (String × Declaration)) :
    Growing (compileAll namespaces) := by
  induction namespaces with
  | nil => exact .pure []
  | cons n rest ih => exact .bind (growing_compile n.2) fun m => .bind ih fun ms => .pure _

theorem growing_create (namespaces : List (String × Declaration)) : Growing (create namespaces) :=
  .bind (growing_compileAll namespaces) fun _ => .pure _

end Engine

/-! ## What is made of operations -/

/-- An action that is made of the operations of an engine. What it does next may depend on what it
has been given, on what it sees of the engine and on failures. -/
inductive Composed : {α : Type} → Action α → Prop
  | compile (d : Declaration) : Composed (Engine.compile d)
  | create (namespaces : List (String × Declaration)) : Composed (Engine.create namespaces)
  | injectGlobal (rule : String) : Composed (Engine.injectGlobal rule)
  | injectTheme (selector : String) (theme : Theme) : Composed (Engine.injectTheme selector theme)
  | injectKeyframes (keyframes : Keyframes) : Composed (Engine.injectKeyframes keyframes)
  | seed (ids : List String) : Composed (Engine.seed ids)
  | rehydrate (c : Capture) : Composed (Engine.rehydrate c)
  | capture : Composed Engine.capture
  | look {α : Type} (f : Engine → α) : Composed (Action.look f)
  | pure {α : Type} (x : α) : Composed (Pure.pure x : Action α)
  | fail {α : Type} (failure : StyleFailure) : Composed (Action.fail failure : Action α)
  | attempt {α : Type} {a : Action α} (h : Composed a) : Composed a.attempt
  | bind {α β : Type} {a : Action α} {next : α → Action β} (ha : Composed a)
      (hn : ∀ x, Composed (next x)) : Composed (a >>= next)

namespace Composed

variable {α β : Type} {a : Action α}

theorem map (f : α → β) (h : Composed a) : Composed (f <$> a) := by
  rw [← bind_pure_comp]
  exact h.bind fun x => .pure (f x)

theorem command (c : Command) : Composed c.action := by
  cases c with
  | compile d => exact .map _ (.compile d)
  | create namespaces => exact .map _ (.create namespaces)
  | injectGlobal rule => exact .map _ (.injectGlobal rule)
  | injectTheme selector theme => exact .map _ (.injectTheme selector theme)
  | injectKeyframes keyframes => exact .map _ (.injectKeyframes keyframes)
  | seed ids => exact .map _ (.seed ids)
  | rehydrate c => exact .map _ (.rehydrate c)
  | capture => exact .map _ .capture
  | inlineStyle d => exact .map _ (.look _)

theorem growing (h : Composed a) : a.Growing := by
  induction h with
  | compile d => exact Engine.growing_compile d
  | create namespaces => exact Engine.growing_create namespaces
  | injectGlobal rule => exact Engine.growing_injectGlobal rule
  | injectTheme selector theme => exact Engine.growing_injectGlobal _
  | injectKeyframes keyframes => exact Engine.growing_injectKeyframes keyframes
  | seed ids => exact Engine.growing_seed ids
  | rehydrate c => exact Engine.growing_seed c.ids
  | capture => exact Engine.growing_capture
  | look f => exact .look f
  | pure x => exact .pure x
  | fail failure => exact .fail failure
  | attempt _ ih => exact ih.attempt
  | bind _ _ iha ihn => exact .bind iha ihn

end Composed

namespace Engine

/-- A command leaves everything in its place, whether it fails or not. -/
theorem grows_after (e : Engine) (c : Command) : e.Grows (e.after c) :=
  (Composed.command c).growing e

theorem grows_afterAll (e : Engine) (cs : List Command) : e.Grows (e.afterAll cs) := by
  induction cs generalizing e with
  | nil => exact .refl e
  | cons c rest ih => exact (grows_after e c).trans (ih _)

end Engine

namespace Capture

/-- The second capture has what the first has, in the same places, and possibly more behind it. -/
structure Extends (before after : Capture) : Prop where
  ids : before.ids <+: after.ids
  contents : before.contents.toList <+: after.contents.toList

theorem extends_snapshot {e e' : Engine} (h : e.Grows e') : e.snapshot.Extends e'.snapshot :=
  ⟨h.ids, h.sheet.contents⟩

end Capture

/-! ## Pages -/

section pages

variable {α : Type} (render : Action α) (e : Engine)

theorem renderStatic_result :
    (renderStatic render e).result = .ok ⟨(render e).result, (render e).engine.snapshot⟩ := rfl

theorem css_of_tryRenderStatic_ok {page : Page α}
    (h : (tryRenderStatic render e).result = .ok page) :
    page.css = (render e).engine.snapshot := by
  unfold tryRenderStatic at h
  rw [Action.bind_apply] at h
  cases hbody : (render e).result with
  | error failure =>
    rw [hbody] at h
    cases h
  | ok body =>
    rw [hbody] at h
    exact congrArg Page.css (Except.ok.inj h).symm

end pages

/-- Identifiers and rules are only ever added at the end. Every operation of an engine, in any state
and whether it fails or not, keeps the identifiers in their places, and the rules too if the sheet
is synthetic; neither stands twice. The same holds of runs. So whatever is rendered by operations of
the engine, the capture in the page extends the capture taken just before. -/
theorem engine_only_grows :
    (∀ (e : Engine) (c : Command),
      e.injectedIds <+: (e.after c).injectedIds ∧ (e.after c).injectedIds.Nodup ∧
        ∀ rules, e.sheet = .synthetic rules →
          ∃ rules', (e.after c).sheet = .synthetic rules' ∧ rules.items <+: rules'.items ∧
            rules'.items.Nodup) ∧
    (∀ (e : Engine) (cs : List Command), e.Grows (e.afterAll cs)) ∧
    ∀ {α : Type} (render : Action α), Composed render →
      ∀ (e : Engine) (before : Capture), (Engine.capture e).result = .ok before →
        (∃ page, (renderStatic render (Engine.capture e).engine).result = .ok page ∧
          before.Extends page.css) ∧
        ∀ page, (tryRenderStatic render (Engine.capture e).engine).result = .ok page →
          before.Extends page.css := by
  refine ⟨fun e c => ?_, Engine.grows_afterAll, fun render hrender e before hbefore => ?_⟩
  · have h := Engine.grows_after e c
    refine ⟨h.ids, (e.after c).injected.nodup, fun rules hrules => ?_⟩
    have hsheet := h.sheet
    rw [hrules] at hsheet
    obtain ⟨rules', hafter, hitems⟩ := hsheet.of_synthetic
    exact ⟨rules', hafter, hitems, rules'.nodup⟩
  · obtain rfl : e.snapshot = before := Except.ok.inj hbefore
    have h := Capture.extends_snapshot (hrender.growing e)
    refine ⟨⟨_, renderStatic_result render e, h⟩, fun page hpage => ?_⟩
    exact css_of_tryRenderStatic_ok render e hpage ▸ h

/-- A block inside a block, behind a property that is compiled before it is met. -/
def tooDeep : Declaration :=
  Table.ofList [("margin", .text "0"),
    (":hover", .nested (Table.ofList [(":focus", .nested Table.empty)]))]

/-- A rendering that goes on after a compilation that fails. -/
def undeterred : Action String := do
  let classes ← Engine.compile (Table.ofList [("color", .text "red")])
  let _ ← (Engine.compile tooDeep).attempt
  Engine.injectGlobal "@layer base;"
  pure classes.classNames

theorem composed_undeterred : Composed undeterred := by
  refine .bind (.compile _) fun classes => .bind (.attempt (.compile _)) fun _ => ?_
  exact .bind (.injectGlobal _) fun _ => .pure _

theorem engine_only_grows_undeterred :
    let e := (Engine.synthetic Options.standard).after (.compile tooDeep)
    (∃ rules, e.sheet = .synthetic rules ∧ rules.items.Nodup) ∧
    ∃ before page, (Engine.capture e).result = .ok before ∧
      (tryRenderStatic undeterred (Engine.capture e).engine).result = .ok page ∧
      before.Extends page.css ∧ before.ids.length = 1 ∧ page.css.ids.length = 2 := by
  intro e
  obtain ⟨rules, hrules, -, hnodup⟩ := (engine_only_grows.1 (Engine.synthetic Options.standard)
    (.compile tooDeep)).2.2 OrderedSet.empty rfl
  obtain ⟨page, hpage⟩ := Action.exists_of_isOk
    (r := (tryRenderStatic undeterred (Engine.capture e).engine).result) (by decide)
  have hlengths : e.snapshot.ids.length = 1 ∧
      (undeterred e).engine.snapshot.ids.length = 2 := by decide
  have hextends := (engine_only_grows.2.2 undeterred composed_undeterred e _ rfl).2 page hpage
  refine ⟨⟨rules, hrules, hnodup⟩, e.snapshot, page, rfl, hpage, hextends, hlengths.1, ?_⟩
  rw [css_of_tryRenderStatic_ok undeterred e hpage]
  exact hlengths.2

end AtomicCss
