import Mathlib.Data.Finset.Card
import AtomicCss.Proofs.Engine.Ledger
import AtomicCss.Proofs.Engine.Naming

/-!
# The names of animations

The animations of an engine are numbered, and a number is used up only by a command that does not
fail (`name?_action`), so a run names one number behind the other (`animationNames_eq`). A name is a
digest of its number: two numbers with the same hash have the same name
(`animationName_eq_iff`). This happens in a run that is long enough (`animation_names_clash`).
-/

namespace AtomicCss

open Digest

theorem animationName_eq_iff {i j : Nat} :
    animationName i = animationName j ↔
      Purpose.animation.word (toString i) = Purpose.animation.word (toString j) := by
  rw [← Purpose.digest_eq_iff]
  exact String.append_right_inj "a"

/-- The name that a command gives to an animation. -/
def Answer.name? : Except StyleFailure Answer → Option String
  | .ok (.name text) => some text
  | _ => none

namespace Engine

/-- The names that a run gives to animations, in order. -/
def animationNames (e : Engine) (cs : List Command) : List String :=
  (e.answers cs).filterMap Answer.name?

/-! ## One number behind the other -/

theorem name?_injectKeyframes (k : Keyframes) (e : Engine) :
    Answer.name? ((Command.injectKeyframes k).action e).result =
      if e.writesAnimation (.injectKeyframes k) then some (animationName e.animations) else none := by
  have hresult : ((Command.injectKeyframes k).action e).result =
      (injectKeyframes k e).result.map Answer.name := Action.map_result _ _ _
  rw [writesAnimation_injectKeyframes, hresult]
  cases ha : e.answer (k.rule (animationName e.animations)) with
  | none =>
    rw [(injectKeyframes_taken ha).1]
    rfl
  | some refusal =>
    rw [(injectKeyframes_refused ha).1]
    rfl

theorem name?_map_eq_none {α : Type} {f : α → Answer} (hf : ∀ x text, f x ≠ .name text)
    (a : Action α) (e : Engine) : Answer.name? ((f <$> a) e).result = none := by
  rw [Action.map_result]
  cases (a e).result with
  | error failure => rfl
  | ok x =>
    show Answer.name? (.ok (f x)) = none
    cases hx : f x with
    | name text => exact absurd hx (hf x text)
    | _ => rfl

theorem name?_action (e : Engine) (c : Command) :
    Answer.name? (c.action e).result =
      if e.writesAnimation c then some (animationName e.animations) else none := by
  cases c with
  | injectKeyframes k => exact name?_injectKeyframes k e
  | _ => exact name?_map_eq_none (by simp) _ e

theorem animationNames_eq (e : Engine) (cs : List Command) :
    e.animationNames cs = (List.range' e.animations (e.animated cs)).map animationName := by
  induction cs generalizing e with
  | nil => rfl
  | cons c rest ih =>
    have hnames := name?_action e c
    have hcount := (accounts_command e c).animations
    have hrest := ih (e.after c)
    rw [hcount] at hrest
    rw [animationNames, answers_cons, List.filterMap_cons, animated_cons, hnames]
    cases hw : e.writesAnimation c with
    | false =>
      rw [hw] at hrest
      simpa [animationNames] using hrest
    | true =>
      rw [hw] at hrest
      rw [Bool.toNat_true, Nat.add_comm 1, List.range'_succ, List.map_cons]
      exact congrArg _ hrest

theorem animationNames_new (options : Options) (sheet : Sheet) (cs : List Command) :
    (new options sheet).animationNames cs =
      (List.range ((new options sheet).animated cs)).map animationName := by
  rw [animationNames_eq, List.range_eq_range']
  rfl

/-! ## When two animations have one name -/

/-- An engine names its animations by their numbers, counting those that do not fail, whatever else
it does between them. The names differ from one another if and only if the hashes of the numbers do,
so there are never more than the words that a hash can be. -/
theorem animations_named_by_number (options : Options) (sheet : Sheet) (cs : List Command) :
    let e := new options sheet
    e.animationNames cs = (List.range (e.animated cs)).map animationName ∧
    (∀ i j, animationName i = animationName j ↔
      Purpose.animation.word (toString i) = Purpose.animation.word (toString j)) ∧
    ((e.animationNames cs).Nodup ↔
      ((List.range (e.animated cs)).map fun i => Purpose.animation.word (toString i)).Nodup) ∧
    (e.animationNames cs).toFinset.card ≤ 2 ^ 32 := by
  intro e
  have hnames := animationNames_new options sheet cs
  refine ⟨hnames, fun i j => animationName_eq_iff, ?_, ?_⟩
  · have hname : Function.Injective fun w => "a" ++ Base36.render w := fun v w h =>
      Base36.render_injective ((String.append_right_inj "a").1 h)
    rw [hnames, ← List.nodup_map_iff hname, List.map_map]
    rfl
  · have hsub : (e.animationNames cs).toFinset ⊆
        (Finset.range (2 ^ 32)).image fun n => "a" ++ Base36.render (UInt32.ofNat n) := by
      intro name hname
      rw [List.mem_toFinset, hnames] at hname
      obtain ⟨i, -, rfl⟩ := List.mem_map.1 hname
      refine Finset.mem_image.2 ⟨(Purpose.animation.word (toString i)).toNat, ?_, ?_⟩
      · exact Finset.mem_range.2 (UInt32.toNat_lt _)
      · rw [UInt32.ofNat_toNat]
        rfl
    calc (e.animationNames cs).toFinset.card
        ≤ ((Finset.range (2 ^ 32)).image fun n => "a" ++ Base36.render (UInt32.ofNat n)).card :=
          Finset.card_le_card hsub
      _ ≤ (Finset.range (2 ^ 32)).card := Finset.card_image_le
      _ = 2 ^ 32 := Finset.card_range _

theorem animated_replicate {e : Engine} (hs : e.sheet.TakesAll) (k : Keyframes) (n : Nat) :
    e.animated (List.replicate n (.injectKeyframes k)) = n := by
  induction n generalizing e with
  | zero => rfl
  | succ n ih =>
    obtain ⟨hr, he⟩ := injectKeyframes_taken (k := k) (e := e) (hs.answer _ 0)
    have hsheet : (e.after (.injectKeyframes k)).sheet.TakesAll := by
      rw [after_injectKeyframes, he]
      exact hs.insert _ 0
    have hwritten : e.writesAnimation (.injectKeyframes k) = true := by
      rw [writesAnimation_injectKeyframes, hr]
      rfl
    rw [List.replicate_succ, animated_cons, hwritten, ih hsheet]
    exact Nat.add_comm 1 n

/-- Two numbers with the same hash: in a long run an animation takes the place of an earlier one. -/
theorem animation_names_clash :
    ¬ ∀ (options : Options) (sheet : Sheet) (cs : List Command),
      ((new options sheet).animationNames cs).Nodup := by
  intro h
  let cs : List Command := List.replicate 337271 (.injectKeyframes .empty)
  have hcount : (new Options.standard Sheet.empty).animated cs = 337271 :=
    animated_replicate (e := new Options.standard Sheet.empty) trivial _ _
  have hnames := h Options.standard Sheet.empty cs
  rw [animationNames_new, hcount] at hnames
  have hearly : 81648 ∈ List.range 337271 := List.mem_range.2 (by omega)
  have hlate : 337270 ∈ List.range 337271 := List.mem_range.2 (by omega)
  have hclash : animationName 81648 = animationName 337270 := by decide
  have hsame : 81648 = 337270 := List.inj_on_of_nodup_map hnames hearly hlate hclash
  omega

end Engine

end AtomicCss
