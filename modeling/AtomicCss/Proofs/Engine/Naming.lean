import AtomicCss.Engine.Actions
import AtomicCss.Proofs.Digest

/-!
# Class identifiers and their rules

An identifier is two numerals without a mark between them. `classId_eq_iff` tells which pairs of a
property and a value get the same identifier: those with the same two hashes, and those whose
numerals are cut at different places. The selector of a rule can always be read back
(`Rule.ofClass_inj`): the class ends at the colon or the blank behind it.
-/

namespace AtomicCss

namespace Digest

/-- The hash that is digested for a purpose. -/
def Purpose.word (purpose : Purpose) (text : String) : UInt32 := Digest.word text purpose.seed

theorem Purpose.digest_eq_iff {purpose : Purpose} {s t : String} :
    purpose.digest s = purpose.digest t ↔ purpose.word s = purpose.word t :=
  ⟨Base36.render_injective, fun h => congrArg Base36.render h⟩

end Digest

open Digest

theorem classId_eq (name : String) (value : Value) :
    classId name value =
      "c" ++ (Base36.render (Purpose.property.word name) ++
        Base36.render (Purpose.value.word value.render)) :=
  String.append_assoc

theorem isAlphanum_of_mem_classId {name : String} {value : Value} {c : Char}
    (h : c ∈ (classId name value).toList) : c.isAlphanum = true := by
  rw [classId_eq, String.toList_append, String.toList_append, List.mem_append, List.mem_append] at h
  rcases h with h | h | h
  · rw [List.mem_singleton.1 h]
    decide
  · exact Base36.isAlphanum_of_mem_render h
  · exact Base36.isAlphanum_of_mem_render h

/-- Two pairs get the same identifier exactly if both their digests agree, or the last digits of one
property's hash are the first digits of the other value's hash and all else agrees. -/
theorem classId_eq_iff (p q : String) (v w : Value) :
    classId p v = classId q w ↔
      (Purpose.property.digest p = Purpose.property.digest q ∧
        Purpose.value.digest v.render = Purpose.value.digest w.render) ∨
      Base36.Overlap (Purpose.property.word p) (Purpose.value.word v.render)
        (Purpose.property.word q) (Purpose.value.word w.render) ∨
      Base36.Overlap (Purpose.property.word q) (Purpose.value.word w.render)
        (Purpose.property.word p) (Purpose.value.word v.render) := by
  have hcancel : classId p v = classId q w ↔
      Base36.render (Purpose.property.word p) ++ Base36.render (Purpose.value.word v.render) =
        Base36.render (Purpose.property.word q) ++ Base36.render (Purpose.value.word w.render) := by
    rw [classId_eq, classId_eq]
    exact String.append_right_inj _
  rw [hcancel, Base36.render_append_render_eq_iff, Purpose.digest_eq_iff, Purpose.digest_eq_iff]

/-- The numerals have no separator: a digit may belong to the property in one identifier and to the
value in an equal one. -/
theorem not_digests_eq_of_classId_eq :
    ¬ ∀ (p q : String) (v w : Value), classId p v = classId q w →
      Purpose.property.digest p = Purpose.property.digest q ∧
        Purpose.value.digest v.render = Purpose.value.digest w.render := by
  intro h
  have hid : classId "--v68705" (.text "19620px") = classId "--v271664" (.text "57173px") := by
    decide
  have hne : Purpose.property.digest "--v68705" ≠ Purpose.property.digest "--v271664" := by
    decide
  exact hne (h _ _ _ _ hid).1

/-! ## Selectors -/

namespace Engine

theorem ne_blank_of_mem_suffix (state : Option Pseudo) : ∀ c ∈ (suffix state).toList, c ≠ ' ' := by
  cases state with
  | none => simp [suffix]
  | some p => cases p <;> simp [suffix, Pseudo.key]

theorem takeWhile_suffix (state : Option Pseudo) (rest : List Char) :
    ((suffix state).toList ++ ' ' :: rest).takeWhile (·.isAlphanum) = [] := by
  cases state with
  | none => rfl
  | some p => cases p <;> simp [suffix, Pseudo.key]

theorem suffix_injective {s t : Option Pseudo} (h : suffix s = suffix t) : s = t := by
  cases s with
  | none =>
    cases t with
    | none => rfl
    | some q => revert h; cases q <;> decide
  | some p =>
    cases t with
    | none => revert h; cases p <;> decide
    | some q => rw [Pseudo.key_injective h]

end Engine

theorem Rule.ofClass_inj {c c' name name' : String} {s s' : Option Pseudo} {value value' : Value}
    (hc : ∀ x ∈ c.toList, x.isAlphanum = true) (hc' : ∀ x ∈ c'.toList, x.isAlphanum = true)
    (h : Rule.ofClass c (Engine.suffix s) name value =
      Rule.ofClass c' (Engine.suffix s') name' value') : c = c' ∧ s = s' := by
  have hl := congrArg String.toList h
  simp only [Rule.ofClass, String.toList_append, List.append_assoc] at hl
  have hl' := List.append_cancel_left hl
  have hblank : (" \x7b ").toList = ' ' :: ("\x7b ").toList := by decide
  simp only [hblank, List.cons_append] at hl'
  have hcls := congrArg (List.takeWhile (·.isAlphanum)) hl'
  rw [List.takeWhile_append_of_pos hc, List.takeWhile_append_of_pos hc', Engine.takeWhile_suffix,
    Engine.takeWhile_suffix, List.append_nil, List.append_nil] at hcls
  rw [hcls] at hl'
  have hrest := congrArg (List.takeWhile (· ≠ ' ')) (List.append_cancel_left hl')
  have hw : ∀ t rest, ((Engine.suffix t).toList ++ ' ' :: rest).takeWhile (· ≠ ' ') =
      (Engine.suffix t).toList := by
    intro t rest
    rw [List.takeWhile_append_of_pos fun x hx => by simpa using Engine.ne_blank_of_mem_suffix t x hx]
    simp
  rw [hw, hw] at hrest
  exact ⟨String.toList_inj.1 hcls, Engine.suffix_injective (String.toList_inj.1 hrest)⟩

end AtomicCss
