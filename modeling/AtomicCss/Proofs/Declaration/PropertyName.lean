import Mathlib.Data.List.Basic
import AtomicCss.Declaration
import AtomicCss.Text

/-!
# Property names read back

The style sheet form of a name is the one form in which no letter is upper-case (`css_eq_self_iff`).
It is read back in camel case (`camel`), where a hyphen and a lower-case letter behind it stand for
the upper-case letter. A name and its form have the same camel case (`camel_css`), and a name and
its camel case have the same form (`css_camel`). So two names have the same form exactly if they have
the same camel case (`css_eq_css_iff`), and names without a hyphen are kept apart
(`css_keeps_apart`).
-/

namespace AtomicCss.PropertyName

open Text

theorem cssChar_of_isUpper {c : Char} (h : c.isUpper = true) : cssChar c = ['-', c.toLower] := by
  rw [cssChar, if_pos h]

theorem cssChar_eq_self {c : Char} (h : c.isUpper = false) : cssChar c = [c] := by
  rw [cssChar, if_neg (by simp [h])]

/-! ## Names in style sheet form -/

theorem toList_css (name : String) : (css name).toList = name.toList.flatMap cssChar := by
  rw [css, String.toList_ofList]

theorem length_css (name : String) :
    (css name).toList.length = name.toList.length + name.toList.countP Char.isUpper := by
  rw [toList_css]
  induction name.toList with
  | nil => rfl
  | cons c rest ih =>
    rw [List.flatMap_cons, List.length_append, ih, List.length_cons, List.countP_cons, cssChar]
    cases c.isUpper with
    | true => simp; omega
    | false => simp; omega

theorem css_eq_self {name : String} (h : ∀ c ∈ name.toList, c.isUpper = false) :
    css name = name := by
  have hchars : name.toList.flatMap cssChar = name.toList.flatMap fun c => [c] :=
    List.flatMap_congr fun c hc => cssChar_eq_self (h c hc)
  rw [css, hchars, List.flatMap_singleton', String.ofList_toList]

theorem countP_isUpper_eq_zero_iff {name : String} :
    name.toList.countP Char.isUpper = 0 ↔ ∀ c ∈ name.toList, c.isUpper = false := by
  simp [List.countP_eq_zero]

theorem css_eq_self_iff {name : String} :
    css name = name ↔ ∀ c ∈ name.toList, c.isUpper = false := by
  refine ⟨fun h => ?_, css_eq_self⟩
  have hlength := length_css name
  rw [h] at hlength
  exact countP_isUpper_eq_zero_iff.1 (by omega)

theorem isUpper_of_mem_cssChar {c d : Char} (h : d ∈ cssChar c) : d.isUpper = false := by
  cases hc : c.isUpper with
  | true =>
    rw [cssChar_of_isUpper hc, List.mem_pair] at h
    rcases h with rfl | rfl
    · decide
    · exact isUpper_eq_false_of_isLower (toUpper_toLower hc).1
  | false =>
    rw [cssChar_eq_self hc, List.mem_singleton] at h
    exact h ▸ hc

theorem isUpper_of_mem_css {name : String} {c : Char} (h : c ∈ (css name).toList) :
    c.isUpper = false := by
  rw [toList_css, List.mem_flatMap] at h
  obtain ⟨d, -, hd⟩ := h
  exact isUpper_of_mem_cssChar hd

/-! ## Names in camel case -/

/-- A hyphen and a lower-case letter behind it are one upper-case letter. -/
def camelChars : List Char → List Char
  | c :: d :: rest =>
    if c = '-' ∧ d.isLower = true then d.toUpper :: camelChars rest
    else c :: camelChars (d :: rest)
  | rest => rest

/-- The camel case of a name. -/
def camel (name : String) : String := String.ofList (camelChars name.toList)

theorem camelChars_hyphen {d : Char} (h : d.isLower = true) (rest : List Char) :
    camelChars ('-' :: d :: rest) = d.toUpper :: camelChars rest := by
  rw [camelChars, if_pos ⟨rfl, h⟩]

theorem camelChars_cons {c : Char} (h : c ≠ '-') (rest : List Char) :
    camelChars (c :: rest) = c :: camelChars rest := by
  cases rest with
  | nil => rfl
  | cons d rest => rw [camelChars, if_neg fun hc => h hc.1]

theorem camelChars_cons_of_head {rest : List Char}
    (h : ∀ d, rest.head? = some d → d.isLower = false) (c : Char) :
    camelChars (c :: rest) = c :: camelChars rest := by
  cases rest with
  | nil => rfl
  | cons d rest => rw [camelChars, if_neg fun hc => by simp [h d rfl] at hc]

theorem camelChars_cssChar {c : Char} (h : c.isUpper = true) (rest : List Char) :
    camelChars (cssChar c ++ rest) = c :: camelChars rest := by
  obtain ⟨hlower, hback⟩ := toUpper_toLower h
  rw [cssChar_of_isUpper h]
  exact (camelChars_hyphen hlower rest).trans (by rw [hback])

theorem isLower_head_cssChar {c : Char} (h : c.isLower = false) (rest : List Char) :
    ∀ x, (cssChar c ++ rest).head? = some x → x.isLower = false := by
  intro x hx
  cases hc : c.isUpper with
  | true =>
    rw [cssChar_of_isUpper hc] at hx
    cases hx
    decide
  | false =>
    rw [cssChar_eq_self hc] at hx
    cases hx
    exact h

theorem camelChars_flatMap (cs : List Char) :
    camelChars (cs.flatMap cssChar) = camelChars cs := by
  fun_induction camelChars cs with
  | case1 c d rest h ih =>
    obtain ⟨rfl, hd⟩ := h
    rw [List.flatMap_cons, List.flatMap_cons, cssChar_eq_self (by decide),
      cssChar_eq_self (isUpper_eq_false_of_isLower hd)]
    exact (camelChars_hyphen hd _).trans (congrArg _ ih)
  | case2 c d rest h ih =>
    rw [List.flatMap_cons, ← ih]
    cases hc : c.isUpper with
    | true => exact camelChars_cssChar hc _
    | false =>
      rw [cssChar_eq_self hc]
      by_cases hhyphen : c = '-'
      · -- The hyphen is not read with `d`, and so not with the first character written for `d`.
        have hd : d.isLower = false := by simpa [hhyphen] using h
        exact camelChars_cons_of_head (isLower_head_cssChar hd _) c
      · exact camelChars_cons hhyphen _
  | case3 rest hshort =>
    match rest, hshort with
    | [], _ => rfl
    | c :: d :: rest, hshort => exact absurd rfl (hshort c d rest)
    | [c], _ =>
      cases hc : c.isUpper with
      | true => exact camelChars_cssChar hc []
      | false =>
        rw [List.flatMap_singleton, cssChar_eq_self hc]
        rfl

/-- Camel case has the same style sheet form as the name itself. -/
theorem flatMap_camelChars (cs : List Char) :
    (camelChars cs).flatMap cssChar = cs.flatMap cssChar := by
  fun_induction camelChars cs with
  | case1 c d rest h ih =>
    obtain ⟨rfl, hd⟩ := h
    obtain ⟨hupper, hback⟩ := toLower_toUpper hd
    rw [List.flatMap_cons, List.flatMap_cons, List.flatMap_cons, ih, cssChar_of_isUpper hupper,
      hback, cssChar_eq_self (by decide), cssChar_eq_self (isUpper_eq_false_of_isLower hd)]
    rfl
  | case2 c d rest h ih => rw [List.flatMap_cons, ih, ← List.flatMap_cons]
  | case3 rest hshort => rfl

theorem camel_css (name : String) : camel (css name) = camel name := by
  rw [camel, toList_css, camelChars_flatMap, camel]

theorem css_camel (name : String) : css (camel name) = css name := by
  rw [css, camel, String.toList_ofList, flatMap_camelChars, css]

/-- Two names have the same style sheet form exactly if they are the same in camel case. -/
theorem css_eq_css_iff {a b : String} : css a = css b ↔ camel a = camel b := by
  constructor
  · intro h
    rw [← camel_css a, h, camel_css]
  · intro h
    rw [← css_camel a, h, css_camel]

theorem camelChars_eq_self {cs : List Char} (h : '-' ∉ cs) : camelChars cs = cs := by
  induction cs with
  | nil => rfl
  | cons c rest ih =>
    rw [List.mem_cons, not_or] at h
    rw [camelChars_cons (Ne.symm h.1), ih h.2]

theorem camel_eq_self {name : String} (h : '-' ∉ name.toList) : camel name = name := by
  rw [camel, camelChars_eq_self h, String.ofList_toList]

/-! ## Names kept apart -/

/-- Names without a hyphen have different style sheet forms, and any two names with the same form
differ only in how they write an upper-case letter. A form has no upper-case letter and is its own
form, and the form of a name is made piece by piece. -/
theorem css_keeps_apart :
    (∀ a b : String, '-' ∉ a.toList → '-' ∉ b.toList → css a = css b → a = b) ∧
    (∀ a b : String, css a = css b ↔ camel a = camel b) ∧
    (∀ name : String, (∀ c ∈ (css name).toList, c.isUpper = false) ∧ css (css name) = css name) ∧
    ∀ a b : String, css (a ++ b) = css a ++ css b := by
  refine ⟨fun a b ha hb h => ?_, fun a b => css_eq_css_iff, fun name => ?_, css_append⟩
  · have hcamel := css_eq_css_iff.1 h
    rwa [camel_eq_self ha, camel_eq_self hb] at hcamel
  · exact ⟨fun c => isUpper_of_mem_css, css_eq_self fun c => isUpper_of_mem_css⟩

theorem css_keeps_apart_acronym :
    '-' ∉ "XMLÄHttp2".toList ∧ '-' ∉ "xMLÄhttp2".toList ∧
      css "XMLÄHttp2" ≠ css "xMLÄhttp2" ∧ css "XMLÄHttp2" = "-x-m-lÄ-http2" := by
  have hfirst : '-' ∉ "XMLÄHttp2".toList := by decide
  have hsecond : '-' ∉ "xMLÄhttp2".toList := by decide
  refine ⟨hfirst, hsecond, fun h => ?_, by decide⟩
  exact absurd (css_keeps_apart.1 _ _ hfirst hsecond h) (by decide)

end AtomicCss.PropertyName
