import AtomicCss.Server
import AtomicCss.Proofs.Capture.RoundTrip

/-!
# What is captured stays in its element

The head of a page is two elements with captured text inside, and an element ends where a closing tag
begins, whoever wrote it. `closings` are the places of a text at which `</` stands. Escaping leaves
none in the rules (`closings_escapeClosing`) and changes nothing else in them (`exists_pieces`); none
comes about where one part of the head meets the next (`closings_append`). So the two closing tags
are the only ones in the head (`Page.head_closings`), and what stands between the tags of the script
element is read as the identifiers (`hydrationScript_carries_ids`).
-/

namespace AtomicCss

namespace Capture

/-! ## Where closing tags begin -/

/-- The places of a text at which `</` stands. -/
def closings (text : List Char) : List Nat :=
  (List.range text.length).filter fun i => ['<', '/'] <+: text.drop i

theorem closing_prefix_cons {c : Char} {rest : List Char} :
    ['<', '/'] <+: c :: rest ↔ c = '<' ∧ rest.head? = some '/' := by
  rw [List.cons_prefix_cons]
  refine and_congr eq_comm ?_
  cases rest with
  | nil => simp
  | cons d more =>
    rw [List.cons_prefix_cons, List.head?_cons, Option.some.injEq]
    exact (and_iff_left List.nil_prefix).trans eq_comm

@[simp] theorem closings_nil : closings [] = [] := rfl

theorem closings_cons (c : Char) (rest : List Char) :
    closings (c :: rest) =
      (if c = '<' ∧ rest.head? = some '/' then [0] else []) ++ (closings rest).map Nat.succ := by
  have hrest : ((fun i => decide (['<', '/'] <+: (c :: rest).drop i)) ∘ Nat.succ) =
      fun i => decide (['<', '/'] <+: rest.drop i) := rfl
  rw [closings, List.length_cons, List.range_succ_eq_map, List.filter_cons, List.filter_map, hrest,
    ← closings]
  simp only [List.drop_zero, closing_prefix_cons, decide_eq_true_eq]
  split <;> rfl

theorem closings_cons_eq_nil_iff {c : Char} {rest : List Char} :
    closings (c :: rest) = [] ↔ ¬ (c = '<' ∧ rest.head? = some '/') ∧ closings rest = [] := by
  rw [closings_cons, List.append_eq_nil_iff, List.map_eq_nil_iff]
  simp

theorem closings_eq_nil_iff {text : List Char} :
    closings text = [] ↔ ¬ ['<', '/'] <:+: text := by
  induction text with
  | nil => simp
  | cons c rest ih =>
    rw [closings_cons_eq_nil_iff, ih, List.infix_cons_iff, closing_prefix_cons, not_or]

theorem closings_of_not_mem {text : List Char} (h : '<' ∉ text) : closings text = [] :=
  closings_eq_nil_iff.2 fun hin => h (hin.subset List.mem_cons_self)

/-- Where two texts meet no `</` comes about, unless one ends and the other begins with half of it. -/
theorem closings_append {text more : List Char}
    (h : text.getLast? = some '<' → more.head? ≠ some '/') :
    closings (text ++ more) = closings text ++ (closings more).map (text.length + ·) := by
  induction text with
  | nil => simp
  | cons c rest ih =>
    have hshift : (closings more).map ((c :: rest).length + ·) =
        ((closings more).map (rest.length + ·)).map Nat.succ := by
      rw [List.map_map]
      refine List.map_congr_left fun i _ => ?_
      simp only [Function.comp_apply, List.length_cons]
      omega
    rw [List.cons_append, closings_cons, closings_cons, hshift]
    cases rest with
    | nil =>
      have hmeet : ¬ (c = '<' ∧ more.head? = some '/') := fun hm => h (hm.1 ▸ rfl) hm.2
      simp [hmeet]
    | cons d rest =>
      rw [ih (by rwa [List.getLast?_cons_cons] at h), List.map_append, List.append_assoc]
      rfl

/-! ## The rules -/

theorem head?_escapeClosing (text : List Char) : (escapeClosing text).head? = text.head? := by
  fun_cases escapeClosing text <;> rfl

theorem closings_escapeClosing (text : List Char) : closings (escapeClosing text) = [] := by
  induction text using escapeClosing.induct with
  | case1 => rfl
  | case2 rest ih =>
    rw [escapeClosing]
    simp [closings_cons_eq_nil_iff, ih]
  | case3 c rest hother ih =>
    rw [escapeClosing, closings_cons_eq_nil_iff, head?_escapeClosing]
    · refine ⟨fun h => ?_, ih⟩
      obtain ⟨more, hmore⟩ := List.head?_eq_some_iff.1 h.2
      exact hother more h.1 hmore
    · exact hother

theorem exists_append_intercalate (sep first : List Char) (more : List (List Char)) :
    ∃ tail, sep.intercalate (first :: more) = first ++ tail := by
  cases more with
  | nil => exact ⟨[], by simp⟩
  | cons p more => exact ⟨_, by rw [List.intercalate_cons_cons, List.append_assoc]⟩

theorem intercalate_cons_front (sep first : List Char) (more : List (List Char)) (c : Char) :
    sep.intercalate ((c :: first) :: more) = c :: sep.intercalate (first :: more) := by
  cases more with
  | nil => simp
  | cons p more => simp [List.intercalate_cons_cons]

/-- A text is made of pieces without `</` and the `</` between them. Escaping changes only what stands
between the pieces. -/
theorem exists_pieces (text : List Char) :
    ∃ first more, (∀ piece ∈ first :: more, closings piece = []) ∧
      text = ['<', '/'].intercalate (first :: more) ∧
      escapeClosing text = ['<', '\\', '/'].intercalate (first :: more) := by
  induction text using escapeClosing.induct with
  | case1 => exact ⟨[], [], by simp, rfl, rfl⟩
  | case2 rest ih =>
    obtain ⟨first, more, hpieces, htext, hescaped⟩ := ih
    refine ⟨[], first :: more, List.forall_mem_cons.2 ⟨rfl, hpieces⟩, ?_, ?_⟩
    · rw [List.intercalate_cons_cons, ← htext]
      rfl
    · rw [escapeClosing, List.intercalate_cons_cons, ← hescaped]
      rfl
  | case3 c rest hother ih =>
    obtain ⟨first, more, hpieces, htext, hescaped⟩ := ih
    obtain ⟨hfirst, hmore⟩ := List.forall_mem_cons.1 hpieces
    refine ⟨c :: first, more, List.forall_mem_cons.2 ⟨?_, hmore⟩, ?_, ?_⟩
    · refine closings_cons_eq_nil_iff.2 ⟨fun h => ?_, hfirst⟩
      -- A slash at the front of the piece is one at the front of the rest.
      obtain ⟨behind, rfl⟩ := List.head?_eq_some_iff.1 h.2
      obtain ⟨tail, htail⟩ := exists_append_intercalate ['<', '/'] ('/' :: behind) more
      exact hother _ h.1 (htext.trans htail)
    · rw [intercalate_cons_front, ← htext]
    · rw [escapeClosing, intercalate_cons_front, ← hescaped]
      exact hother

-- The pieces are a `<` and two empty ones.
example : escapeClosing "<</</".toList = "<<\\/<\\/".toList := by decide

theorem toList_intercalate_ofList (sep : String) (pieces : List (List Char)) :
    (sep.intercalate (pieces.map String.ofList)).toList = sep.toList.intercalate pieces := by
  rw [String.toList_intercalate, List.map_map]
  congr 1
  exact List.map_id'' (fun _ => String.toList_ofList) pieces

/-- The captured rules as they stand in a style element. -/
def styleText (c : Capture) : String := String.ofList (escapeClosing c.contents.toList)

theorem styleText_pieces (c : Capture) :
    ∃ pieces, c.contents = "</".intercalate pieces ∧ c.styleText = "<\\/".intercalate pieces ∧
      ∀ piece ∈ pieces, ¬ "</".toList <:+: piece.toList := by
  obtain ⟨first, more, hpieces, htext, hescaped⟩ := exists_pieces c.contents.toList
  refine ⟨(first :: more).map String.ofList, ?_, ?_, fun piece hpiece => ?_⟩
  · apply String.toList_injective
    rw [toList_intercalate_ofList]
    exact htext
  · apply String.toList_injective
    rw [toList_intercalate_ofList, styleText, String.toList_ofList]
    exact hescaped
  · obtain ⟨chars, hchars, rfl⟩ := List.mem_map.1 hpiece
    apply closings_eq_nil_iff.1
    rw [String.toList_ofList]
    exact hpieces chars hchars

theorem closings_styleText (c : Capture) : closings c.styleText.toList = [] := by
  rw [styleText, String.toList_ofList]
  exact closings_escapeClosing _

/-! ## The head of a page -/

theorem closings_element {opening body closing : String} (hopening : closings opening.toList = [])
    (hlast : opening.toList.getLast? ≠ some '<') (hbody : closings body.toList = [])
    (hclosing : closings closing.toList = [0]) (hhead : closing.toList.head? ≠ some '/') :
    closings (opening ++ body ++ closing).toList = [(opening ++ body).length] := by
  have hinside : closings (opening ++ body).toList = [] := by
    rw [String.toList_append, closings_append fun h => absurd h hlast, hopening, hbody]
    rfl
  rw [String.toList_append, closings_append fun _ => hhead, hinside, hclosing, String.length_toList]
  rfl

end Capture

namespace Page

open Capture

def styleOpening : String := "<style data-renderer=\"astyle\" data-renderer-phase=\"server\">"

def scriptOpening : String := "<script type=\"application/json\" id=\"astyle-ids\">"

/-- A page's head is the style element and the script element, whatever was captured. The rules in
the one differ from the captured ones only in that every `</` has become `<\/`, so they hold none.
The identifiers in the other hold no `<`. So `</` stands in the head in two places, at the closing
tags of the two elements. -/
theorem head_closings {α : Type} (p : Page α) :
    p.head = styleOpening ++ p.css.styleText ++ "</style>" ++
      (scriptOpening ++ payload p.css.ids ++ "</script>") ∧
    (∃ pieces, p.css.contents = "</".intercalate pieces ∧
      p.css.styleText = "<\\/".intercalate pieces ∧
      ∀ piece ∈ pieces, ¬ "</".toList <:+: piece.toList) ∧
    ¬ "</".toList <:+: p.css.styleText.toList ∧
    '<' ∉ (payload p.css.ids).toList ∧
    closings p.head.toList =
      [(styleOpening ++ p.css.styleText).length,
        (styleOpening ++ p.css.styleText ++ "</style>" ++
          (scriptOpening ++ payload p.css.ids)).length] := by
  have hhead : p.head = styleOpening ++ p.css.styleText ++ "</style>" ++
      (scriptOpening ++ payload p.css.ids ++ "</script>") := rfl
  refine ⟨hhead, styleText_pieces p.css, closings_eq_nil_iff.1 (closings_styleText p.css),
    not_mem_payload p.css.ids, ?_⟩
  have hstyle : closings (styleOpening ++ p.css.styleText ++ "</style>").toList =
      [(styleOpening ++ p.css.styleText).length] :=
    closings_element (by decide) (by decide) (closings_styleText p.css)
      (by decide) (by decide)
  have hscript : closings (scriptOpening ++ payload p.css.ids ++ "</script>").toList =
      [(scriptOpening ++ payload p.css.ids).length] :=
    closings_element (by decide) (by decide)
      (closings_of_not_mem (not_mem_payload p.css.ids)) (by decide) (by decide)
  have hmeet : (scriptOpening ++ payload p.css.ids ++ "</script>").toList.head? ≠ some '/' := by
    have hfirst : scriptOpening.toList.head? = some '<' := by decide
    rw [String.toList_append, String.toList_append, List.append_assoc, List.head?_append, hfirst,
      Option.some_or]
    decide
  rw [hhead, String.toList_append, closings_append fun _ => hmeet, hstyle, hscript,
    String.length_toList, List.map_singleton, ← String.length_append]
  rfl

end Page

namespace Capture

/-- The script element is its two tags and a body, which is what stands between the first `>` and
the next `<`. The body is read as the identifiers of the capture, in their order, whatever characters
they have, and as nothing else. -/
theorem hydrationScript_carries_ids (c : Capture) :
    c.hydrationScript =
        Page.scriptOpening ++ elementContent c.hydrationScript ++ "</script>" ∧
      parsePayload (elementContent c.hydrationScript) = .ok ⟨"", c.ids⟩ := by
  rw [elementContent_hydrationScript]
  exact ⟨rfl, parsePayload_payload c.ids⟩

-- The identifier looks like an escape already.
example : payload ["\\u003c<"] = "[\"\\\\u003c\\u003c\"]" := by decide

end Capture

end AtomicCss
