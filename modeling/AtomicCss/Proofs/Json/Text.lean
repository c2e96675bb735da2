import AtomicCss.Json
import AtomicCss.Proofs.Json.Values

/-!
# Texts as they are written

A string may be written in more than one way: each character by itself, by an escape, or by its code.
Whatever spells every character in one of its ways (`Spells`) spells strings and lists of strings
(`Spells.stringText`, `Spells.stringsText`), so what is known of a text of the grammar is known of
the compact text too. A whole text is read as the value in it (`parse_of_gives`).
-/

namespace AtomicCss.Json

/-- Every character is written in one of its ways. -/
def Spells (spell : Char → List Char) : Prop := ∀ c, CharText c (spell c)

/-! ## Characters -/

theorem unitText_of_control : ∀ n < 32, UnitText n (Text.hexadecimalPadded 4 n) := by
  unfold UnitText
  decide

/-- The characters that are escaped by a letter. -/
def lettered : List Char := ['"', '\\', '\x08', '\x0c', '\n', '\r', '\t']

theorem escapeChar_of_control {c : Char} (h : c ∉ lettered) (hc : c.toNat < 32) :
    escapeChar c = '\\' :: 'u' :: Text.hexadecimalPadded 4 c.toNat := by
  simp only [lettered, List.mem_cons, List.not_mem_nil, or_false, not_or] at h
  simp only [escapeChar, h, hc, if_true, if_false]

theorem escapeChar_of_plain {c : Char} (h : c ∉ lettered) (hc : ¬ c.toNat < 32) :
    escapeChar c = [c] := by
  simp only [lettered, List.mem_cons, List.not_mem_nil, or_false, not_or] at h
  simp only [escapeChar, h, hc, if_false]

theorem spells_escapeChar : Spells escapeChar := by
  intro c
  by_cases hl : c ∈ lettered
  · simp only [lettered, List.mem_cons, List.not_mem_nil, or_false] at hl
    rcases hl with rfl | rfl | rfl | rfl | rfl | rfl | rfl
    all_goals exact .letter (by decide)
  by_cases hc : c.toNat < 32
  · rw [escapeChar_of_control hl hc]
    exact .unit (unitText_of_control c.toNat hc)
  · rw [escapeChar_of_plain hl hc]
    have hne : ∀ d ∈ lettered, c ≠ d := fun d hd he => hl (he ▸ hd)
    exact .plain (Nat.le_of_not_lt hc) (hne _ (by decide)) (hne _ (by decide))

/-! ## Strings -/

/-- A string in quotes, spelled in some way. -/
def quotedBy (spell : Char → List Char) (s : String) : List Char :=
  '"' :: (s.toList.flatMap spell ++ ['"'])

theorem Spells.bodyText {spell : Char → List Char} (h : Spells spell) (cs : List Char) :
    BodyText cs (cs.flatMap spell) := by
  induction cs with
  | nil => exact .nil
  | cons c cs ih => exact .cons (h c) ih

theorem Spells.stringText {spell : Char → List Char} (h : Spells spell) (s : String) :
    StringText s (quotedBy spell s) :=
  ⟨_, h.bodyText s.toList, rfl⟩

theorem toList_quote (s : String) : (quote s).toList = quotedBy escapeChar s := by
  rw [quote, String.toList_ofList, quotedBy, List.cons_append]

/-! ## Lists of strings -/

/-- A text with nothing around it. -/
def compact (t : List Char) : Spaced := ⟨[], t, []⟩

theorem compact_blank (t : List Char) : (compact t).Blank := ⟨blanks_nil, blanks_nil⟩

theorem compact_written (t : List Char) : (compact t).written = t := by
  rw [Spaced.written, compact, List.nil_append, List.append_nil]

/-- The array of the strings, spelled in some way and without blanks. -/
def listText (spell : Char → List Char) (ss : List String) : List Char :=
  arrayText [] (ss.map fun s => compact (quotedBy spell s))

theorem listText_eq (spell : Char → List Char) (ss : List String) :
    listText spell ss = ['['] ++ ([','].intercalate (ss.map (quotedBy spell)) ++ [']']) := by
  have hitems : (ss.map fun s => compact (quotedBy spell s)).map Spaced.written =
      ss.map (quotedBy spell) := by
    rw [List.map_map]
    exact List.map_congr_left fun s _ => compact_written _
  rw [listText, arrayText, hitems]
  rfl

theorem Spells.stringsText {spell : Char → List Char} (h : Spells spell) (ss : List String) :
    StringsText ss (listText spell ss) := by
  refine ⟨[], _, blanks_nil, fun i hi => ?_, ?_, rfl⟩
  · obtain ⟨s, -, rfl⟩ := List.mem_map.1 hi
    exact compact_blank _
  · rw [List.forall₂_map_right_iff]
    exact List.forall₂_same.2 fun s _ => h.stringText s

theorem toList_renderItems (ss : List String) :
    (renderItems (ss.map .string)).toList = [','].intercalate (ss.map (quotedBy escapeChar)) := by
  induction ss with
  | nil => rfl
  | cons s rest ih =>
    cases rest with
    | nil =>
      rw [List.map_singleton, List.map_singleton, List.intercalate_singleton]
      exact toList_quote s
    | cons t rest =>
      show (quote s ++ "," ++ renderItems ((t :: rest).map .string)).toList = _
      rw [String.toList_append, String.toList_append, ih, toList_quote, List.map_cons,
        List.map_cons, List.map_cons, List.intercalate_cons_cons]
      rfl

/-! ## Objects -/

/-- A member as it is written, without blanks. -/
def compactMember (name : String) (t : List Char) : Member :=
  ⟨name, compact (quotedBy escapeChar name), compact t⟩

theorem compactMember_labelled (name : String) (t : List Char) : (compactMember name t).Labelled :=
  ⟨spells_escapeChar.stringText name, compact_blank _, compact_blank _⟩

theorem compactMember_written (name : String) (t : List Char) :
    (compactMember name t).written = quotedBy escapeChar name ++ ':' :: t := by
  rw [Member.written, compactMember, compact_written, compact_written]

theorem objectText_compact {members : List (String × List Char)} {text : String}
    (hvalues : ∀ m ∈ members, ValueText m.2)
    (htext : text.toList = objectText [] (members.map fun m => compactMember m.1 m.2)) :
    ObjectText (members.map fun m => compactMember m.1 m.2) text := by
  refine ⟨[], [], [], blanks_nil, blanks_nil, blanks_nil, fun m hm => ?_, ?_⟩
  · obtain ⟨pair, hpair, rfl⟩ := List.mem_map.1 hm
    exact ⟨compactMember_labelled _ _, hvalues pair hpair⟩
  · rw [htext, List.append_nil, List.nil_append]

/-! ## Whole texts -/

/-- A value with blanks around it is read as this value, if it is read as this at every place. -/
theorem parse_of_gives {α : Type} {read : (steps : Nat) → Reader α} {text : String}
    {before t behind : List Char} {out : Except Failure α} (hbefore : Blanks before)
    (hbehind : Blanks behind) (htext : text.toList = before ++ (t ++ behind))
    (h : Gives (read (stepsFor text.toList)) t out) : parse read text = out := by
  have hstops : Stops behind := by
    have := stops_nil.append hbehind
    rwa [List.append_nil] at this
  have hread := h before behind hbefore hstops
  rw [← htext] at hread
  have hrest : skipBlanks behind = [] := by
    have := skipBlanks_append hbehind []
    rwa [List.append_nil] at this
  unfold parse
  simp only [hread]
  cases out with
  | error e => rfl
  | ok x =>
    show (if (skipBlanks behind).isEmpty then pure x else throw Failure.malformed) = _
    rw [hrest]
    rfl

end AtomicCss.Json
