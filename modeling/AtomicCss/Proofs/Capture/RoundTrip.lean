import AtomicCss.Proofs.Capture.Members

/-!
# Captures arrive as they were sent

What is written of a capture is in the grammar, so it is read back: the capture from its JSON text
(`parse_json`), its identifiers from the payload of a script element (`parsePayload_payload`). Inside
the element the characters are only spelled in another way (`spells_tagSafe`).
-/

namespace AtomicCss.Capture

open Json

/-! ## JSON -/

theorem toList_idsJson (ids : List String) : (idsJson ids).toList = listText escapeChar ids := by
  show ("[" ++ renderItems (ids.map .string) ++ "]").toList = _
  rw [String.toList_append, String.toList_append, toList_renderItems, listText_eq,
    List.append_assoc]
  rfl

/-- The members of a capture's JSON text. -/
def jsonMembers (c : Capture) : List Member :=
  [("contents", quotedBy escapeChar c.contents), ("ids", listText escapeChar c.ids)].map fun m =>
    compactMember m.1 m.2

theorem toList_json (c : Capture) : c.json.toList = objectText [] c.jsonMembers := by
  show ("\x7b" ++ (quote "contents" ++ ":" ++ quote c.contents ++ "," ++ (quote "ids" ++ ":" ++
    idsJson c.ids)) ++ "\x7d").toList = _
  simp only [jsonMembers, String.toList_append, toList_quote, toList_idsJson, objectText,
    List.map_cons, List.map_nil, compactMember_written, List.intercalate_cons_cons,
    List.intercalate_singleton, List.append_assoc, List.nil_append, List.cons_append]
  rfl

theorem objectText_json (c : Capture) : ObjectText c.jsonMembers c.json := by
  refine objectText_compact ?_ (toList_json c)
  simp only [List.forall_mem_cons]
  exact ⟨.string (spells_escapeChar.stringText _), (spells_escapeChar.stringsText _).valueText,
    fun m hm => absurd hm List.not_mem_nil⟩

theorem parse_json (c : Capture) : parse c.json = .ok c :=
  (parse_object_eq_ok_iff (objectText_json c)).2 ⟨_, _, rfl, spells_escapeChar.stringText _, rfl,
    spells_escapeChar.stringsText _⟩

/-! ## The script element -/

/-- A character of a string inside a script element. -/
def tagSafe (c : Char) : List Char := escapeTags (escapeChar c)

theorem escapeTags_of_not_mem {text : List Char} (h : '<' ∉ text) : escapeTags text = text := by
  induction text with
  | nil => rfl
  | cons c rest ih =>
    rw [List.mem_cons, not_or] at h
    show (if c = '<' then _ else [c]) ++ escapeTags rest = _
    rw [if_neg (Ne.symm h.1), ih h.2]
    rfl

theorem escapeTags_append (text more : List Char) :
    escapeTags (text ++ more) = escapeTags text ++ escapeTags more :=
  List.flatMap_append

theorem not_mem_escapeTags (text : List Char) : '<' ∉ escapeTags text := by
  intro h
  obtain ⟨c, -, hc⟩ := List.mem_flatMap.1 h
  split at hc
  · revert hc
    decide
  · next hne => exact hne (List.mem_singleton.1 hc).symm

theorem not_mem_escapeChar {c : Char} (h : c ≠ '<') : '<' ∉ escapeChar c := by
  by_cases hl : c ∈ lettered
  · simp only [lettered, List.mem_cons, List.not_mem_nil, or_false] at hl
    rcases hl with rfl | rfl | rfl | rfl | rfl | rfl | rfl
    all_goals decide
  by_cases hc : c.toNat < 32
  · have hall : ∀ n < 32, '<' ∉ '\\' :: 'u' :: Text.hexadecimalPadded 4 n := by decide
    rw [escapeChar_of_control hl hc]
    exact hall c.toNat hc
  · rw [escapeChar_of_plain hl hc, List.mem_singleton]
    exact Ne.symm h

theorem unitText_less : UnitText '<'.toNat ['0', '0', '3', 'c'] := ⟨rfl, rfl⟩

theorem spells_tagSafe : Spells tagSafe := by
  intro c
  by_cases h : c = '<'
  · subst h
    exact .unit unitText_less
  · rw [tagSafe, escapeTags_of_not_mem (not_mem_escapeChar h)]
    exact spells_escapeChar c

theorem escapeTags_quotedBy (s : String) :
    escapeTags (quotedBy escapeChar s) = quotedBy tagSafe s := by
  show escapeTags (['"'] ++ (s.toList.flatMap escapeChar ++ ['"'])) = _
  rw [escapeTags_append, escapeTags_append]
  show ['"'] ++ (escapeTags (s.toList.flatMap escapeChar) ++ ['"']) = _
  rw [escapeTags, List.flatMap_assoc]
  rfl

theorem escapeTags_intercalate (texts : List (List Char)) :
    escapeTags ([','].intercalate texts) = [','].intercalate (texts.map escapeTags) := by
  induction texts with
  | nil => rfl
  | cons t texts ih =>
    cases texts with
    | nil => rw [List.intercalate_singleton, List.map_singleton, List.intercalate_singleton]
    | cons u texts =>
      rw [List.intercalate_cons_cons, escapeTags_append, escapeTags_append, ih]
      simp only [List.map_cons, List.intercalate_cons_cons]
      rfl

/-- Escaping the tags of a list of strings is spelling its characters in another way. -/
theorem escapeTags_listText (ss : List String) :
    escapeTags (listText escapeChar ss) = listText tagSafe ss := by
  have hstrings : (ss.map (quotedBy escapeChar)).map escapeTags = ss.map (quotedBy tagSafe) := by
    rw [List.map_map]
    exact List.map_congr_left fun s _ => escapeTags_quotedBy s
  rw [listText_eq, listText_eq, escapeTags_append, escapeTags_append, escapeTags_intercalate,
    hstrings]
  rfl

theorem toList_payload (ids : List String) : (payload ids).toList = listText tagSafe ids := by
  rw [payload, String.toList_ofList, toList_idsJson, escapeTags_listText]

theorem parsePayload_payload (ids : List String) :
    parsePayload (payload ids) = .ok ⟨"", ids⟩ := by
  have hsteps : (listText tagSafe ids).length < stepsFor (payload ids).toList := by
    rw [toList_payload]
    exact Nat.lt_succ_self _
  have hread : Json.parse readIds (payload ids) = .ok ids := by
    refine parse_of_gives blanks_nil blanks_nil ?_ ((spells_tagSafe.stringsText ids).gives hsteps)
    rw [toList_payload, List.append_nil, List.nil_append]
  rw [parsePayload, hread]
  rfl

/-- What stands in an element whose tags are the only ones: the text behind the first `>` up to the
next `<`. -/
def elementContent (text : String) : String :=
  String.ofList (((text.toList.dropWhile (· ≠ '>')).drop 1).takeWhile (· ≠ '<'))

theorem elementContent_tags {opening body closing : String} {o r : List Char}
    (ho : opening.toList = o ++ ['>']) (htag : '>' ∉ o) (hc : closing.toList = '<' :: r)
    (hbody : '<' ∉ body.toList) : elementContent (opening ++ body ++ closing) = body := by
  have hopen : ∀ x ∈ o, decide (x ≠ '>') = true :=
    fun x hx => decide_eq_true fun he => htag (he ▸ hx)
  have hin : ∀ x ∈ body.toList, decide (x ≠ '<') = true :=
    fun x hx => decide_eq_true fun he => hbody (he ▸ hx)
  rw [elementContent, String.toList_append, String.toList_append, ho, hc, List.append_assoc,
    List.append_assoc, List.dropWhile_append_of_pos hopen, List.singleton_append,
    List.dropWhile_cons_of_neg (by decide), List.drop_one, List.tail_cons,
    List.takeWhile_append_of_pos hin, List.takeWhile_cons_of_neg (by decide), List.append_nil,
    String.ofList_toList]

theorem not_mem_payload (ids : List String) : '<' ∉ (payload ids).toList := by
  rw [payload, String.toList_ofList]
  exact not_mem_escapeTags _

theorem elementContent_hydrationScript (c : Capture) :
    elementContent c.hydrationScript = payload c.ids :=
  elementContent_tags (o := ("<script type=\"application/json\" id=\"" ++ scriptId ++ "\"").toList)
    (r := "/script>".toList) (by decide) (by decide) (by decide)
    (not_mem_payload c.ids)

/-! ## Objects -/

/-- A capture is read from its own text, and from the objects that have each of its two names once,
with values that spell what it holds; what else stands in the object, and in which order, does not
count. An object in which one of the names comes twice or is missing is refused, and if the values
are what their names ask for, it is refused for that. -/
theorem parse_named_once :
    (∀ c : Capture, parse c.json = .ok c) ∧
    ∀ members text, ObjectText members text →
      (∀ c : Capture, parse text = .ok c ↔
        ∃ v w, valuesOf "contents" members = [v] ∧ StringText c.contents v ∧
          valuesOf "ids" members = [w] ∧ StringsText c.ids w) ∧
      ((∃ name ∈ ["contents", "ids"], (valuesOf name members).length ≠ 1) →
        ∃ failure, parse text = .error failure ∧
          ((∀ v ∈ valuesOf "contents" members, ∃ s, StringText s v) →
            (∀ w ∈ valuesOf "ids" members, ∃ ss, StringsText ss w) →
            ∃ name ∈ ["contents", "ids"],
              2 ≤ (valuesOf name members).length ∧ failure = .duplicateField name ∨
                valuesOf name members = [] ∧ failure = .missingField name)) := by
  refine ⟨parse_json, fun members text h => ⟨fun c => parse_object_eq_ok_iff h, ?_⟩⟩
  rintro ⟨name, hname, hcount⟩
  cases hparse : parse text with
  | error failure =>
    exact ⟨failure, rfl, fun hcontents hids => parse_object_eq_error h hcontents hids hparse⟩
  | ok c =>
    obtain ⟨v, w, hv, -, hw, -⟩ := (parse_object_eq_ok_iff h).1 hparse
    simp only [List.mem_cons, List.not_mem_nil, or_false] at hname
    rcases hname with rfl | rfl
    · exact absurd (congrArg List.length hv) hcount
    · exact absurd (congrArg List.length hw) hcount

-- An unknown member holds brackets and a number, and the identifier is written by its code.
theorem parse_named_once_nested :
    parse " \x7b\"x\":[\x7b\"y\":null\x7d,-1e9],\"ids\" :[\"\\u003c\"],\"contents\":\"r\"\x7d" =
        .ok ⟨"r", ["<"]⟩ ∧
      parse "\x7b\"ids\":[],\"contents\":\"\",\"ids\":[]\x7d" =
        .error (.duplicateField "ids") := by
  constructor
  · have hnumber : NumberText ⟨true, ['1'], none, some (false, ['9'])⟩ "-1e9".toList :=
      .negative ⟨⟨List.cons_ne_nil _ _, List.forall_mem_singleton.2 rfl⟩, by simp⟩ .none
        (.unsigned (.inl rfl) ⟨List.cons_ne_nil _ _, List.forall_mem_singleton.2 rfl⟩)
    have hunknown : ValueText (arrayText []
        [compact (objectText [] [compactMember "y" "null".toList]), compact "-1e9".toList]) := by
      refine .array blanks_nil ?_ ?_ <;> simp only [List.forall_mem_cons]
      · exact ⟨compact_blank _, compact_blank _, fun i hi => absurd hi List.not_mem_nil⟩
      · refine ⟨.object blanks_nil ?_ ?_, .number hnumber, fun i hi => absurd hi List.not_mem_nil⟩
        · exact List.forall_mem_singleton.2 (compactMember_labelled _ _)
        · exact List.forall_mem_singleton.2 .null
    have hids := spells_tagSafe.stringsText ["<"]
    have hcontents := spells_escapeChar.stringText "r"
    have hobject : ObjectText
        [compactMember "x" (arrayText []
            [compact (objectText [] [compactMember "y" "null".toList]), compact "-1e9".toList]),
          ⟨"ids", ⟨[], quotedBy escapeChar "ids", [' ']⟩, compact (listText tagSafe ["<"])⟩,
          compactMember "contents" (quotedBy escapeChar "r")]
        " \x7b\"x\":[\x7b\"y\":null\x7d,-1e9],\"ids\" :[\"\\u003c\"],\"contents\":\"r\"\x7d" := by
      have hblank : Blanks [' '] := List.forall_mem_singleton.2 rfl
      refine ⟨[' '], [], [], hblank, blanks_nil, blanks_nil, ?_, by decide⟩
      simp only [List.forall_mem_cons]
      exact ⟨⟨compactMember_labelled _ _, hunknown⟩, ⟨⟨spells_escapeChar.stringText _,
        ⟨blanks_nil, hblank⟩, compact_blank _⟩, hids.valueText⟩,
        ⟨compactMember_labelled _ _, .string hcontents⟩, fun m hm => absurd hm List.not_mem_nil⟩
    exact ((parse_named_once.2 _ _ hobject).1 ⟨"r", ["<"]⟩).2 ⟨_, _, rfl, hcontents, rfl, hids⟩
  · have hids := spells_escapeChar.stringsText []
    have hcontents := spells_escapeChar.stringText ""
    have hobject : ObjectText
        ([("ids", listText escapeChar []), ("contents", quotedBy escapeChar ""),
          ("ids", listText escapeChar [])].map fun m => compactMember m.1 m.2)
        "\x7b\"ids\":[],\"contents\":\"\",\"ids\":[]\x7d" := by
      refine objectText_compact ?_ (by decide)
      simp only [List.forall_mem_cons]
      exact ⟨hids.valueText, .string hcontents, hids.valueText,
        fun m hm => absurd hm List.not_mem_nil⟩
    obtain ⟨failure, hfailure, hreason⟩ := (parse_named_once.2 _ _ hobject).2
      ⟨"ids", by simp, by decide⟩
    obtain ⟨name, hname, hreason⟩ := hreason
      (List.forall_mem_singleton.2 ⟨_, hcontents⟩)
      (List.forall_mem_cons.2 ⟨⟨_, hids⟩, List.forall_mem_singleton.2 ⟨_, hids⟩⟩)
    rw [hfailure]
    simp only [List.mem_cons, List.not_mem_nil, or_false] at hname
    rcases hname with rfl | rfl
    · exact absurd hreason (by simp [valuesOf, compactMember])
    · simpa [valuesOf, compactMember] using hreason

end AtomicCss.Capture
