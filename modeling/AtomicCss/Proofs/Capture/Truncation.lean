import AtomicCss.Engine.Actions
import AtomicCss.Proofs.Capture.RoundTrip
import AtomicCss.Proofs.Json.Truncation

/-!
# A truncated capture is never accepted

Whatever part of a capture's text or of a payload arrives, it is refused for its end unless it is the
whole (`truncated_refused`). The members of a capture are read one after the other, and each of them
is refused for its end where it is cut (`Fields.readMember_tellsEnd`).
-/

namespace AtomicCss.Capture

open Json

/-! ## Members -/

/-- The value of the member is of the shape its name asks for. -/
def Asked (m : Member) : Prop :=
  m.name = "contents" ∧ (∃ s, StringText s m.value.text) ∨
    m.name = "ids" ∧ ∃ ss, StringsText ss m.value.text

theorem Asked.valueText {m : Member} (h : Asked m) : ValueText m.value.text := by
  rcases h with ⟨-, s, hs⟩ | ⟨-, ss, hss⟩
  · exact .string hs
  · exact hss.valueText

theorem fill_isSome {α : Type} {again : Failure} {field filled : Option α} {out : Except Failure α}
    (h : fill again field out = .ok filled) : ¬ field.isSome := by
  intro hsome
  rw [fill, if_pos hsome] at h
  cases h

namespace Fields

theorem readMember_tellsEnd {steps enough : Nat} {m : Member} (hlabel : m.Labelled) (hvalue : Asked m)
    {f g : Fields} (h : f.withMember enough m = .ok g) :
    TellsEnd steps (f.readMember steps m.name)
      (m.label.behind ++ ':' :: (m.value.before ++ m.value.text)) := by
  obtain ⟨-, ⟨-, hlabel⟩, hbefore, -⟩ := hlabel
  have hne := hvalue.valueText.begins.ne_nil
  rcases hvalue with ⟨hname, s, hs⟩ | ⟨hname, ss, hss⟩
  · obtain ⟨filled, hfill, -⟩ : ∃ filled, fill _ f.contents _ = .ok filled ∧ _ := by
      rwa [withMember, if_pos hname, map_eq_ok_iff] at h
    unfold readMember
    simp only [if_pos hname, if_neg (fill_isSome hfill)]
    exact ((hs.tellsEnd steps).afterColon stringValue_blanks hne hlabel hbefore).map _
  · have hother : m.name ≠ "contents" := by rw [hname]; decide
    obtain ⟨filled, hfill, -⟩ : ∃ filled, fill _ f.ids _ = .ok filled ∧ _ := by
      rwa [withMember, if_neg hother, if_pos hname, map_eq_ok_iff] at h
    unfold readMember
    simp only [if_neg hother, if_pos hname, if_neg (fill_isSome hfill)]
    exact ((hss.tellsEnd steps).afterColon arrayValue_blanks hne hlabel hbefore).map _

theorem withMember_congr {steps enough : Nat} {m : Member} (hvalue : Asked m)
    (hsteps : m.value.text.length < steps) (henough : m.value.text.length < enough) (f : Fields) :
    f.withMember steps m = f.withMember enough m := by
  rcases hvalue with ⟨hname, -⟩ | ⟨-, ss, hss⟩
  · rw [withMember, withMember, if_pos hname, if_pos hname]
  · have htaken : ∀ {n}, m.value.text.length < n → taken (readIds n) m.value.text = .ok ss :=
      fun hn => (hss.gives hn).taken_eq
    rw [withMember, withMember, htaken hsteps, htaken henough]

end Fields

/-! ## Objects -/

/-- An object from which a capture is read is refused for its end where it is cut. -/
theorem parse_object_cut {members : List Member} {w : List Char} (hw : Blanks w)
    (hmembers : ∀ m ∈ members, m.Labelled ∧ Asked m) {whole : String}
    (hwhole : whole.toList = objectText w members) {c : Capture} (hc : parse whole = .ok c)
    {text : String} (hcut : Cut text.toList whole.toList) : parse text = .error .endOfInput := by
  have hobject : ObjectText members whole := by
    refine ⟨[], w, [], blanks_nil, hw, blanks_nil, fun m hm => ?_, ?_⟩
    · exact ⟨(hmembers m hm).1, (hmembers m hm).2.valueText⟩
    · rw [hwhole, List.append_nil, List.nil_append]
  rw [parse_object hobject, bind_eq_ok_iff] at hc
  obtain ⟨f, hfields, -⟩ := hc
  have henough : ∀ m ∈ members, m.value.text.length < stepsFor whole.toList := fun m hm => by
    rw [hwhole]
    exact Nat.lt_succ_of_lt ((length_lt_objectText w members).2 m hm)
  refine parse_cut (t := objectText w members) (fun steps p hp hsteps => ?_) (hwhole ▸ hcut)
  rcases hp.cons with rfl | ⟨q, rfl, hq⟩
  · rfl
  rw [intercalate_eq_listed] at hq
  rw [List.length_cons] at hsteps
  have hread : readMembers (Fields.readMember steps) steps true ⟨none, none⟩ q =
      .error .endOfInput := by
    refine readMembers_cut (Fields.withMember (stepsFor whole.toList))
      (fun m hm => (hmembers m hm).1) ?_ ?_ hfields (Nat.le_refl steps) true hw hq (by omega)
    · intro m hm g rest hrest hshort
      rw [← Fields.withMember_congr (hmembers m hm).2 hshort (henough m hm)]
      exact Fields.readMember_eq (hmembers m hm).1 (hmembers m hm).2.valueText hshort g hrest
    · exact fun m hm g g' hg => Fields.readMember_tellsEnd (hmembers m hm).1 (hmembers m hm).2 hg
  show (readMembers (Fields.readMember steps) steps true ⟨none, none⟩ q >>= fun r =>
    r.1.capture >>= fun c => pure (c, r.2)) = _
  rw [hread]
  rfl

theorem parse_json_cut (c : Capture) {text : String} (h : Cut text.toList c.json.toList) :
    parse text = .error .endOfInput := by
  refine parse_object_cut blanks_nil ?_ (toList_json c) (parse_json c) h
  simp only [jsonMembers, List.map_cons, List.map_nil, List.forall_mem_cons]
  exact ⟨⟨compactMember_labelled _ _, .inl ⟨rfl, _, spells_escapeChar.stringText _⟩⟩,
    ⟨compactMember_labelled _ _, .inr ⟨rfl, _, spells_escapeChar.stringsText _⟩⟩,
    fun m hm => absurd hm List.not_mem_nil⟩

theorem parsePayload_cut (ids : List String) {text : String}
    (h : Cut text.toList (payload ids).toList) : parsePayload text = .error .endOfInput := by
  rw [toList_payload] at h
  have hread : Json.parse readIds text = .error .endOfInput :=
    parse_cut (fun steps => (spells_tagSafe.stringsText ids).tellsEnd steps) h
  rw [parsePayload, hread]
  rfl

/-- Only the whole text of a capture is read as a capture, and only a whole payload as identifiers,
each as what it was written from: every text that is cut somewhere before the end is refused for its
end. An engine that is to be rehydrated from it reports so and stays as it is. -/
theorem truncated_refused :
    (∀ c : Capture, parse c.json = .ok c ∧ ∀ text rest : String, c.json = text ++ rest → rest ≠ "" →
      parse text = .error .endOfInput ∧ ∀ e : Engine,
        (Engine.rehydrateText text e).result = .error (.unreadable .endOfInput) ∧
          (Engine.rehydrateText text e).engine = e) ∧
    ∀ ids : List String, parsePayload (payload ids) = .ok ⟨"", ids⟩ ∧
      ∀ text rest : String, payload ids = text ++ rest → rest ≠ "" →
        parsePayload text = .error .endOfInput := by
  constructor
  · refine fun c => ⟨parse_json c, fun text rest htext hrest => ?_⟩
    have hparse := parse_json_cut c (cut_toList htext hrest)
    refine ⟨hparse, fun e => ?_⟩
    have hrefused : Action.ofExcept ((parse text).mapError StyleFailure.unreadable) e =
        ⟨.error (.unreadable .endOfInput), e, []⟩ := by
      rw [hparse]
      rfl
    have herror := congrArg Outcome.result hrefused
    rw [Engine.rehydrateText, Action.bind_apply_of_error herror, hrefused]
    exact ⟨rfl, rfl⟩
  · refine fun ids => ⟨parsePayload_payload ids, fun text rest htext hrest => ?_⟩
    exact parsePayload_cut ids (cut_toList htext hrest)

-- The capture is cut between a backslash and its quote, the payload inside the code of a character.
theorem truncated_refused_escapes :
    parse "\x7b\"contents\":\"a\\" = .error .endOfInput ∧
      parsePayload "[\"\\u00" = .error .endOfInput :=
  ⟨((truncated_refused.1 ⟨"a\"b", ["c"]⟩).2 "\x7b\"contents\":\"a\\"
      "\"b\",\"ids\":[\"c\"]\x7d" (by decide) (by decide)).1,
    (truncated_refused.2 ["<"]).2 "[\"\\u00" "3c\"]" (by decide) (by decide)⟩

end AtomicCss.Capture
