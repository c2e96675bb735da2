import AtomicCss.Capture
import AtomicCss.Proofs.Json.Text
import Mathlib.Data.List.Induction

/-!
# A capture is read from its members

An object is read as a capture member by member, and of every member only its name and the text of
its value count: neither blanks nor what else stands in the object (`parse_object`). The fields hold
the values of the members with their names, and no name may come twice (`foldlM_withMember`). So a
capture is read if each of the two names stands once in the object, wherever it stands
(`parse_object_eq_ok_iff`).
-/

namespace AtomicCss.Capture

open Json

/-! ## One member -/

/-- A field gets its value, unless it has one. -/
def fill {α : Type} (again : Failure) (field : Option α) (out : Except Failure α) :
    Except Failure (Option α) :=
  if field.isSome then .error again else out.map some

/-- What a field has been given, if anything. -/
def given {α : Type} (field : Option α) : List (Except Failure α) := field.toList.map .ok

theorem given_inj {α : Type} {field other : Option α} :
    given field = given other ↔ field = other := by
  cases field <;> cases other <;> simp [given]

theorem exists_given {α : Type} {field : Option α} {outs more : List (Except Failure α)}
    (h : given field = outs ++ more) : ∃ other, given other = outs := by
  cases outs with
  | nil => exact ⟨none, rfl⟩
  | cons out outs =>
    refine ⟨field, h.trans ?_⟩
    have hlength := congrArg List.length h
    have hone : (given field).length ≤ 1 := by cases field <;> simp [given]
    rw [List.length_append, List.length_cons] at hlength
    have hmore : more = [] := List.eq_nil_of_length_eq_zero (by omega)
    rw [hmore, List.append_nil]

theorem fill_eq_ok_iff {α : Type} {again : Failure} {field filled : Option α}
    {out : Except Failure α} :
    fill again field out = .ok filled ↔ given filled = given field ++ [out] := by
  cases field with
  | none => cases out <;> cases filled <;> simp [fill, given, Except.map, eq_comm]
  | some x => cases filled <;> simp [fill, given]

theorem fill_eq_error {α : Type} {again failure : Failure} {field : Option α}
    {out : Except Failure α} (h : fill again field out = .error failure) :
    field.isSome ∧ failure = again ∨ out = .error failure := by
  cases field with
  | none => cases out <;> simp_all [fill, Except.map]
  | some x => simp_all [fill]

namespace Fields

/-- The fields after a member. -/
def withMember (steps : Nat) (f : Fields) (m : Member) : Except Failure Fields :=
  if m.name = "contents" then
    (fill (.duplicateField m.name) f.contents (taken stringValue m.value.text)).map fun s =>
      { f with contents := s }
  else if m.name = "ids" then
    (fill (.duplicateField m.name) f.ids (taken (readIds steps) m.value.text)).map fun ss =>
      { f with ids := ss }
  else .ok f

theorem readMember_eq {steps : Nat} {m : Member} (hlabel : m.Labelled)
    (hvalue : ValueText m.value.text) (hsteps : m.value.text.length < steps) (f : Fields)
    {rest : List Char} (hrest : Stops rest) :
    f.readMember steps m.name
        (m.label.behind ++ ':' :: (m.value.before ++ (m.value.text ++ rest))) =
      (f.withMember steps m).map fun g => (g, rest) := by
  obtain ⟨-, ⟨-, hlabel⟩, hbefore, -⟩ := hlabel
  have hcontents := hvalue.taken_stringValue.1.afterColon hlabel hbefore hrest
  have hids := (hvalue.taken_stringsValue hsteps).1.afterColon hlabel hbefore hrest
  have hother := (hvalue.gives_skipValue hsteps).afterColon hlabel hbefore hrest
  unfold readMember withMember readIds
  split
  · rw [hcontents, fill]
    split
    · rfl
    · cases taken stringValue m.value.text <;> rfl
  · split
    · rw [hids, fill]
      split
      · rfl
      · cases taken (arrayValue steps stringValue) m.value.text <;> rfl
    · rw [hother]
      rfl

end Fields

/-! ## The members of an object -/

/-- The texts of the values of the members with this name. -/
def valuesOf (name : String) (members : List Member) : List (List Char) :=
  (members.filter fun m => m.name = name).map fun m => m.value.text

theorem valuesOf_append (name : String) (members more : List Member) :
    valuesOf name (members ++ more) = valuesOf name members ++ valuesOf name more := by
  rw [valuesOf, List.filter_append, List.map_append]
  rfl

theorem valuesOf_singleton (name : String) (m : Member) :
    valuesOf name [m] = if m.name = name then [m.value.text] else [] := by
  rw [valuesOf, List.filter_cons]
  simp only [decide_eq_true_eq]
  split <;> rfl

theorem mem_valuesOf {name : String} {members : List Member} {v : List Char}
    (h : v ∈ valuesOf name members) : ∃ m ∈ members, m.value.text = v := by
  obtain ⟨m, hm, rfl⟩ := List.mem_map.1 h
  exact ⟨m, (List.mem_filter.1 hm).1, rfl⟩

theorem map_eq_ok_iff {α β : Type} {x : Except Failure α} {f : α → β} {b : β} :
    x.map f = .ok b ↔ ∃ a, x = .ok a ∧ f a = b := by
  cases x <;> simp [Except.map]

theorem bind_eq_ok_iff {α β : Type} {x : Except Failure α} {f : α → Except Failure β} {b : β} :
    (x >>= f) = .ok b ↔ ∃ a, x = .ok a ∧ f a = .ok b := by
  cases x <;> simp [bind, Except.bind]

theorem withMember_eq_ok_iff {steps : Nat} {g f : Fields} {m : Member} :
    g.withMember steps m = .ok f ↔
      given f.contents = given g.contents ++ (valuesOf "contents" [m]).map (taken stringValue) ∧
        given f.ids = given g.ids ++ (valuesOf "ids" [m]).map (taken (readIds steps)) := by
  obtain ⟨contents, ids⟩ := f
  rw [valuesOf_singleton, valuesOf_singleton, Fields.withMember]
  by_cases hcontents : m.name = "contents"
  · have hids : m.name ≠ "ids" := by rw [hcontents]; decide
    rw [if_pos hcontents, if_pos hcontents, if_neg hids, map_eq_ok_iff]
    simp only [fill_eq_ok_iff, Fields.mk.injEq, List.map_nil, List.append_nil, List.map_singleton,
      given_inj]
    constructor
    · rintro ⟨s, hs, rfl, rfl⟩
      exact ⟨hs, rfl⟩
    · rintro ⟨hs, rfl⟩
      exact ⟨contents, hs, rfl, rfl⟩
  rw [if_neg hcontents, if_neg hcontents]
  by_cases hids : m.name = "ids"
  · rw [if_pos hids, if_pos hids, map_eq_ok_iff]
    simp only [fill_eq_ok_iff, Fields.mk.injEq, List.map_nil, List.append_nil, List.map_singleton,
      given_inj]
    constructor
    · rintro ⟨ss, hss, rfl, rfl⟩
      exact ⟨rfl, hss⟩
    · rintro ⟨rfl, hss⟩
      exact ⟨ids, hss, rfl, rfl⟩
  · rw [if_neg hids, if_neg hids, List.map_nil, List.map_nil, List.append_nil, List.append_nil,
      given_inj, given_inj]
    constructor
    · intro h
      cases h
      exact ⟨rfl, rfl⟩
    · rintro ⟨rfl, rfl⟩
      rfl

theorem foldlM_withMember {steps : Nat} {members : List Member} {f : Fields} :
    members.foldlM (Fields.withMember steps) ⟨none, none⟩ = .ok f ↔
      given f.contents = (valuesOf "contents" members).map (taken stringValue) ∧
        given f.ids = (valuesOf "ids" members).map (taken (readIds steps)) := by
  induction members using List.reverseRecOn generalizing f with
  | nil =>
    obtain ⟨contents, ids⟩ := f
    cases contents <;> cases ids <;> simp [valuesOf, given, pure, Except.pure]
  | append_singleton members m ih =>
    rw [List.foldlM_append, bind_eq_ok_iff]
    simp only [List.foldlM_cons, List.foldlM_nil, bind_pure, ih, withMember_eq_ok_iff,
      valuesOf_append, List.map_append]
    constructor
    · rintro ⟨g, ⟨hgc, hgi⟩, hfc, hfi⟩
      exact ⟨hgc ▸ hfc, hgi ▸ hfi⟩
    · rintro ⟨hfc, hfi⟩
      obtain ⟨contents, hcontents⟩ := exists_given hfc
      obtain ⟨ids, hids⟩ := exists_given hfi
      exact ⟨⟨contents, ids⟩, ⟨hcontents, hids⟩, hcontents.symm ▸ hfc, hids.symm ▸ hfi⟩

/-! ## Objects -/

theorem read_blanks (steps : Nat) {w : List Char} (h : Blanks w) (text : List Char) :
    read steps (w ++ text) = read steps text := by
  unfold read
  rw [skipBlanks_append h]

theorem gives_read {members : List Member} {w : List Char} (hw : Blanks w)
    (hmembers : ∀ m ∈ members, m.Labelled ∧ ValueText m.value.text) {steps : Nat}
    (hsteps : (objectText w members).length < steps) :
    Gives (read steps) (objectText w members)
      (members.foldlM (Fields.withMember steps) ⟨none, none⟩ >>= Fields.capture) := by
  refine Gives.of_blanks (read_blanks steps) fun behind _ => ?_
  obtain ⟨hcount, hshort⟩ := length_lt_objectText w members
  have hread := readMembers_listed (fun m hm => (hmembers m hm).1)
    (fun m hm (f : Fields) rest hrest => Fields.readMember_eq (hmembers m hm).1 (hmembers m hm).2
      (Nat.lt_trans (hshort m hm) hsteps) f hrest)
    (Nat.lt_trans hcount hsteps) true hw ⟨none, none⟩ behind
  rw [← intercalate_eq_listed] at hread
  rw [objectText, List.cons_append, List.append_assoc, List.append_assoc, List.singleton_append]
  show (readMembers (Fields.readMember steps) steps true ⟨none, none⟩ _ >>= fun r =>
    r.1.capture >>= fun c => pure (c, r.2)) = _
  rw [hread]
  cases members.foldlM (Fields.withMember steps) ⟨none, none⟩ with
  | error e => rfl
  | ok f =>
    show (f.capture >>= fun c => pure (c, behind)) = f.capture.map _
    cases f.capture <;> rfl

theorem parse_object {members : List Member} {text : String} (h : ObjectText members text) :
    parse text = (members.foldlM (Fields.withMember (stepsFor text.toList)) ⟨none, none⟩ >>=
      Fields.capture) := by
  obtain ⟨before, w, behind, hbefore, hw, hbehind, hmembers, htext⟩ := h
  refine parse_of_gives hbefore hbehind htext (gives_read hw hmembers ?_)
  rw [stepsFor, htext, List.length_append, List.length_append]
  omega

theorem capture_eq_ok_iff {f : Fields} {c : Capture} :
    f.capture = .ok c ↔ f = ⟨some c.contents, some c.ids⟩ := by
  obtain ⟨contents, ids⟩ := f
  obtain ⟨contents', ids'⟩ := c
  cases contents <;> cases ids <;> simp [Fields.capture]

theorem values_of_objectText {members : List Member} {text : String} (h : ObjectText members text)
    {name : String} {v : List Char} (hv : v ∈ valuesOf name members) :
    ValueText v ∧ v.length < stepsFor text.toList := by
  obtain ⟨before, w, behind, -, -, -, hmembers, htext⟩ := h
  obtain ⟨m, hm, rfl⟩ := mem_valuesOf hv
  have hshort := (length_lt_objectText w members).2 m hm
  refine ⟨(hmembers m hm).2, ?_⟩
  rw [stepsFor, htext, List.length_append, List.length_append]
  omega

/-- A capture is read if each of its two names stands once in the object. -/
theorem parse_object_eq_ok_iff {members : List Member} {text : String}
    (h : ObjectText members text) {c : Capture} :
    parse text = .ok c ↔
      ∃ v w, valuesOf "contents" members = [v] ∧ StringText c.contents v ∧
        valuesOf "ids" members = [w] ∧ StringsText c.ids w := by
  have hstring : ∀ v ∈ valuesOf "contents" members,
      (taken stringValue v = .ok c.contents ↔ StringText c.contents v) := fun v hv =>
    (values_of_objectText h hv).1.taken_stringValue.2 c.contents
  have hstrings : ∀ w ∈ valuesOf "ids" members,
      (taken (readIds (stepsFor text.toList)) w = .ok c.ids ↔ StringsText c.ids w) := fun w hw =>
    ((values_of_objectText h hw).1.taken_stringsValue (values_of_objectText h hw).2).2 c.ids
  rw [parse_object h, bind_eq_ok_iff]
  simp only [capture_eq_ok_iff, exists_eq_right, foldlM_withMember]
  constructor
  · rintro ⟨hcontents, hids⟩
    obtain ⟨v, hv, hread⟩ := List.map_eq_singleton_iff.1 hcontents.symm
    obtain ⟨w, hw, hreads⟩ := List.map_eq_singleton_iff.1 hids.symm
    exact ⟨v, w, hv, (hstring v (by simp [hv])).1 hread, hw, (hstrings w (by simp [hw])).1 hreads⟩
  · rintro ⟨v, w, hv, hread, hw, hreads⟩
    rw [hv, hw, List.map_singleton, List.map_singleton, (hstring v (by simp [hv])).2 hread,
      (hstrings w (by simp [hw])).2 hreads]
    exact ⟨rfl, rfl⟩

/-! ## Refusals -/

/-- Why the members of an object are refused: a name comes twice, or a value is not what its name
asks for. -/
def Refused (steps : Nat) (members : List Member) (failure : Failure) : Prop :=
  (∃ name ∈ ["contents", "ids"], 2 ≤ (valuesOf name members).length ∧
    failure = .duplicateField name) ∨
  (∃ v ∈ valuesOf "contents" members, taken stringValue v = .error failure) ∨
  ∃ w ∈ valuesOf "ids" members, taken (readIds steps) w = .error failure

section refused

variable {steps : Nat} {members : List Member} {failure : Failure}

theorem Refused.append (h : Refused steps members failure) (more : List Member) :
    Refused steps (members ++ more) failure := by
  unfold Refused
  simp only [valuesOf_append]
  rcases h with ⟨name, hname, htwice, rfl⟩ | ⟨v, hv, herror⟩ | ⟨w, hw, herror⟩
  · refine .inl ⟨name, hname, ?_, rfl⟩
    rw [List.length_append]
    omega
  · exact .inr (.inl ⟨v, List.mem_append_left _ hv, herror⟩)
  · exact .inr (.inr ⟨w, List.mem_append_left _ hw, herror⟩)

theorem bind_eq_error {α β : Type} {x : Except Failure α} {f : α → Except Failure β}
    (h : (x >>= f) = .error failure) :
    x = .error failure ∨ ∃ a, x = .ok a ∧ f a = .error failure := by
  cases x with
  | error e => exact .inl (congrArg Except.error (Except.error.inj h))
  | ok a => exact .inr ⟨a, rfl, h⟩

theorem map_eq_error {α β : Type} {x : Except Failure α} {f : α → β}
    (h : x.map f = .error failure) : x = .error failure := by
  cases x <;> simp_all [Except.map]

theorem refused_of_withMember {g : Fields} {m : Member}
    (hcontents : given g.contents = (valuesOf "contents" members).map (taken stringValue))
    (hids : given g.ids = (valuesOf "ids" members).map (taken (readIds steps)))
    (h : g.withMember steps m = .error failure) : Refused steps (members ++ [m]) failure := by
  unfold Refused
  simp only [valuesOf_append, valuesOf_singleton]
  have hgiven : ∀ {α : Type} {field : Option α} {values : List (List Char)}
      {out : List Char → Except Failure α}, given field = values.map out → field.isSome →
        1 ≤ values.length := by
    intro α field values out hout hsome
    obtain ⟨x, rfl⟩ := Option.isSome_iff_exists.1 hsome
    have hlength := congrArg List.length hout
    rw [List.length_map] at hlength
    exact Nat.le_of_eq hlength
  unfold Fields.withMember at h
  split at h
  · next hname =>
    rcases fill_eq_error (map_eq_error h) with ⟨hsome, rfl⟩ | herror
    · have htwice := hgiven hcontents hsome
      refine .inl ⟨"contents", by simp, ?_, by rw [hname]⟩
      rw [if_pos hname, List.length_append]
      exact Nat.succ_le_succ htwice
    · exact .inr (.inl ⟨_, by simp [hname], herror⟩)
  · split at h
    · next hname =>
      rcases fill_eq_error (map_eq_error h) with ⟨hsome, rfl⟩ | herror
      · have htwice := hgiven hids hsome
        refine .inl ⟨"ids", by simp, ?_, by rw [hname]⟩
        rw [if_pos hname, List.length_append]
        exact Nat.succ_le_succ htwice
      · exact .inr (.inr ⟨_, by simp [hname], herror⟩)
    · cases h

theorem refused_of_foldlM
    (h : members.foldlM (Fields.withMember steps) ⟨none, none⟩ = .error failure) :
    Refused steps members failure := by
  induction members using List.reverseRecOn with
  | nil => cases h
  | append_singleton members m ih =>
    rw [List.foldlM_append] at h
    rcases bind_eq_error h with hbefore | ⟨g, hbefore, hlast⟩
    · exact (ih hbefore).append [m]
    · obtain ⟨hcontents, hids⟩ := foldlM_withMember.1 hbefore
      simp only [List.foldlM_cons, List.foldlM_nil, bind_pure] at hlast
      exact refused_of_withMember hcontents hids hlast

end refused

theorem capture_eq_error {f : Fields} {failure : Failure} (h : f.capture = .error failure) :
    f.contents = none ∧ failure = .missingField "contents" ∨
      f.ids = none ∧ failure = .missingField "ids" := by
  obtain ⟨contents, ids⟩ := f
  cases contents <;> cases ids <;> simp_all [Fields.capture]

/-- Where the values are what their names ask for, an object is refused only for a name that comes
twice or not at all. -/
theorem parse_object_eq_error {members : List Member} {text : String}
    (h : ObjectText members text)
    (hcontents : ∀ v ∈ valuesOf "contents" members, ∃ s, StringText s v)
    (hids : ∀ w ∈ valuesOf "ids" members, ∃ ss, StringsText ss w) {failure : Failure}
    (hfailure : parse text = .error failure) :
    ∃ name ∈ ["contents", "ids"],
      2 ≤ (valuesOf name members).length ∧ failure = .duplicateField name ∨
        valuesOf name members = [] ∧ failure = .missingField name := by
  rw [parse_object h] at hfailure
  rcases bind_eq_error hfailure with hmembers | ⟨f, hmembers, hcapture⟩
  · rcases refused_of_foldlM hmembers with ⟨name, hname, htwice, rfl⟩ | ⟨v, hv, herror⟩ |
      ⟨w, hw, herror⟩
    · exact ⟨name, hname, .inl ⟨htwice, rfl⟩⟩
    · obtain ⟨s, hs⟩ := hcontents v hv
      rw [((values_of_objectText h hv).1.taken_stringValue.2 s).2 hs] at herror
      cases herror
    · obtain ⟨ss, hss⟩ := hids w hw
      obtain ⟨hvalue, hsteps⟩ := values_of_objectText h hw
      have hok : taken (readIds (stepsFor text.toList)) w = .ok ss :=
        ((hvalue.taken_stringsValue hsteps).2 ss).2 hss
      rw [hok] at herror
      cases herror
  · obtain ⟨hcontents, hids⟩ := foldlM_withMember.1 hmembers
    rcases capture_eq_error hcapture with ⟨hnone, rfl⟩ | ⟨hnone, rfl⟩
    · rw [hnone] at hcontents
      exact ⟨"contents", by simp, .inr ⟨List.map_eq_nil_iff.1 hcontents.symm, rfl⟩⟩
    · rw [hnone] at hids
      exact ⟨"ids", by simp, .inr ⟨List.map_eq_nil_iff.1 hids.symm, rfl⟩⟩

end AtomicCss.Capture
