import AtomicCss.Proofs.Json.Reading

/-!
# Values as they are read

Every value can be skipped, however deep it is (`ValueText.gives_skipValue`). A reader that expects a
certain shape takes the texts of this shape and refuses those of any other value, whatever stands
behind them: so for strings (`ValueText.taken_stringValue`) and for arrays of strings
(`ValueText.taken_stringsValue`).
-/

namespace AtomicCss.Json

/-! ## Values of any shape -/

theorem begins_of_number {c : Char} (h : c = '-' ∨ c.isDigit = true) (more : List Char) :
    Begins (c :: more) := by
  refine ⟨c, more, rfl, ?_, ?_, ?_⟩
  · rw [Bool.eq_false_iff]
    intro hblank
    simp only [isBlank, decide_eq_true_eq] at hblank
    rcases hblank with rfl | rfl | rfl | rfl
    all_goals exact absurd h (by decide)
  · rintro rfl
    exact absurd h (by decide)
  · rintro rfl
    exact absurd h (by decide)

theorem ValueText.begins {t : List Char} (h : ValueText t) : Begins t := by
  cases h with
  | null => exact ⟨'n', _, rfl, by decide⟩
  | true => exact ⟨'t', _, rfl, by decide⟩
  | false => exact ⟨'f', _, rfl, by decide⟩
  | number h =>
    obtain ⟨c, more, rfl, hc⟩ := h.head
    exact begins_of_number hc more
  | string h => exact h.begins
  | array => exact ⟨'[', _, rfl, by decide⟩
  | object => exact ⟨'{', _, rfl, by decide⟩

theorem length_lt_arrayText {items : List Spaced} (h : ∀ i ∈ items, Begins i.text)
    (w : List Char) : items.length < (arrayText w items).length ∧
      ∀ i ∈ items, i.text.length < (arrayText w items).length := by
  have hwritten : ∀ i : Spaced, i.text.length ≤ i.written.length := fun i => by
    rw [Spaced.written, List.length_append, List.length_append]
    omega
  have hne : ∀ p ∈ items.map Spaced.written, p ≠ [] := by
    intro p hp
    obtain ⟨i, hi, rfl⟩ := List.mem_map.1 hp
    have hpos := List.length_pos_iff.2 (h i hi).ne_nil
    exact List.length_pos_iff.1 (Nat.lt_of_lt_of_le hpos (hwritten i))
  have hlength :
      (listed Bool.true (items.map Spaced.written)).length < (arrayText w items).length := by
    simp only [arrayText, intercalate_eq_listed, List.length_cons, List.length_append]
    omega
  have hcount := length_le_listed Bool.true hne
  rw [List.length_map] at hcount
  refine ⟨Nat.lt_of_le_of_lt hcount hlength, fun i hi => ?_⟩
  have hitem := length_le_listed_of_mem Bool.true (List.mem_map_of_mem (f := Spaced.written) hi)
  exact Nat.lt_of_le_of_lt (Nat.le_trans (hwritten i) hitem) hlength

theorem length_lt_objectText (w : List Char) (members : List Member) :
    members.length < (objectText w members).length ∧
      ∀ m ∈ members, m.value.text.length < (objectText w members).length := by
  have hwritten : ∀ m : Member, m.value.text.length < m.written.length := fun m => by
    simp only [Member.written, Spaced.written, List.length_append, List.length_cons]
    omega
  have hne : ∀ p ∈ members.map Member.written, p ≠ [] := by
    intro p hp
    obtain ⟨m, -, rfl⟩ := List.mem_map.1 hp
    exact List.length_pos_iff.1 (Nat.lt_of_le_of_lt (Nat.zero_le _) (hwritten m))
  have hlength :
      (listed Bool.true (members.map Member.written)).length < (objectText w members).length := by
    simp only [objectText, intercalate_eq_listed, List.length_cons, List.length_append]
    omega
  have hcount := length_le_listed Bool.true hne
  rw [List.length_map] at hcount
  refine ⟨Nat.lt_of_le_of_lt hcount hlength, fun m hm => ?_⟩
  have hmember := length_le_listed_of_mem Bool.true (List.mem_map_of_mem (f := Member.written) hm)
  exact Nat.lt_trans (Nat.lt_of_lt_of_le (hwritten m) hmember) hlength

theorem mapM_ok_unit {α : Type} (l : List α) :
    l.mapM (fun _ => (.ok () : Except Failure Unit)) = .ok (List.replicate l.length ()) := by
  induction l with
  | nil => rfl
  | cons x l ih =>
    rw [List.mapM_cons, ih]
    rfl

theorem skipValue_blanks (steps : Nat) {before : List Char} (h : Blanks before)
    (text : List Char) : skipValue steps (before ++ text) = skipValue steps text := by
  cases steps with
  | zero => rfl
  | succ n =>
    unfold skipValue
    rw [skipBlanks_append h]

theorem skipValue_number {n : Numeral} {t rest : List Char} (h : NumberText n t)
    (hrest : Stops rest) (steps : Nat) : skipValue (steps + 1) (t ++ rest) = .ok ((), rest) := by
  have hread : skipNumber (t ++ rest) = .ok ((), rest) := by
    rw [skipNumber, Numeral.read_append h hrest.ends]
  obtain ⟨c, more, rfl, hc⟩ := h.head
  obtain ⟨_, _, heq, hblank, -⟩ := begins_of_number hc more
  rw [List.cons_append] at hread ⊢
  rw [skipValue, skipBlanks_cons ((List.cons.inj heq).1 ▸ hblank)]
  split
  · next heq => exact absurd ((List.cons.inj heq).1 ▸ hc) (by decide)
  · next heq => exact absurd ((List.cons.inj heq).1 ▸ hc) (by decide)
  · next heq => exact absurd ((List.cons.inj heq).1 ▸ hc) (by decide)
  · next heq =>
    rw [← (List.cons.inj heq).1, ← (List.cons.inj heq).2, if_pos hc]
    exact hread
  · next heq => cases heq

/-- Every value is skipped, however deep it is. -/
theorem ValueText.gives_skipValue {t : List Char} (h : ValueText t) {steps : Nat}
    (hsteps : t.length < steps) : Gives (skipValue steps) t (.ok ()) := by
  refine Gives.of_blanks (skipValue_blanks steps) fun behind hbehind => ?_
  induction h generalizing steps behind with
  | null =>
    obtain ⟨n, rfl⟩ := Nat.exists_eq_add_of_lt hsteps
    rfl
  | true =>
    obtain ⟨n, rfl⟩ := Nat.exists_eq_add_of_lt hsteps
    rfl
  | false =>
    obtain ⟨n, rfl⟩ := Nat.exists_eq_add_of_lt hsteps
    rfl
  | number h =>
    obtain ⟨n, rfl⟩ := Nat.exists_eq_add_of_lt hsteps
    exact skipValue_number h hbehind _
  | string h =>
    obtain ⟨n, rfl⟩ := Nat.exists_eq_add_of_lt hsteps
    obtain ⟨more, rfl, hread⟩ := h.skip
    exact hread behind
  | @array w items hw hitems hvalues ih =>
    obtain ⟨n, rfl⟩ : ∃ n, steps = n + 1 := ⟨steps - 1, by omega⟩
    have hbegins : ∀ i ∈ items, Begins i.text := fun i hi => (hvalues i hi).begins
    obtain ⟨hcount, hshort⟩ := length_lt_arrayText hbegins w
    have hgives : ∀ i ∈ items, Gives (skipValue n) i.text (.ok ()) := fun i hi =>
      Gives.of_blanks (skipValue_blanks n) (ih i hi (by have := hshort i hi; omega))
    have hfew : items.length < n := by omega
    have hread := @readItems_listed Unit (skipValue n) (fun _ => .ok ()) items hitems hbegins hgives
      n hfew Bool.true w hw behind
    rw [mapM_ok_unit, ← intercalate_eq_listed] at hread
    rw [arrayText, List.cons_append, List.append_assoc, List.append_assoc, List.singleton_append]
    show (readItems (skipValue n) n Bool.true _).map _ = _
    rw [hread]
    rfl
  | @object w members hw hmembers hvalues ih =>
    obtain ⟨n, rfl⟩ : ∃ n, steps = n + 1 := ⟨steps - 1, by omega⟩
    obtain ⟨hcount, hshort⟩ := length_lt_objectText w members
    have hgives : ∀ m ∈ members, Gives (skipValue n) m.value.text (.ok ()) := fun m hm =>
      Gives.of_blanks (skipValue_blanks n) (ih m hm (by have := hshort m hm; omega))
    have hfew : members.length < n := by omega
    have hread := skipMembers_listed hmembers hgives hfew Bool.true hw behind
    rw [← intercalate_eq_listed] at hread
    rw [objectText, List.cons_append, List.append_assoc, List.append_assoc, List.singleton_append]
    exact hread

/-! ## Values of the expected shape -/

/-- What a value is found to be where another is expected. -/
def found : Json → Found
  | null => .null
  | bool b => .bool b
  | integer n => .integer n
  | float x => .float x
  | string s => .string s
  | array _ => .sequence
  | object _ => .map

theorem mismatch_scalar {α : Type} (expected : String) (out : Except Failure Json) :
    ∃ failure, ∀ text rest : List Char, text.head? ≠ some '[' → text.head? ≠ some '{' →
      readScalar text = (out.map fun v => (v, rest)) →
        mismatch (α := α) expected text = .error failure := by
  cases out with
  | error e =>
    refine ⟨e, fun text rest hsquare hcurly h => ?_⟩
    unfold mismatch
    split
    · exact absurd rfl hsquare
    · exact absurd rfl hcurly
    · rw [h]
      rfl
  | ok v =>
    refine ⟨.wrongType v.found expected, fun text rest hsquare hcurly h => ?_⟩
    unfold mismatch
    split
    · exact absurd rfl hsquare
    · exact absurd rfl hcurly
    · rw [h]
      cases v <;> rfl

theorem NumberText.mismatch {n : Numeral} {t : List Char} (h : NumberText n t) {α : Type}
    (expected : String) :
    ∃ failure, ∀ rest, Stops rest → mismatch (α := α) expected (t ++ rest) = .error failure := by
  obtain ⟨failure, hfailure⟩ := mismatch_scalar (α := α) expected
    (n.value?.elim (.error .malformed) .ok)
  refine ⟨failure, fun rest hrest => ?_⟩
  have hnumeral := Numeral.read_append h hrest.ends
  obtain ⟨c, more, rfl, hc⟩ := h.head
  have hne : ∀ {d : Char}, ¬ (d = '-' ∨ d.isDigit = true) → c ≠ d := fun hd he => hd (he ▸ hc)
  have hhead : ∀ {d : Char}, ¬ (d = '-' ∨ d.isDigit = true) →
      (c :: more ++ rest).head? ≠ some d := fun hd he => hne hd (Option.some.inj he)
  refine hfailure _ rest (hhead (by decide)) (hhead (by decide)) ?_
  rw [List.cons_append] at hnumeral ⊢
  rw [readScalar, if_neg (hne (by decide)), if_neg (hne (by decide)), if_neg (hne (by decide)),
    if_neg (hne (by decide)), if_pos hc, readNumber, hnumeral]
  simp only [bind, Except.bind]
  cases n.value? <;> rfl

/-- A value of another shape is refused, whatever stands behind it. -/
theorem ValueText.mismatch {t : List Char} (h : ValueText t) {α : Type} (expected : String) :
    ∃ failure, ∀ rest, Stops rest → mismatch (α := α) expected (t ++ rest) = .error failure := by
  cases h with
  | null => exact ⟨.wrongType .null expected, fun _ _ => rfl⟩
  | true => exact ⟨.wrongType (.bool .true) expected, fun _ _ => rfl⟩
  | false => exact ⟨.wrongType (.bool .false) expected, fun _ _ => rfl⟩
  | number h => exact h.mismatch expected
  | @string s t h =>
    obtain ⟨more, rfl, hread⟩ := h.read
    obtain ⟨failure, hfailure⟩ := mismatch_scalar (α := α) expected (.ok (.string s))
    refine ⟨failure, fun rest _ => hfailure _ rest (by simp) (by simp) ?_⟩
    show (readString (more ++ rest)).map _ = _
    rw [hread]
    rfl
  | array => exact ⟨.wrongType .sequence expected, fun _ _ => rfl⟩
  | object => exact ⟨.wrongType .map expected, fun _ _ => rfl⟩

theorem ValueText.gives_error {t : List Char} (h : ValueText t) {α : Type} {read : Reader α}
    (hblanks : ∀ {w}, Blanks w → ∀ text, read (w ++ text) = read text) {expected : String}
    (hread : ∀ rest, read (t ++ rest) = Json.mismatch expected (t ++ rest)) :
    ∃ failure, Gives read t (.error failure) := by
  obtain ⟨failure, hfailure⟩ := h.mismatch (α := α) expected
  exact ⟨failure, Gives.of_blanks hblanks fun behind hbehind =>
    (hread behind).trans (hfailure behind hbehind)⟩

/-- What a reader makes of a text with nothing behind it. -/
def taken {α : Type} (read : Reader α) (t : List Char) : Except Failure α :=
  (read t).map Prod.fst

theorem Gives.taken_eq {α : Type} {read : Reader α} {t : List Char} {out : Except Failure α}
    (h : Gives read t out) : taken read t = out := by
  have hread := h.read_append stops_nil
  rw [List.append_nil] at hread
  rw [taken, hread]
  cases out <;> rfl

/-! ### Strings -/

theorem stringValue_blanks {w : List Char} (h : Blanks w) (text : List Char) :
    stringValue (w ++ text) = stringValue text := by
  unfold stringValue
  rw [skipBlanks_append h]

theorem StringText.gives {s : String} {t : List Char} (h : StringText s t) :
    Gives stringValue t (.ok s) := by
  refine Gives.of_blanks stringValue_blanks fun behind _ => ?_
  obtain ⟨more, rfl, hread⟩ := h.read
  exact hread behind

theorem ValueText.string_or {t : List Char} (h : ValueText t) :
    (∃ s, StringText s t) ∨ t.head? ≠ some '"' := by
  cases h with
  | null => exact .inr (by decide)
  | true => exact .inr (by decide)
  | false => exact .inr (by decide)
  | number h =>
    obtain ⟨c, more, rfl, hc⟩ := h.head
    exact .inr fun he => absurd (Option.some.inj he ▸ hc) (by decide)
  | string h => exact .inl ⟨_, h⟩
  | array => exact .inr (by simp [arrayText])
  | object => exact .inr (by simp [objectText])

theorem stringValue_mismatch {t : List Char} (h : Begins t) (hquote : t.head? ≠ some '"')
    (rest : List Char) : stringValue (t ++ rest) = mismatch "a string" (t ++ rest) := by
  obtain ⟨c, more, rfl, hblank, -⟩ := h
  rw [List.cons_append, stringValue, skipBlanks_cons hblank]
  split
  · next heq => exact absurd (congrArg some (List.cons.inj heq).1) hquote
  · rfl

theorem ValueText.gives_stringValue {t : List Char} (h : ValueText t) :
    ∃ out, Gives stringValue t out ∧ ∀ s, out = .ok s → StringText s t := by
  rcases h.string_or with ⟨s, hs⟩ | hquote
  · exact ⟨.ok s, hs.gives, fun s' hs' => Except.ok.inj hs' ▸ hs⟩
  · obtain ⟨failure, hfailure⟩ := h.gives_error stringValue_blanks
      (stringValue_mismatch h.begins hquote)
    exact ⟨.error failure, hfailure, fun s hs => by cases hs⟩

theorem ValueText.taken_stringValue {t : List Char} (h : ValueText t) :
    Gives stringValue t (taken stringValue t) ∧
      ∀ s, taken stringValue t = .ok s ↔ StringText s t := by
  obtain ⟨out, hgives, hshape⟩ := h.gives_stringValue
  obtain rfl := hgives.taken_eq
  exact ⟨hgives, fun s => ⟨hshape s, fun hs => hs.gives.taken_eq⟩⟩

/-! ### Arrays of strings -/

theorem arrayValue_blanks {α : Type} {steps : Nat} {item : Reader α} {w : List Char}
    (h : Blanks w) (text : List Char) :
    arrayValue steps item (w ++ text) = arrayValue steps item text := by
  unfold arrayValue
  rw [skipBlanks_append h]

theorem gives_arrayValue {α : Type} {item : Reader α} {out : List Char → Except Failure α}
    {items : List Spaced} (hblank : ∀ i ∈ items, i.Blank) (hbegins : ∀ i ∈ items, Begins i.text)
    (hgives : ∀ i ∈ items, Gives item i.text (out i.text)) {w : List Char} (hw : Blanks w)
    {steps : Nat} (hsteps : items.length < steps) :
    Gives (arrayValue steps item) (arrayText w items) (items.mapM fun i => out i.text) := by
  refine Gives.of_blanks arrayValue_blanks fun behind _ => ?_
  have hread := readItems_listed hblank hbegins hgives hsteps true hw behind
  rw [← intercalate_eq_listed] at hread
  rw [arrayText, List.cons_append, List.append_assoc, List.append_assoc, List.singleton_append]
  exact hread

theorem mapM_eq_ok_iff {α β : Type} {f : α → Except Failure β} {R : β → α → Prop} {l : List α}
    (h : ∀ x ∈ l, ∀ y, f x = .ok y ↔ R y x) {ys : List β} :
    l.mapM f = .ok ys ↔ List.Forall₂ R ys l := by
  induction l generalizing ys with
  | nil =>
    rw [List.mapM_nil, List.forall₂_nil_right_iff]
    exact ⟨fun h => (Except.ok.inj h).symm, fun h => h ▸ rfl⟩
  | cons x l ih =>
    obtain ⟨hhead, htail⟩ := List.forall_mem_cons.1 h
    rw [List.mapM_cons, List.forall₂_cons_right_iff]
    constructor
    · intro h
      cases hx : f x with
      | error e =>
        rw [hx] at h
        cases h
      | ok y =>
        cases hl : l.mapM f with
        | error e =>
          rw [hx, hl] at h
          cases h
        | ok zs =>
          rw [hx, hl] at h
          exact ⟨y, zs, (hhead y).1 hx, (ih htail).1 hl, (Except.ok.inj h).symm⟩
    · rintro ⟨y, zs, hy, hzs, rfl⟩
      rw [(hhead y).2 hy, (ih htail).2 hzs]
      rfl

theorem exists_of_forall₂_mem {α β : Type} {R : α → β → Prop} {xs : List α} {ys : List β}
    (h : List.Forall₂ R xs ys) {y : β} (hy : y ∈ ys) : ∃ x, R x y := by
  obtain ⟨i, hi, rfl⟩ := List.getElem_of_mem hy
  exact ⟨_, h.get (h.length_eq.symm ▸ hi) hi⟩

theorem gives_arrayText {w : List Char} {items : List Spaced} (hw : Blanks w)
    (hblank : ∀ i ∈ items, i.Blank) (hvalues : ∀ i ∈ items, ValueText i.text) {steps : Nat}
    (hsteps : (arrayText w items).length < steps) :
    ∃ out, Gives (arrayValue steps stringValue) (arrayText w items) out ∧
      ∀ ss, out = .ok ss ↔ List.Forall₂ (fun s i => StringText s (Spaced.text i)) ss items := by
  have hbegins : ∀ i ∈ items, Begins i.text := fun i hi => (hvalues i hi).begins
  have hcount := (length_lt_arrayText hbegins w).1
  have hstrings := fun i hi => (hvalues i hi).taken_stringValue
  exact ⟨_, gives_arrayValue hblank hbegins (fun i hi => (hstrings i hi).1) hw
    (Nat.lt_trans hcount hsteps), fun ss => mapM_eq_ok_iff fun i hi => (hstrings i hi).2⟩

theorem StringsText.values {ss : List String} {items : List Spaced}
    (h : List.Forall₂ (fun s i => StringText s (Spaced.text i)) ss items) :
    ∀ i ∈ items, ValueText i.text := fun _ hi =>
  (exists_of_forall₂_mem h hi).elim fun _ hs => .string hs

theorem StringsText.valueText {ss : List String} {t : List Char} (h : StringsText ss t) :
    ValueText t := by
  obtain ⟨w, items, hw, hblank, hstrings, rfl⟩ := h
  exact .array hw hblank (StringsText.values hstrings)

theorem StringsText.gives {ss : List String} {t : List Char} (h : StringsText ss t) {steps : Nat}
    (hsteps : t.length < steps) : Gives (arrayValue steps stringValue) t (.ok ss) := by
  obtain ⟨w, items, hw, hblank, hstrings, rfl⟩ := h
  obtain ⟨out, hgives, hout⟩ := gives_arrayText hw hblank (StringsText.values hstrings) hsteps
  exact (hout ss).2 hstrings ▸ hgives

theorem ValueText.array_or {t : List Char} (h : ValueText t) :
    (∃ w items, Blanks w ∧ (∀ i ∈ items, Spaced.Blank i) ∧
      (∀ i ∈ items, ValueText (Spaced.text i)) ∧ t = arrayText w items) ∨ t.head? ≠ some '[' := by
  cases h with
  | null => exact .inr (by decide)
  | true => exact .inr (by decide)
  | false => exact .inr (by decide)
  | number h =>
    obtain ⟨c, more, rfl, hc⟩ := h.head
    exact .inr fun he => absurd (Option.some.inj he ▸ hc) (by decide)
  | string h =>
    obtain ⟨more, rfl, -⟩ := h.read
    exact .inr (by simp)
  | array hw hitems hvalues => exact .inl ⟨_, _, hw, hitems, hvalues, rfl⟩
  | object => exact .inr (by simp [objectText])

theorem arrayValue_mismatch {α : Type} {steps : Nat} {item : Reader α} {t : List Char}
    (h : Begins t) (hsquare : t.head? ≠ some '[') (rest : List Char) :
    arrayValue steps item (t ++ rest) = mismatch "a sequence" (t ++ rest) := by
  obtain ⟨c, more, rfl, hblank, -⟩ := h
  rw [List.cons_append, arrayValue, skipBlanks_cons hblank]
  split
  · next heq => exact absurd (congrArg some (List.cons.inj heq).1) hsquare
  · rfl

theorem ValueText.gives_stringsValue {t : List Char} (h : ValueText t) {steps : Nat}
    (hsteps : t.length < steps) :
    ∃ out, Gives (arrayValue steps stringValue) t out ∧ ∀ ss, out = .ok ss → StringsText ss t := by
  rcases h.array_or with ⟨w, items, hw, hblank, hvalues, rfl⟩ | hsquare
  · obtain ⟨out, hgives, hout⟩ := gives_arrayText hw hblank hvalues hsteps
    exact ⟨out, hgives, fun ss hss => ⟨w, items, hw, hblank, (hout ss).1 hss, rfl⟩⟩
  · obtain ⟨failure, hfailure⟩ := h.gives_error arrayValue_blanks
      (arrayValue_mismatch h.begins hsquare)
    exact ⟨.error failure, hfailure, fun s hs => by cases hs⟩

theorem ValueText.taken_stringsValue {t : List Char} (h : ValueText t) {steps : Nat}
    (hsteps : t.length < steps) :
    Gives (arrayValue steps stringValue) t (taken (arrayValue steps stringValue) t) ∧
      ∀ ss, taken (arrayValue steps stringValue) t = .ok ss ↔ StringsText ss t := by
  obtain ⟨out, hgives, hshape⟩ := h.gives_stringsValue hsteps
  obtain rfl := hgives.taken_eq
  exact ⟨hgives, fun ss => ⟨hshape ss, fun hss => (hss.gives hsteps).taken_eq⟩⟩

end AtomicCss.Json
