import AtomicCss.Proofs.Json.Values

/-!
# Texts that end too early

A text that is cut somewhere before its end is refused for its end, wherever the cut is: inside a
string or one of its escapes, between the parts of an array or an object, or before a closing bracket
(`TellsEnd`). So it is with strings (`StringText.tellsEnd`), arrays (`readItems_cut`) and objects
(`readMembers_cut`).
-/

namespace AtomicCss.Json

/-! ## Cuts -/

/-- The text `t` cut somewhere before its end. -/
def Cut (p t : List Char) : Prop := ∃ c more, t = p ++ c :: more

theorem cut_nil {t : List Char} (h : t ≠ []) : Cut [] t := by
  obtain ⟨c, more, rfl⟩ := List.exists_cons_of_ne_nil h
  exact ⟨c, more, rfl⟩

theorem Cut.append {p t u : List Char} (h : Cut p (t ++ u)) :
    Cut p t ∨ ∃ q, p = t ++ q ∧ Cut q u := by
  obtain ⟨c, more, h⟩ := h
  rcases List.append_eq_append_iff.1 h with ⟨q, rfl, hu⟩ | ⟨q, rfl, hq⟩
  · exact .inr ⟨q, rfl, c, more, hu⟩
  · cases q with
    | nil => exact .inr ⟨[], by rw [List.append_nil, List.append_nil], c, more, hq.symm⟩
    | cons d q =>
      rw [List.cons_append, List.cons.injEq] at hq
      exact .inl ⟨d, q, rfl⟩

theorem Cut.cons {p t : List Char} {c : Char} (h : Cut p (c :: t)) :
    p = [] ∨ ∃ q, p = c :: q ∧ Cut q t := by
  obtain ⟨d, more, h⟩ := h
  cases p with
  | nil => exact .inl rfl
  | cons e q =>
    rw [List.cons_append, List.cons.injEq] at h
    exact .inr ⟨q, by rw [h.1], d, more, h.2⟩

theorem not_cut_nil (p : List Char) : ¬ Cut p [] := by
  rintro ⟨c, more, h⟩
  exact absurd h.symm (by simp)

theorem Cut.singleton {p : List Char} {c : Char} (h : Cut p [c]) : p = [] :=
  h.cons.resolve_right fun ⟨q, _, hq⟩ => not_cut_nil q hq

theorem Cut.blanks {p w : List Char} (h : Cut p w) (hw : Blanks w) : Blanks p := by
  obtain ⟨c, more, rfl⟩ := h
  exact fun d hd => hw d (List.mem_append_left _ hd)

theorem Cut.blanks_or {p w t : List Char} (h : Cut p (w ++ t)) (hw : Blanks w) :
    Blanks p ∨ ∃ q, p = w ++ q ∧ q ≠ [] ∧ Cut q t := by
  rcases h.append with hp | ⟨q, rfl, hq⟩
  · exact .inl (hp.blanks hw)
  · cases q with
    | nil => exact .inl (by rwa [List.append_nil])
    | cons c q => exact .inr ⟨c :: q, rfl, List.cons_ne_nil c q, hq⟩

theorem Cut.stops {p t : List Char} (h : Cut p t) (ht : Stops t) : Stops p := by
  obtain ⟨c, more, rfl⟩ := h
  cases p with
  | nil => exact stops_nil
  | cons d q => exact ht

theorem blanks_append {w v : List Char} (hw : Blanks w) (hv : Blanks v) : Blanks (w ++ v) :=
  fun c hc => (List.mem_append.1 hc).elim (hw c) (hv c)

theorem skipBlanks_of_blanks {w : List Char} (hw : Blanks w) : skipBlanks w = [] := by
  have h := skipBlanks_append hw []
  rwa [List.append_nil] at h

/-- Wherever the text is cut, the reader finds that it ends too early, as far as the cut text is
shorter than the number of steps. -/
def TellsEnd {α : Type} (steps : Nat) (read : Reader α) (t : List Char) : Prop :=
  ∀ p, Cut p t → p.length < steps → read p = .error .endOfInput

theorem TellsEnd.map {α β : Type} {steps : Nat} {read : Reader α} {t : List Char}
    (h : TellsEnd steps read t) (f : α × List Char → β × List Char) :
    TellsEnd steps (fun p => (read p).map f) t := fun p hp hsteps =>
  congrArg (Except.map f) (h p hp hsteps)

theorem TellsEnd.with_blanks {α : Type} {steps : Nat} {read : Reader α} {t : List Char}
    (h : TellsEnd steps read t)
    (hblanks : ∀ {w}, Blanks w → ∀ text, read (w ++ text) = read text) (ht : t ≠ [])
    {w : List Char} (hw : Blanks w) : TellsEnd steps read (w ++ t) := by
  intro p hp hsteps
  rcases hp.append with hp | ⟨q, rfl, hq⟩
  · have hend := h [] (cut_nil ht) (Nat.lt_of_le_of_lt (Nat.zero_le _) hsteps)
    have hread := hblanks (hp.blanks hw) []
    rw [List.append_nil] at hread
    rw [hread, hend]
  · rw [hblanks hw]
    rw [List.length_append] at hsteps
    exact h q hq (by omega)

/-! ## Strings -/

theorem utf8ByteSize_ofList {p : List Char} (h : ∀ c ∈ p, c.utf8Size = 1) :
    (String.ofList p).utf8ByteSize = p.length := by
  induction p with
  | nil => rfl
  | cons c p ih =>
    obtain ⟨hc, hp⟩ := List.forall_mem_cons.1 h
    rw [String.ofList_cons, String.utf8ByteSize_append, ih hp, String.utf8ByteSize_singleton, hc,
      List.length_cons, Nat.add_comm]

theorem UnitText.codeUnit_cut {n : Nat} {four p : List Char} (h : UnitText n four)
    (hp : Cut p four) : Json.codeUnit p = .error .endOfInput := by
  obtain ⟨c, more, hfour⟩ := hp
  obtain ⟨-, -, -, -, -, hone⟩ := h.digits
  have hlength : p.length < 4 := by
    have h4 : four.length = 4 := h.1
    rw [hfour, List.length_append, List.length_cons] at h4
    omega
  have hsize : (String.ofList p).utf8ByteSize = p.length :=
    utf8ByteSize_ofList fun d hd => hone d (hfour ▸ List.mem_append_left _ hd)
  have htake : p.take 4 = p := List.take_of_length_le (by omega)
  rw [Json.codeUnit, htake, hsize]
  exact if_pos hlength

theorem UnitText.unitEscape_cut {n : Nat} {four p : List Char} (h : UnitText n four)
    (hp : Cut p four) : unitEscape p = .error .endOfInput := by
  rw [unitEscape, h.codeUnit_cut hp]
  rfl

theorem unitEscape_pair_cut {m n : Nat} {high low p : List Char} (hm : UnitText m high)
    (hn : UnitText n low) (hleading : 0xd800 ≤ m ∧ m ≤ 0xdbff)
    (hp : Cut p (high ++ '\\' :: 'u' :: low)) : unitEscape p = .error .endOfInput := by
  rcases hp.append with hp | ⟨q, rfl, hq⟩
  · exact hm.unitEscape_cut hp
  have hfirst : isTrailing m = false ∧ isLeading m = true := by
    simp only [isLeading, isTrailing, decide_eq_false_iff_not, decide_eq_true_eq]
    omega
  have hdrop : (high ++ q).drop 4 = q := by rw [← hm.1, List.drop_left]
  rw [unitEscape, hm.codeUnit, hdrop]
  simp only [bind, Except.bind, hfirst, Bool.false_eq_true, if_false, if_true]
  rcases hq.cons with rfl | ⟨r, rfl, hr⟩
  · rfl
  rcases hr.cons with rfl | ⟨s, rfl, hs⟩
  · rfl
  · simp only [hn.codeUnit_cut hs]

theorem stringBody_escape_error {escape : List Char → Except Failure Escaped} {rest : List Char}
    {failure : Failure} (h : escape rest = .error failure) :
    stringBody escape 0 ('\\' :: rest) = .error failure := by
  rw [stringBody, if_neg (by decide), if_pos rfl, h]

theorem stringBody_unit_cut {t p : List Char}
    (h : ∀ q, Cut q t → unitEscape q = .error .endOfInput) (hp : Cut p ('\\' :: 'u' :: t)) :
    stringBody escapeStrict 0 p = .error .endOfInput := by
  rcases hp.cons with rfl | ⟨q, rfl, hq⟩
  · rw [stringBody]
  refine stringBody_escape_error ?_
  rcases hq.cons with rfl | ⟨r, rfl, hr⟩
  · rfl
  · rw [escapeStrict, escapeWith, if_pos rfl, h r hr]

theorem CharText.stringBody_cut {c : Char} {t p : List Char} (h : CharText c t) (hp : Cut p t) :
    stringBody escapeStrict 0 p = .error .endOfInput := by
  cases h with
  | plain => rw [hp.singleton, stringBody]
  | letter =>
    rcases hp.cons with rfl | ⟨q, rfl, hq⟩
    · rw [stringBody]
    · rw [hq.singleton]
      exact stringBody_escape_error rfl
  | unit h => exact stringBody_unit_cut (fun _ hq => h.unitEscape_cut hq) hp
  | pair hm hn hleading =>
    exact stringBody_unit_cut (fun _ hq => unitEscape_pair_cut hm hn hleading hq) hp

theorem BodyText.stringBody_cut {cs t p : List Char} (h : BodyText cs t) (hp : Cut p (t ++ ['"'])) :
    stringBody escapeStrict 0 p = .error .endOfInput := by
  induction h generalizing p with
  | nil => rw [hp.singleton, stringBody]
  | cons hc _ ih =>
    rw [List.append_assoc] at hp
    rcases hp.append with hp | ⟨q, rfl, hq⟩
    · exact hc.stringBody_cut hp
    · rw [hc.read, ih hq]
      rfl

theorem StringText.readString_cut {s : String} {t : List Char} (h : StringText s t) :
    ∃ more, t = '"' :: more ∧ ∀ p, Cut p more → readString p = .error .endOfInput := by
  obtain ⟨body, hbody, rfl⟩ := h
  refine ⟨body ++ ['"'], rfl, fun p hp => ?_⟩
  rw [readString, hbody.stringBody_cut hp]
  rfl

/-- What is left of a string and the text behind it: the string is cut, or it is read. -/
theorem StringText.cut {s : String} {t rest p : List Char} (h : StringText s t)
    (hp : Cut p (t ++ rest)) (hne : p ≠ []) :
    ∃ more, p = '"' :: more ∧ (readString more = .error .endOfInput ∨
      ∃ q, readString more = .ok (s, q) ∧ q.length < p.length ∧ Cut q rest) := by
  obtain ⟨more, rfl, hread⟩ := h.read
  obtain ⟨more', hmore, hcut⟩ := h.readString_cut
  obtain rfl : more = more' := (List.cons.inj hmore).2
  rcases hp.append with hp | ⟨q, rfl, hq⟩
  · obtain ⟨r, rfl, hr⟩ := hp.cons.resolve_left hne
    exact ⟨r, rfl, .inl (hcut r hr)⟩
  · refine ⟨more ++ q, rfl, .inr ⟨q, hread q, ?_, hq⟩⟩
    rw [List.length_append, List.length_cons]
    omega

theorem StringText.tellsEnd {s : String} {t : List Char} (h : StringText s t) (steps : Nat) :
    TellsEnd steps stringValue t := by
  obtain ⟨more, rfl, hcut⟩ := h.readString_cut
  intro p hp _
  rcases hp.cons with rfl | ⟨q, rfl, hq⟩
  · rfl
  · exact hcut q hq

/-! ## Arrays -/

theorem nextItem_blanks (close : Char) (first : Bool) {w : List Char} (hw : Blanks w) :
    nextItem close first w = .error .endOfInput := by
  rw [nextItem, skipBlanks_of_blanks hw]

theorem nextItem_cut_close (close : Char) (first : Bool) {w p : List Char} (hw : Blanks w)
    (hp : Cut p (w ++ [close])) : nextItem close first p = .error .endOfInput := by
  refine nextItem_blanks close first ?_
  rcases hp.append with hp | ⟨q, rfl, hq⟩
  · exact hp.blanks hw
  · rw [hq.singleton, List.append_nil]
    exact hw

/-- Where a part stands, the cut text ends before it, or the loop goes on with what is left of it. -/
theorem nextItem_cut_part {close : Char} (hclose : close = ']' ∨ close = '}') (first : Bool)
    {w before text : List Char} (hw : Blanks w) (hbefore : Blanks before) (htext : Begins text)
    {behind : List Char} {ps : List (List Char)} {rest p : List Char}
    (hp : Cut p (w ++ (listed first ((before ++ (text ++ behind)) :: ps) ++ rest))) :
    nextItem close first p = .error .endOfInput ∨
      ∃ q, nextItem close first p = .ok (true, q) ∧ q ≠ [] ∧ q.length ≤ p.length ∧
        Cut q (text ++ (behind ++ (listed false ps ++ rest))) := by
  obtain ⟨c, more, rfl, hc, hsquare, hcurly⟩ := htext
  have hne : c ≠ close := by rcases hclose with rfl | rfl <;> assumption
  have hcomma : ',' ≠ close := by rcases hclose with rfl | rfl <;> decide
  rcases hp.blanks_or hw with hp | ⟨q, rfl, hq0, hq⟩
  · exact .inl (nextItem_blanks close first hp)
  cases first with
  | true =>
    simp only [listed, List.append_assoc] at hq
    rcases hq.blanks_or hbefore with hq | ⟨r, rfl, hr0, hr⟩
    · exact .inl (nextItem_blanks close true (blanks_append hw hq))
    · obtain ⟨s, rfl, -⟩ := hr.cons.resolve_left hr0
      refine .inr ⟨c :: s, ?_, hr0, ?_, hr⟩
      · rw [nextItem, skipBlanks_append hw, skipBlanks_append hbefore, skipBlanks_cons hc]
        simp only [if_neg hne, if_true]
      · rw [List.length_append, List.length_append]
        omega
  | false =>
    simp only [listed, List.cons_append, List.append_assoc] at hq
    obtain ⟨r, rfl, hr⟩ := hq.cons.resolve_left hq0
    rcases hr.blanks_or hbefore with hr | ⟨s, rfl, hs0, hs⟩
    · left
      rw [nextItem, skipBlanks_append hw, skipBlanks_cons rfl]
      simp only [if_neg hcomma, Bool.false_eq_true, if_false, if_true, skipBlanks_of_blanks hr]
    · obtain ⟨u, rfl, -⟩ := hs.cons.resolve_left hs0
      refine .inr ⟨c :: u, ?_, hs0, ?_, hs⟩
      · rw [nextItem, skipBlanks_append hw, skipBlanks_cons rfl]
        simp only [if_neg hcomma, Bool.false_eq_true, if_false, if_true, skipBlanks_append hbefore,
          skipBlanks_cons hc, if_neg hne]
      · simp only [List.length_append, List.length_cons]
        omega

theorem readItems_cut {α : Type} {item : Reader α} {items : List Spaced} {steps : Nat}
    (hblank : ∀ i ∈ items, i.Blank) (hbegins : ∀ i ∈ items, Begins i.text)
    (hgives : ∀ i ∈ items, ∃ x, Gives item i.text (.ok x))
    (hends : ∀ i ∈ items, TellsEnd steps item i.text) {fuel : Nat} (hfuel : fuel ≤ steps)
    (first : Bool) {w : List Char} (hw : Blanks w) {p : List Char}
    (hp : Cut p (w ++ (listed first (items.map Spaced.written) ++ [']'])))
    (hlength : p.length < fuel) : readItems item fuel first p = .error .endOfInput := by
  induction items generalizing fuel first w p with
  | nil =>
    obtain ⟨n, rfl⟩ := Nat.exists_eq_add_of_lt hlength
    rw [readItems, nextItem_cut_close ']' first hw hp]
    rfl
  | cons i items ih =>
    obtain ⟨n, rfl⟩ : ∃ n, fuel = n + 1 := ⟨fuel - 1, by omega⟩
    obtain ⟨⟨hbefore, hbehind⟩, hblank⟩ := List.forall_mem_cons.1 hblank
    obtain ⟨hbegin, hbegins⟩ := List.forall_mem_cons.1 hbegins
    obtain ⟨⟨x, hgive⟩, hgives⟩ := List.forall_mem_cons.1 hgives
    obtain ⟨hend, hends⟩ := List.forall_mem_cons.1 hends
    rw [List.map_cons, Spaced.written] at hp
    rw [readItems]
    rcases nextItem_cut_part (.inl rfl) first hw hbefore hbegin hp with
      hnext | ⟨q, hnext, -, hq, hcut⟩
    · rw [hnext]
      rfl
    rw [hnext]
    show (item q >>= fun r => readItems item n false r.2 >>= fun s => pure (r.1 :: s.1, s.2)) = _
    rcases hcut.append with hcut | ⟨r, rfl, hr⟩
    · rw [hend q hcut (by omega)]
      rfl
    · -- The item is whole, so the cut is in what stands behind it.
      have hstops := (stops_listed (items.map Spaced.written) (.inl rfl) []).append hbehind
      have hpos := List.length_pos_iff.2 hbegin.ne_nil
      rw [List.length_append] at hq
      have hrest : readItems item n false r = .error .endOfInput :=
        ih hblank hbegins hgives hends (by omega) false hbehind hr (by omega)
      rw [hgive.read_append (hr.stops hstops)]
      show (readItems item n false r >>= fun s => pure (x :: s.1, s.2)) = _
      rw [hrest]
      rfl

theorem tellsEnd_arrayText {α : Type} {item : Reader α} {items : List Spaced} {steps : Nat}
    (hblank : ∀ i ∈ items, i.Blank) (hbegins : ∀ i ∈ items, Begins i.text)
    (hgives : ∀ i ∈ items, ∃ x, Gives item i.text (.ok x))
    (hends : ∀ i ∈ items, TellsEnd steps item i.text) {w : List Char} (hw : Blanks w) :
    TellsEnd steps (arrayValue steps item) (arrayText w items) := by
  intro p hp hsteps
  rcases hp.cons with rfl | ⟨q, rfl, hq⟩
  · rfl
  · rw [intercalate_eq_listed] at hq
    rw [List.length_cons] at hsteps
    exact readItems_cut hblank hbegins hgives hends (Nat.le_refl steps) true hw hq (by omega)

theorem StringsText.tellsEnd {ss : List String} {t : List Char} (h : StringsText ss t)
    (steps : Nat) : TellsEnd steps (arrayValue steps stringValue) t := by
  obtain ⟨w, items, hw, hblank, htexts, rfl⟩ := h
  have hstring : ∀ i ∈ items, ∃ s, StringText s i.text := fun i hi =>
    exists_of_forall₂_mem htexts hi
  refine tellsEnd_arrayText hblank (fun i hi => ?_) (fun i hi => ?_) (fun i hi => ?_) hw
  all_goals obtain ⟨s, hs⟩ := hstring i hi
  · exact hs.begins
  · exact ⟨s, hs.gives⟩
  · exact hs.tellsEnd steps

/-! ## Objects -/

theorem TellsEnd.afterColon {α : Type} {steps : Nat} {read : Reader α} {t : List Char}
    (h : TellsEnd steps read t)
    (hblanks : ∀ {w}, Blanks w → ∀ text, read (w ++ text) = read text) (ht : t ≠ [])
    {label before : List Char} (hlabel : Blanks label) (hbefore : Blanks before) :
    TellsEnd steps (Json.afterColon read) (label ++ ':' :: (before ++ t)) := by
  refine TellsEnd.with_blanks ?_ (fun {w} hw text => ?_) (List.cons_ne_nil _ _) hlabel
  · intro p hp hsteps
    rcases hp.cons with rfl | ⟨q, rfl, hq⟩
    · rfl
    · rw [List.length_cons] at hsteps
      rw [Json.afterColon, skipBlanks_cons rfl]
      exact (h.with_blanks hblanks ht hbefore) q hq (by omega)
  · unfold Json.afterColon
    rw [skipBlanks_append hw]

/-- An object that is cut behind its opening bracket, if its members are read one after the other
as far as they are whole. -/
theorem readMembers_cut {σ : Type} {member : σ → String → Reader σ}
    (out : σ → Member → Except Failure σ) {members : List Member} {steps : Nat}
    (hlabels : ∀ m ∈ members, m.Labelled)
    (hgives : ∀ m ∈ members, ∀ s rest, Stops rest → m.value.text.length < steps →
      member s m.name (m.label.behind ++ ':' :: (m.value.before ++ (m.value.text ++ rest))) =
        (out s m).map fun x => (x, rest))
    (hends : ∀ m ∈ members, ∀ s s', out s m = .ok s' → TellsEnd steps (member s m.name)
      (m.label.behind ++ ':' :: (m.value.before ++ m.value.text)))
    {s result : σ} (hout : members.foldlM out s = .ok result) {fuel : Nat} (hfuel : fuel ≤ steps)
    (first : Bool) {w : List Char} (hw : Blanks w) {p : List Char}
    (hp : Cut p (w ++ (listed first (members.map Member.written) ++ ['}'])))
    (hlength : p.length < fuel) : readMembers member fuel first s p = .error .endOfInput := by
  induction members generalizing fuel first w p s with
  | nil =>
    obtain ⟨n, rfl⟩ := Nat.exists_eq_add_of_lt hlength
    rw [readMembers, nextItem_cut_close '}' first hw hp]
    rfl
  | cons m members ih =>
    obtain ⟨n, rfl⟩ : ∃ n, fuel = n + 1 := ⟨fuel - 1, by omega⟩
    obtain ⟨⟨hname, ⟨hbefore, hlabel⟩, hvalue, hbehind⟩, hlabels⟩ := List.forall_mem_cons.1 hlabels
    obtain ⟨hgive, hgives⟩ := List.forall_mem_cons.1 hgives
    obtain ⟨hend, hends⟩ := List.forall_mem_cons.1 hends
    obtain ⟨s', hs', hout⟩ : ∃ s', out s m = .ok s' ∧ members.foldlM out s' = .ok result := by
      rw [List.foldlM_cons] at hout
      cases hs : out s m with
      | error e =>
        rw [hs] at hout
        cases hout
      | ok s' =>
        rw [hs] at hout
        exact ⟨s', rfl, hout⟩
    have hwritten : m.written = m.label.before ++ (m.label.text ++
        ((m.label.behind ++ ':' :: (m.value.before ++ m.value.text)) ++ m.value.behind)) := by
      simp only [Member.written, Spaced.written, List.append_assoc, List.cons_append]
    rw [List.map_cons, hwritten] at hp
    rw [readMembers]
    rcases nextItem_cut_part (.inr rfl) first hw hbefore hname.begins hp with
      hnext | ⟨q, hnext, hne, hq, hcut⟩
    · rw [hnext]
      rfl
    obtain ⟨more, rfl, hread⟩ := hname.cut hcut hne
    rw [hnext]
    show (readString more >>= fun r => member s r.1 r.2 >>= fun q =>
      readMembers member n false q.1 q.2) = _
    rcases hread with hread | ⟨r, hread, hr, hcut⟩
    · rw [hread]
      rfl
    rw [hread]
    show (member s m.name r >>= fun q => readMembers member n false q.1 q.2) = _
    rw [List.append_assoc] at hcut
    rcases hcut.append with hcut | ⟨u, rfl, hu⟩
    · rw [hend s s' hs' r hcut (by omega)]
      rfl
    · -- The member is whole, so the cut is in what stands behind it.
      have hstops := (stops_listed (members.map Member.written) (.inr rfl) []).append hbehind
      simp only [List.length_append, List.length_cons] at hr hq hlength
      have hrest : readMembers member n false s' u = .error .endOfInput :=
        ih hlabels hgives hends hout (by omega) false hbehind hu (by omega)
      rw [List.append_assoc, List.cons_append, List.append_assoc,
        hgive s u (hu.stops hstops) (by omega), hs']
      exact hrest

/-! ## Whole texts -/

theorem cut_toList {t text rest : String} (h : t = text ++ rest) (hrest : rest ≠ "") :
    Cut text.toList t.toList := by
  have hne : rest.toList ≠ [] := fun hnil => hrest (String.toList_eq_nil_iff.1 hnil)
  obtain ⟨c, more, hmore⟩ := List.exists_cons_of_ne_nil hne
  exact ⟨c, more, by rw [h, String.toList_append, hmore]⟩

theorem parse_cut {α : Type} {read : (steps : Nat) → Reader α} {t : List Char}
    (h : ∀ steps, TellsEnd steps (read steps) t) {text : String} (htext : Cut text.toList t) :
    parse read text = .error .endOfInput := by
  have hread := h (stepsFor text.toList) text.toList htext (Nat.lt_succ_self _)
  rw [parse, hread]
  rfl

end AtomicCss.Json
