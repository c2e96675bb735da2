import AtomicCss.Proofs.Json.Grammar

/-!
# Arrays and objects as they are read

What a reader makes of the text of a value depends neither on the blanks before it nor on what stands
behind it, as long as that cannot belong to the value (`Gives`). So the loops over arrays and objects
come to what their items and members come to, one after the other (`readItems_listed`,
`readMembers_listed`).
-/

namespace AtomicCss.Json

/-! ## Blanks -/

theorem blanks_nil : Blanks [] := fun _ h => absurd h List.not_mem_nil

theorem skipBlanks_append {w : List Char} (h : Blanks w) (rest : List Char) :
    skipBlanks (w ++ rest) = skipBlanks rest :=
  List.dropWhile_append_of_pos h

theorem skipBlanks_cons {c : Char} (h : isBlank c = false) (rest : List Char) :
    skipBlanks (c :: rest) = c :: rest :=
  List.dropWhile_cons_of_neg (by simp [h])

/-- What can stand behind a value: nothing, a blank, a comma or a closing bracket. -/
def Stops (rest : List Char) : Prop :=
  ∀ c ∈ rest.head?, isBlank c = true ∨ c = ',' ∨ c = ']' ∨ c = '}'

theorem stops_cons {c : Char} (h : isBlank c = true ∨ c = ',' ∨ c = ']' ∨ c = '}')
    (rest : List Char) : Stops (c :: rest) := by
  intro d hd
  rw [List.head?_cons, Option.mem_some_iff] at hd
  exact hd ▸ h

theorem stops_nil : Stops [] := fun _ h => absurd h (by simp)

theorem Stops.append {rest : List Char} (h : Stops rest) {w : List Char} (hw : Blanks w) :
    Stops (w ++ rest) := by
  cases w with
  | nil => exact h
  | cons c w => exact stops_cons (.inl (hw c List.mem_cons_self)) (w ++ rest)

theorem Stops.ends {rest : List Char} (h : Stops rest) : Numeral.Ends rest := by
  intro c hc
  rcases h c hc with hb | rfl | rfl | rfl
  · simp only [isBlank, decide_eq_true_eq] at hb
    rcases hb with rfl | rfl | rfl | rfl
    all_goals decide
  all_goals decide

/-! ## Loops -/

/-- Parts with commas between them, and one before the first unless it is the first of all. -/
def listed : Bool → List (List Char) → List Char
  | _, [] => []
  | true, p :: ps => p ++ listed false ps
  | false, p :: ps => ',' :: (p ++ listed false ps)

theorem intercalate_eq_listed (ps : List (List Char)) : [','].intercalate ps = listed true ps := by
  induction ps with
  | nil => rfl
  | cons p ps ih =>
    cases ps with
    | nil => simp [listed]
    | cons q ps =>
      rw [List.intercalate_cons_cons, ih, List.append_assoc]
      rfl

theorem length_le_listed (first : Bool) {ps : List (List Char)} (h : ∀ p ∈ ps, p ≠ []) :
    ps.length ≤ (listed first ps).length := by
  induction ps generalizing first with
  | nil => exact Nat.zero_le _
  | cons p ps ih =>
    have hrest := ih false fun q hq => h q (List.mem_cons_of_mem p hq)
    have hp := List.length_pos_iff.2 (h p List.mem_cons_self)
    cases first with
    | false =>
      rw [listed, List.length_cons, List.length_cons, List.length_append]
      omega
    | true =>
      rw [listed, List.length_cons, List.length_append]
      omega

theorem length_le_listed_of_mem (first : Bool) {ps : List (List Char)} {p : List Char}
    (h : p ∈ ps) : p.length ≤ (listed first ps).length := by
  induction ps generalizing first with
  | nil => exact absurd h List.not_mem_nil
  | cons q ps ih =>
    have hlength : p.length ≤ q.length + (listed false ps).length := by
      rcases List.mem_cons.1 h with rfl | h
      · exact Nat.le_add_right _ _
      · exact Nat.le_add_left_of_le (ih false h)
    cases first with
    | false =>
      rw [listed, List.length_cons, List.length_append]
      omega
    | true =>
      rw [listed, List.length_append]
      exact hlength

/-- The text begins with a character that is no blank and closes nothing. -/
def Begins (t : List Char) : Prop :=
  ∃ c more, t = c :: more ∧ isBlank c = false ∧ c ≠ ']' ∧ c ≠ '}'

theorem Begins.ne_nil {t : List Char} (h : Begins t) : t ≠ [] := by
  obtain ⟨c, more, rfl, -⟩ := h
  exact List.cons_ne_nil c more

section nextItem

variable {close : Char} (hclose : close = ']' ∨ close = '}') {w : List Char} (hw : Blanks w)

include hclose hw

theorem nextItem_close (first : Bool) (rest : List Char) :
    nextItem close first (w ++ close :: rest) = .ok (false, rest) := by
  have hblank : isBlank close = false := by rcases hclose with rfl | rfl <;> rfl
  unfold nextItem
  rw [skipBlanks_append hw, skipBlanks_cons hblank]
  exact if_pos rfl

theorem nextItem_part (first : Bool) {before text : List Char} (hbefore : Blanks before)
    (htext : Begins text) (behind : List Char) (ps : List (List Char)) (rest : List Char) :
    nextItem close first (w ++ (listed first ((before ++ (text ++ behind)) :: ps) ++ rest)) =
      .ok (true, text ++ (behind ++ (listed false ps ++ rest))) := by
  obtain ⟨c, more, rfl, hc, hsquare, hcurly⟩ := htext
  have hne : c ≠ close := by rcases hclose with rfl | rfl <;> assumption
  have hcomma : ',' ≠ close := by rcases hclose with rfl | rfl <;> decide
  have hpart : ∀ r, skipBlanks (before ++ c :: r) = c :: r := fun r => by
    rw [skipBlanks_append hbefore, skipBlanks_cons hc]
  unfold nextItem
  rw [skipBlanks_append hw]
  cases first with
  | true =>
    simp only [listed, List.append_assoc, List.cons_append, hpart, if_neg hne, if_true]
  | false =>
    rw [listed, List.cons_append, skipBlanks_cons rfl]
    simp only [List.append_assoc, List.cons_append, hpart, if_neg hcomma, Bool.false_eq_true,
      if_false, if_true, if_neg hne]

end nextItem

/-- The reader comes to `out` on the text, whatever blanks stand before it and whatever stands
behind. -/
def Gives {α : Type} (read : Reader α) (t : List Char) (out : Except Failure α) : Prop :=
  ∀ before behind, Blanks before → Stops behind →
    read (before ++ (t ++ behind)) = out.map fun x => (x, behind)

section gives

variable {α : Type} {read : Reader α} {t : List Char} {out : Except Failure α}

theorem Gives.read_append (h : Gives read t out) {behind : List Char} (hbehind : Stops behind) :
    read (t ++ behind) = out.map fun x => (x, behind) :=
  h [] behind blanks_nil hbehind

theorem Gives.of_blanks
    (hblanks : ∀ {w}, Blanks w → ∀ text, read (w ++ text) = read text)
    (h : ∀ behind, Stops behind → read (t ++ behind) = out.map fun x => (x, behind)) :
    Gives read t out := fun _ behind hbefore hbehind =>
  (hblanks hbefore (t ++ behind)).trans (h behind hbehind)

end gives

theorem stops_listed (ps : List (List Char)) {close : Char} (hclose : close = ']' ∨ close = '}')
    (rest : List Char) : Stops (listed false ps ++ close :: rest) := by
  cases ps with
  | nil => exact stops_cons (.inr (.inr hclose)) rest
  | cons p ps => exact stops_cons (.inr (.inl rfl)) _

/-- The items of an array are read one after the other, up to the first that is refused. -/
theorem readItems_listed {α : Type} {item : Reader α} {out : List Char → Except Failure α}
    {items : List Spaced} (hblank : ∀ i ∈ items, i.Blank) (hbegins : ∀ i ∈ items, Begins i.text)
    (hgives : ∀ i ∈ items, Gives item i.text (out i.text)) {steps : Nat}
    (hsteps : items.length < steps) (first : Bool) {w : List Char} (hw : Blanks w)
    (rest : List Char) :
    readItems item steps first (w ++ (listed first (items.map Spaced.written) ++ ']' :: rest)) =
      (items.mapM fun i => out i.text).map fun xs => (xs, rest) := by
  induction items generalizing steps first w with
  | nil =>
    obtain ⟨n, rfl⟩ := Nat.exists_eq_add_of_lt hsteps
    rw [List.map_nil, listed, List.nil_append, readItems, nextItem_close (.inl rfl) hw]
    rfl
  | cons i items ih =>
    obtain ⟨n, rfl⟩ : ∃ n, steps = n + 1 := ⟨steps - 1, by omega⟩
    obtain ⟨⟨hbefore, hbehind⟩, hblank⟩ := List.forall_mem_cons.1 hblank
    obtain ⟨hbegin, hbegins⟩ := List.forall_mem_cons.1 hbegins
    obtain ⟨hgive, hgives⟩ := List.forall_mem_cons.1 hgives
    have hrest := ih hblank hbegins hgives (Nat.lt_of_succ_lt_succ hsteps) false hbehind
    have hitem := hgive.read_append
      ((stops_listed (items.map Spaced.written) (.inl rfl) rest).append hbehind)
    rw [List.map_cons, readItems, Spaced.written,
      nextItem_part (.inl rfl) hw first hbefore hbegin]
    show (item (i.text ++ (i.behind ++ _)) >>= fun r =>
      readItems item n false r.2 >>= fun s => pure (r.1 :: s.1, s.2)) = _
    rw [hitem, List.mapM_cons]
    cases out i.text with
    | error e => rfl
    | ok x =>
      show (readItems item n false _ >>= fun s => pure (x :: s.1, s.2)) = _
      rw [hrest]
      cases items.mapM fun i => out i.text <;> rfl

theorem StringText.begins {s : String} {t : List Char} (h : StringText s t) : Begins t := by
  obtain ⟨body, -, rfl⟩ := h
  exact ⟨'"', _, rfl, rfl, by decide, by decide⟩

theorem nextItem_member (first : Bool) {w : List Char} (hw : Blanks w) {m : Member}
    (h : m.Labelled) (ps : List (List Char)) (rest : List Char) :
    nextItem '}' first (w ++ (listed first (m.written :: ps) ++ rest)) =
      .ok (true, m.label.text ++ (m.label.behind ++ ':' :: (m.value.before ++ (m.value.text ++
        (m.value.behind ++ (listed false ps ++ rest)))))) := by
  obtain ⟨hname, ⟨hbefore, -⟩, -⟩ := h
  have hwritten : m.written =
      m.label.before ++ (m.label.text ++ (m.label.behind ++ ':' :: m.value.written)) := by
    simp only [Member.written, Spaced.written, List.append_assoc]
  rw [hwritten, nextItem_part (.inr rfl) hw first hbefore hname.begins]
  simp only [Spaced.written, List.append_assoc, List.cons_append]

theorem Gives.afterColon {α : Type} {read : Reader α} {t : List Char} {out : Except Failure α}
    (h : Gives read t out) {label before : List Char} (hlabel : Blanks label)
    (hbefore : Blanks before) {rest : List Char} (hrest : Stops rest) :
    Json.afterColon read (label ++ ':' :: (before ++ (t ++ rest))) =
      out.map fun x => (x, rest) := by
  unfold Json.afterColon
  rw [skipBlanks_append hlabel, skipBlanks_cons rfl]
  exact h before rest hbefore hrest

section members

variable {members : List Member} (hlabels : ∀ m ∈ members, m.Labelled)

include hlabels

/-- The members of an object are read one after the other, up to the first that is refused. -/
theorem readMembers_listed {σ : Type} {member : σ → String → Reader σ}
    {out : σ → Member → Except Failure σ}
    (hgives : ∀ m ∈ members, ∀ s rest, Stops rest →
      member s m.name (m.label.behind ++ ':' :: (m.value.before ++ (m.value.text ++ rest))) =
        (out s m).map fun x => (x, rest))
    {steps : Nat} (hsteps : members.length < steps) (first : Bool) {w : List Char} (hw : Blanks w)
    (s : σ) (rest : List Char) :
    readMembers member steps first s
        (w ++ (listed first (members.map Member.written) ++ '}' :: rest)) =
      (members.foldlM out s).map fun x => (x, rest) := by
  induction members generalizing steps first w s with
  | nil =>
    obtain ⟨n, rfl⟩ := Nat.exists_eq_add_of_lt hsteps
    rw [List.map_nil, listed, List.nil_append, readMembers, nextItem_close (.inr rfl) hw]
    rfl
  | cons m members ih =>
    obtain ⟨n, rfl⟩ : ∃ n, steps = n + 1 := ⟨steps - 1, by omega⟩
    obtain ⟨hlabel, hlabels⟩ := List.forall_mem_cons.1 hlabels
    obtain ⟨hgive, hgives⟩ := List.forall_mem_cons.1 hgives
    have hbehind : Blanks m.value.behind := hlabel.2.2.2
    have hrest := ih hlabels hgives (Nat.lt_of_succ_lt_succ hsteps) false hbehind
    have hmember := hgive s _
      ((stops_listed (members.map Member.written) (.inr rfl) rest).append hbehind)
    obtain ⟨label, htext, hread⟩ := hlabel.1.read
    rw [List.map_cons, readMembers, nextItem_member first hw hlabel, htext]
    show (readString (label ++ _) >>= fun r => member s r.1 r.2 >>= fun q =>
      readMembers member n false q.1 q.2) = _
    rw [hread]
    show (member s m.name _ >>= fun q => readMembers member n false q.1 q.2) = _
    rw [hmember, List.foldlM_cons]
    cases out s m with
    | error e => rfl
    | ok x => exact hrest x

theorem skipMembers_listed {item : Reader Unit}
    (hgives : ∀ m ∈ members, Gives item m.value.text (.ok ())) {steps : Nat}
    (hsteps : members.length < steps) (first : Bool) {w : List Char} (hw : Blanks w)
    (rest : List Char) :
    skipValue.skipMembers item steps first
        (w ++ (listed first (members.map Member.written) ++ '}' :: rest)) = .ok ((), rest) := by
  induction members generalizing steps first w with
  | nil =>
    obtain ⟨n, rfl⟩ := Nat.exists_eq_add_of_lt hsteps
    rw [List.map_nil, listed, List.nil_append, skipValue.skipMembers,
      nextItem_close (.inr rfl) hw]
    rfl
  | cons m members ih =>
    obtain ⟨n, rfl⟩ : ∃ n, steps = n + 1 := ⟨steps - 1, by omega⟩
    obtain ⟨hlabel, hlabels⟩ := List.forall_mem_cons.1 hlabels
    obtain ⟨hgive, hgives⟩ := List.forall_mem_cons.1 hgives
    have hbehind : Blanks m.value.behind := hlabel.2.2.2
    have hrest := ih hlabels hgives (Nat.lt_of_succ_lt_succ hsteps) false hbehind
    have hitem := hgive.afterColon hlabel.2.1.2 hlabel.2.2.1
      ((stops_listed (members.map Member.written) (.inr rfl) rest).append hbehind)
    obtain ⟨label, htext, hskip⟩ := hlabel.1.skip
    rw [List.map_cons, skipValue.skipMembers, nextItem_member first hw hlabel, htext]
    show (skipString (label ++ _) >>= fun r => afterColon item r.2 >>= fun q =>
      skipValue.skipMembers item n false q.2) = _
    rw [hskip]
    show (afterColon item _ >>= fun q => skipValue.skipMembers item n false q.2) = _
    rw [hitem]
    exact hrest

end members

end AtomicCss.Json
