import AtomicCss.Proofs.Css.Cutting

/-!
# Texts that end in front of a break

Where a component ends, a blank or a comment follows it. The tokens in front of that place are those
of the text that ends there (`cut_truncated`), although the reader looks ahead, with two
exceptions. A backslash in front of a newline stands alone, but at the end of a text it begins an
escape (`Hangs`); it goes into the component in both cases. The name `url(` with blanks behind it
may look for a quote behind the break; but then its bracket is still open there.

A scan of `text ++ x :: rest` that stops at `x` or before it leaves `left ++ x :: rest`. One that
goes beyond `x` leaves a part of `rest`, which is too short for that (`not_beyond`).
-/

namespace AtomicCss.Css

/-- A character that a component can end in front of. -/
def isBreak (x : Char) : Bool := isBlank x || x == '/'

theorem not_beyond {left rest behind : List Char} {x : Char} (h : behind = left ++ x :: rest)
    (hs : behind <:+ rest) : False := by
  subst h
  have hl := hs.length_le
  simp only [List.length_append, List.length_cons] at hl
  omega

/-- What a scan leaves that would be read as an escape if the text ended here. -/
def Hangs (x : Char) (left : List Char) : Prop :=
  isNewline x = true ∧ (left = ['\\'] ∨ left = ['-', '\\'])

/-- A scan leaves `left` in front of `x`; if the text ends there, it leaves `behind`. -/
def Agrees (x : Char) (left behind : List Char) : Prop :=
  behind = left ∨ behind = [] ∧ Hangs x left

section

variable {x : Char} {rest : List Char}

theorem cancel_break {c : Char} {text left : List Char}
    (h : c :: (text ++ x :: rest) = left ++ x :: rest) : c :: text = left :=
  List.append_cancel_right (h : c :: text ++ x :: rest = left ++ x :: rest)

theorem cancel_opening {c : Char} {name arguments text : List Char}
    (h : name ++ '(' :: (arguments ++ x :: rest) = c :: (text ++ x :: rest)) :
    name ++ '(' :: arguments = c :: text :=
  List.append_cancel_right
    (show (name ++ '(' :: arguments) ++ x :: rest = (c :: text) ++ x :: rest by simpa using h)

/-! ## What a token begins with -/

theorem not_of_isBreak {p : Char → Bool}
    (hp : [' ', '\t', '\n', '\r', '\x0c', '/'].any p = false) (hx : isBreak x = true) :
    p x = false := by
  rw [Bool.eq_false_iff]
  intro h
  refine not_mem_of_any hp h ?_
  simpa [isBreak, isBlank, isNewline, or_assoc] using hx

theorem ne_of_isBreak (hx : isBreak x = true) {d : Char} (hd : isBreak d = false) : x ≠ d := by
  rintro rfl
  rw [hd] at hx
  cases hx

theorem startsWith_break {p : Char → Bool} (hp : p x = false) (text : List Char) :
    startsWith p (text ++ x :: rest) = startsWith p text := by
  cases text with
  | nil => exact hp
  | cons c text => rfl

theorem startsNumber_break (hx : isBreak x = true) (text : List Char) :
    startsNumber (text ++ x :: rest) = startsNumber text := by
  have hd : x.isDigit = false := not_of_isBreak (by decide) hx
  cases text with
  | nil =>
    have hp : x ≠ '.' := ne_of_isBreak hx (by decide)
    simp [startsNumber, startsWith, hd, hp]
  | cons c text => rw [List.cons_append, startsNumber_cons, startsNumber_cons, startsWith_break hd]

variable (x rest) in
theorem escapable_break (text : List Char) :
    escapable (text ++ x :: rest) = escapable text ∨
      text = [] ∧ isNewline x = true ∧ escapable (x :: rest) = false := by
  cases text with
  | nil => cases hn : isNewline x <;> simp [escapable, startsWith, hn]
  | cons c text => exact .inl rfl

variable (rest) in
theorem startsName_break (hx : isBreak x = true) (text : List Char) :
    startsName (text ++ x :: rest) = startsName text ∨
      Hangs x text ∧ startsName (text ++ x :: rest) = false := by
  have hn : isNameStart x = false := not_of_isBreak (by decide) hx
  have hm : x ≠ '-' := ne_of_isBreak hx (by decide)
  have hb : x ≠ '\\' := ne_of_isBreak hx (by decide)
  cases text with
  | nil =>
    rw [List.nil_append, startsName_cons hm hb, hn]
    exact .inl rfl
  | cons c text =>
    rw [List.cons_append]
    by_cases hc : c = '-'
    · subst hc
      rw [startsName_hyphen, startsName_hyphen]
      cases text with
      | nil => simp [continuesHyphen, startsWith, hn, hm, hb]
      | cons d text =>
        rcases escapable_break x rest text with he | ⟨rfl, hl, he⟩
        · simp [continuesHyphen, startsWith, he]
        · by_cases hd : d = '\\'
          · subst hd
            refine .inr ⟨⟨hl, .inr rfl⟩, ?_⟩
            simp [continuesHyphen, startsWith, he, show isNameStart '\\' = false by decide]
          · have hd' : (d == '\\') = false := beq_eq_false_iff_ne.2 hd
            simp [continuesHyphen, startsWith, hd']
    · by_cases hs : c = '\\'
      · subst hs
        rw [startsName_backslash, startsName_backslash]
        rcases escapable_break x rest text with he | ⟨rfl, hl, he⟩
        · exact .inl he
        · exact .inr ⟨⟨hl, .inl rfl⟩, he⟩
      · rw [startsName_cons hc hs, startsName_cons hc hs]
        exact .inl rfl

/-! ## Scans -/

theorem dropWhile_break {p : Char → Bool} (hp : p x = false) (text : List Char) :
    (text ++ x :: rest).dropWhile p = text.dropWhile p ++ x :: rest := by
  induction text with
  | nil => simp [hp]
  | cons c text ih => cases hc : p c <;> simp [hc, ih]

theorem afterDigits_break (hx : isBreak x = true) (text : List Char) :
    afterDigits (text ++ x :: rest) = afterDigits text ++ x :: rest :=
  dropWhile_break (not_of_isBreak (by decide) hx) text

theorem afterDecimals_break (hx : isBreak x = true) (text : List Char) :
    afterDecimals (text ++ x :: rest) = afterDecimals text ++ x :: rest := by
  have hd : x.isDigit = false := not_of_isBreak (by decide) hx
  have hp : x ≠ '.' := ne_of_isBreak hx (by decide)
  cases text with
  | nil => simp [afterDecimals, hp]
  | cons c text =>
    by_cases hc : c = '.'
    · subst hc
      simp only [List.cons_append, afterDecimals, startsWith_break hd, afterDigits_break hx]
      split <;> rfl
    · simp [afterDecimals, hc]

theorem afterExponent_break (hx : isBreak x = true) (text : List Char) :
    afterExponent (text ++ x :: rest) = afterExponent text ++ x :: rest := by
  have hd : x.isDigit = false := not_of_isBreak (by decide) hx
  cases text with
  | nil =>
    have he : x ≠ 'e' := ne_of_isBreak hx (by decide)
    have hE : x ≠ 'E' := ne_of_isBreak hx (by decide)
    simp [afterExponent, he, hE]
  | cons e text =>
    by_cases he : e = 'e' ∨ e = 'E'
    · cases text with
      | nil =>
        have hp : x ≠ '+' := ne_of_isBreak hx (by decide)
        have hm : x ≠ '-' := ne_of_isBreak hx (by decide)
        simp [afterExponent, hd, hp, hm]
      | cons sign digits =>
        simp only [List.cons_append, afterExponent, if_pos he, startsWith_break hd]
        rw [← List.cons_append, afterDigits_break hx, afterDigits_break hx]
        split
        · rfl
        · split <;> rfl
    · simp [afterExponent, he]

theorem afterName_break (hx : isBreak x = true) {e : Escape} {text left : List Char}
    (h : afterName e (text ++ x :: rest) = left ++ x :: rest) :
    Agrees x left (afterName e text) := by
  induction text generalizing e with
  | nil =>
    have hn : isNameChar x = false := not_of_isBreak (by decide) hx
    have hb : x ≠ '\\' := ne_of_isBreak hx (by decide)
    rw [List.nil_append, afterName] at h
    cases he : e.next? x with
    | some e' =>
      simp only [he] at h
      exact (not_beyond h (afterName_suffix e' rest)).elim
    | none =>
      simp only [he, hn, hb, Bool.false_eq_true, if_false, false_and] at h
      exact .inl (List.self_eq_append_left.1 h).symm
  | cons c text ih =>
    rw [List.cons_append, afterName] at h
    rw [afterName]
    cases he : e.next? c with
    | some e' =>
      simp only [he] at h ⊢
      exact ih h
    | none =>
      simp only [he] at h ⊢
      by_cases hc : isNameChar c = true
      · rw [if_pos hc] at h ⊢
        exact ih h
      · rw [if_neg hc] at h ⊢
        rcases escapable_break x rest text with hs | ⟨rfl, hl, hs⟩
        · rw [hs] at h
          split at h
          · next hb =>
            rw [if_pos hb]
            exact ih h
          · next hb =>
            rw [if_neg hb]
            exact .inl (List.append_cancel_right h)
        · rw [List.nil_append, hs] at h
          simp only [Bool.false_eq_true, and_false, if_false] at h
          obtain rfl : [c] = left := cancel_break h
          by_cases hb : c = '\\'
          · subst hb
            exact .inr ⟨rfl, hl, .inl rfl⟩
          · rw [if_neg fun h => hb h.1]
            exact .inl rfl

theorem afterUnit_eq (text : List Char) (h : text.head? ≠ some '%') :
    afterUnit text = if startsName text then afterName .none text else text := by
  rw [afterUnit]
  rintro rest rfl
  exact h rfl

theorem afterUnit_break (hx : isBreak x = true) {text left : List Char}
    (h : afterUnit (text ++ x :: rest) = left ++ x :: rest) : Agrees x left (afterUnit text) := by
  by_cases hp : text.head? = some '%'
  · cases text with
    | nil => cases hp
    | cons c text =>
      cases hp
      exact .inl (List.append_cancel_right h)
  · have hp' : (text ++ x :: rest).head? ≠ some '%' := by
      cases text with
      | nil => simpa using ne_of_isBreak hx (by decide)
      | cons c text => exact hp
    rw [afterUnit_eq _ hp'] at h
    rw [afterUnit_eq _ hp]
    rcases startsName_break rest hx text with hn | ⟨hh, hn⟩
    · rw [hn] at h
      split at h
      · next hs =>
        rw [if_pos hs]
        exact afterName_break hx h
      · next hs =>
        rw [if_neg hs]
        exact .inl (List.append_cancel_right h)
    · rw [hn] at h
      obtain rfl := List.append_cancel_right h
      obtain ⟨hl, rfl | rfl⟩ := hh
      · exact .inr ⟨rfl, hl, .inl rfl⟩
      · exact .inr ⟨rfl, hl, .inr rfl⟩

theorem afterNumber_break (hx : isBreak x = true) {text left : List Char}
    (h : afterNumber (text ++ x :: rest) = left ++ x :: rest) :
    Agrees x left (afterNumber text) := by
  rw [afterNumber, afterDigits_break hx, afterDecimals_break hx, afterExponent_break hx] at h
  exact afterUnit_break hx h

theorem afterString_break {quote : Char} {e : Escape} {text left : List Char}
    (h : afterString quote e (text ++ x :: rest) = left ++ x :: rest) :
    afterString quote e text = left := by
  fun_induction afterString quote e text with
  | case1 e =>
    rw [List.nil_append, afterString] at h
    split at h
    · exact (not_beyond h (afterString_suffix _ _ _)).elim
    · split at h
      · exact (not_beyond h List.suffix_rfl).elim
      · split at h
        · exact (List.self_eq_append_left.1 h).symm
        · split at h <;> exact (not_beyond h (afterString_suffix _ _ _)).elim
  | case2 e c text e' he ih =>
    simp only [List.cons_append, afterString, he] at h
    exact ih h
  | case3 e text he =>
    simp only [List.cons_append, afterString, he, if_true] at h
    exact List.append_cancel_right h
  | case4 e c text he hc hn =>
    simp only [List.cons_append, afterString, he, hc, if_false, hn, if_true] at h
    exact cancel_break h
  | case5 e text he hc hn ih =>
    simp only [List.cons_append, afterString, he, hc, if_false, hn, if_true] at h
    exact ih h
  | case6 e c text he hc hn hb ih =>
    simp only [List.cons_append, afterString, he, hc, if_false, hn, hb] at h
    exact ih h

theorem afterComment_break {text left : List Char}
    (h : afterComment (text ++ x :: rest) = left ++ x :: rest) : afterComment text = left := by
  fun_induction afterComment text with
  | case1 => exact (not_beyond h (afterComment_suffix _)).elim
  | case2 text => exact List.append_cancel_right h
  | case3 c text hne ih =>
    by_cases hx : c = '*' ∧ text = [] ∧ x = '/'
    · obtain ⟨rfl, rfl, rfl⟩ := hx
      exact (not_beyond h List.suffix_rfl).elim
    · rw [List.cons_append, afterComment] at h
      · exact ih h
      · intro rest' hc ht
        cases text with
        | nil => exact hx ⟨hc, rfl, (List.cons.inj ht).1⟩
        | cons d text =>
          obtain ⟨rfl, -⟩ := List.cons.inj ht
          exact hne _ hc rfl

theorem afterBadAddress_break {text left : List Char}
    (h : afterBadAddress (text ++ x :: rest) = left ++ x :: rest) :
    afterBadAddress text = left := by
  fun_induction afterBadAddress text with
  | case1 => exact (not_beyond h (afterBadAddress_suffix _)).elim
  | case2 c =>
    simp only [List.cons_append, List.nil_append, afterBadAddress] at h
    split at h
    · exact (List.self_eq_append_left.1 h).symm
    · split at h
      · exact (not_beyond h ((afterBadAddress_suffix _).trans (List.tail_suffix _))).elim
      · exact (not_beyond h (afterBadAddress_suffix _)).elim
  | case3 d text => exact cancel_break h
  | case4 c d text hc hb ih =>
    simp only [List.cons_append, afterBadAddress, hb] at h
    exact ih h
  | case5 c d text hc hb ih =>
    simp only [List.cons_append, afterBadAddress, hc, if_false, hb] at h
    exact ih h

theorem afterAddressBlanks_break {text left : List Char}
    (h : afterAddressBlanks (text ++ x :: rest) = left ++ x :: rest) :
    afterAddressBlanks text = left := by
  fun_induction afterAddressBlanks text with
  | case1 => exact (not_beyond h (afterAddressBlanks_suffix _)).elim
  | case2 c text hc ih =>
    simp only [List.cons_append, afterAddressBlanks, hc, if_true] at h
    exact ih h
  | case3 text _ =>
    exact List.append_cancel_right h
  | case4 c text hb hc =>
    simp only [List.cons_append, afterAddressBlanks, hb, hc, if_false] at h
    exact afterBadAddress_break h

theorem afterAddress_break {e : Escape} {text left : List Char}
    (h : afterAddress e (text ++ x :: rest) = left ++ x :: rest) : afterAddress e text = left := by
  fun_induction afterAddress e text with
  | case1 => exact (not_beyond h (afterAddress_suffix _ _)).elim
  | case2 e c text e' he ih =>
    simp only [List.cons_append, afterAddress, he] at h
    exact ih h
  | case3 e c text he hb =>
    simp only [List.cons_append, afterAddress, he, hb, if_true] at h
    exact afterAddressBlanks_break h
  | case4 e text he hb =>
    simp only [List.cons_append, afterAddress, he, hb] at h
    exact List.append_cancel_right h
  | case5 e c text he hb hc hbad =>
    simp only [List.cons_append, afterAddress, he, hb, hc, hbad, Bool.false_eq_true, if_true,
      if_false] at h
    exact afterBadAddress_break h
  | case6 e text hs he hb hc hbad ih =>
    simp only [List.cons_append, afterAddress, he, hb, hc, hbad, Bool.false_eq_true, if_true,
      if_false] at h
    split at h
    · exact ih h
    · next hn =>
      rcases escapable_break x rest text with ht | ⟨rfl, -, -⟩
      · exact absurd (ht.trans hs) hn
      · exact (not_beyond h (afterBadAddress_suffix _)).elim
  | case7 e text hs he hb hc hbad =>
    have ht : escapable (text ++ x :: rest) = escapable text := by
      rcases escapable_break x rest text with ht | ⟨rfl, -, -⟩
      · exact ht
      · exact absurd rfl hs
    simp only [List.cons_append, afterAddress, he, hb, hc, hbad, ht, hs, Bool.false_eq_true,
      if_true, if_false] at h
    exact afterBadAddress_break h
  | case8 e c text he hb hc hbad hs ih =>
    simp only [List.cons_append, afterAddress, he, hb, hc, hbad, hs, if_false] at h
    exact ih h

theorem dropWhile_eq_break {p : Char → Bool} {text left : List Char}
    (h : (text ++ x :: rest).dropWhile p = left ++ x :: rest) : text.dropWhile p = left := by
  induction text with
  | nil =>
    rw [List.nil_append, List.dropWhile_cons] at h
    split at h
    · exact (not_beyond h (List.dropWhile_suffix p)).elim
    · exact (List.self_eq_append_left.1 h).symm
  | cons c text ih =>
    rw [List.cons_append, List.dropWhile_cons] at h
    rw [List.dropWhile_cons]
    split at h
    · next hc =>
      rw [if_pos hc]
      exact ih h
    · next hc =>
      rw [if_neg hc]
      exact cancel_break h

/-! ## Tokens -/

theorem Hangs.afterName_eq {left : List Char} (h : Hangs x left) : afterName .none left = [] := by
  obtain ⟨-, rfl | rfl⟩ := h <;> rfl

theorem startsName_of_break (hx : isBreak x = true) {text : List Char}
    (h : startsName (text ++ x :: rest) = true) : startsName text = true := by
  rcases startsName_break rest hx text with hn | ⟨-, hn⟩
  · rw [← hn, h]
  · rw [hn] at h
    cases h

theorem hangs_of_startsName (hx : isBreak x = true) {text : List Char}
    (h : startsName text = true) (h' : startsName (text ++ x :: rest) = false) : Hangs x text := by
  rcases startsName_break rest hx text with hn | ⟨hh, -⟩
  · rw [← hn, h'] at h
    cases h
  · exact hh

theorem afterName_opening_break (hx : isBreak x = true) {text arguments : List Char}
    (h : afterName .none (text ++ x :: rest) = '(' :: (arguments ++ x :: rest)) :
    afterName .none text = '(' :: arguments := by
  have hagrees : Agrees x ('(' :: arguments) (afterName .none text) := afterName_break hx h
  rcases hagrees with h | ⟨-, -, h | h⟩
  · exact h
  · cases (List.cons.inj h).1
  · cases (List.cons.inj h).1

theorem dropWhile_append_of_all_eq_false {p : Char → Bool} {text : List Char}
    (h : text.all p = false) (more : List Char) :
    (text ++ more).dropWhile p = text.dropWhile p ++ more ∧ text.dropWhile p ≠ [] := by
  induction text with
  | nil => cases h
  | cons c text ih =>
    cases hc : p c with
    | true =>
      rw [List.all_cons, hc, Bool.true_and] at h
      simpa [hc] using ih h
    | false => simp [hc]

theorem head?_append_of_ne_nil {text : List Char} (h : text ≠ []) (more : List Char) :
    (text ++ more).head? = text.head? := by
  cases text with
  | nil => exact absurd rfl h
  | cons c text => rfl

theorem address_break {arguments left : List Char}
    (h : afterAddress .none ((arguments ++ x :: rest).dropWhile isBlank) = left ++ x :: rest) :
    arguments.all isBlank = false ∧
      afterAddress .none (arguments.dropWhile isBlank) = left := by
  cases hall : arguments.all isBlank with
  | true =>
    rw [List.dropWhile_append_of_pos (List.all_eq_true.1 hall)] at h
    have htail : ((x :: rest).dropWhile isBlank).tail <:+ rest := by
      rw [List.dropWhile_cons]
      split
      · exact (List.tail_suffix _).trans (List.dropWhile_suffix _)
      · exact List.suffix_rfl
    exact (not_beyond h ((afterAddress_suffix _ _).trans htail)).elim
  | false =>
    rw [(dropWhile_append_of_all_eq_false hall _).1] at h
    exact ⟨rfl, afterAddress_break h⟩

/-- What becomes of a token that leaves `left` in front of `x` if the text ends there. -/
inductive Recut (x c : Char) (text left : List Char) : TokenKind → Prop
  /-- It is the same token. -/
  | same {kind : TokenKind} : Cuts c text kind left → Recut x c text left kind
  /-- It takes up the backslash that hangs behind it. -/
  | longer : Hangs x left → Cuts c text .other [] → Recut x c text left .other
  /-- It is the name of an address, and the quote behind its bracket is cut off. -/
  | unquoted : left.all isBlank = true → Recut x c text left (.opening .round)

theorem Agrees.recut {c : Char} {text left behind : List Char} (h : Agrees x left behind)
    (hc : Cuts c text .other behind) : Recut x c text left .other := by
  rcases h with rfl | ⟨rfl, hh⟩
  · exact .same hc
  · exact .longer hh hc

/-- A character that stands alone in front of more text stands alone at the end, unless a backslash
hangs behind it or is the character. -/
theorem Lone.of_break (hx : isBreak x = true) {c : Char} {text : List Char}
    (h : Lone c (text ++ x :: rest)) : Recut x c text text .other := by
  -- what the end of the text lets begin a name is a backslash, alone or behind a hyphen
  by_cases hn : startsName (c :: text) = true
  · obtain ⟨hl, ht | ht⟩ := hangs_of_startsName hx hn h.name
    · obtain ⟨rfl, rfl⟩ := List.cons.inj ht
      exact .same (.word rfl (by decide) (by decide))
    · obtain ⟨rfl, rfl⟩ := List.cons.inj ht
      exact .longer ⟨hl, .inl rfl⟩ (.word rfl (by decide) (by decide))
  by_cases hh : c = '#' ∧ startsName text = true
  · have hangs := hangs_of_startsName hx hh.2 (h.hash hh.1).1
    exact .longer hangs (hangs.afterName_eq ▸ .hash hh.1 (.inl hh.2))
  by_cases hk : c = '@' ∧ startsName text = true
  · have hangs := hangs_of_startsName hx hk.2 (h.keyword hk.1)
    exact .longer hangs (hangs.afterName_eq ▸ .keyword hk.1 hk.2)
  have hd : isNameChar x = false := not_of_isBreak (by decide) hx
  refine .same (.lone ?_)
  exact {
    blank := h.blank
    quote := h.quote
    bracket := h.bracket
    slash := fun hc hs => h.slash hc (by cases text <;> simp_all)
    sign := fun hc => startsNumber_break hx text ▸ h.sign hc
    number := startsNumber_break hx (c :: text) ▸ h.number
    name := Bool.not_eq_true _ ▸ hn
    hash := fun hc =>
      ⟨Bool.eq_false_iff.2 fun hs => hh ⟨hc, hs⟩, startsWith_break hd text ▸ (h.hash hc).2⟩
    keyword := fun hc => Bool.eq_false_iff.2 fun hs => hk ⟨hc, hs⟩
    arrow := fun hc hp => h.arrow hc (hp.trans (List.prefix_append _ _))
    tag := fun hc hp => h.tag hc (hp.trans (List.prefix_append _ _)) }

/-- How a token that ends in front of `x` or before it is told if the text ends there. -/
theorem Cuts.of_break (hx : isBreak x = true) {c : Char} {text left : List Char} {kind : TokenKind}
    (h : Cuts c (text ++ x :: rest) kind (left ++ x :: rest)) : Recut x c text left kind := by
  have arrow : ¬ ['-', '>'] <+: text ++ x :: rest → ¬ ['-', '>'] <+: text :=
    fun hn hp => hn (hp.trans (List.prefix_append _ _))
  generalize hb : left ++ x :: rest = behind at h
  cases h with
  | blank h => exact .same (dropWhile_eq_break hb.symm ▸ .blank h)
  | quoted h => exact .same (afterString_break hb.symm ▸ .quoted h)
  | opening b h =>
    obtain rfl := List.append_cancel_right hb
    exact .same (.opening b h)
  | closing b h =>
    obtain rfl := List.append_cancel_right hb
    exact .same (.closing b h)
  | comment hc hr =>
    cases text with
    | nil => exact absurd (List.cons.inj hr).1 (ne_of_isBreak hx (by decide))
    | cons d text =>
      obtain ⟨rfl, rfl⟩ := List.cons.inj hr
      exact .same (afterComment_break hb.symm ▸ .comment hc rfl)
  | signed hc hn =>
    rw [startsNumber_break hx] at hn
    exact (afterNumber_break hx hb.symm).recut (.signed hc hn)
  | number hn =>
    rw [← List.cons_append, startsNumber_break hx] at hn
    exact (afterNumber_break hx hb.symm).recut (.number hn)
  | hash hc hn =>
    have hd : isNameChar x = false := not_of_isBreak (by decide) hx
    rw [startsWith_break hd] at hn
    exact (afterName_break hx hb.symm).recut (.hash hc (hn.imp_left (startsName_of_break hx)))
  | keyword hc hn =>
    exact (afterName_break hx hb.symm).recut (.keyword hc (startsName_of_break hx hn))
  | arrow hc hr =>
    subst hb
    exact .same (.arrow hc (List.append_cancel_right (hr : _ = '-' :: '>' :: left ++ x :: rest)))
  | tag hc hr =>
    subst hb
    exact .same (.tag hc
      (List.append_cancel_right (hr : _ = '!' :: '-' :: '-' :: left ++ x :: rest)))
  | word hn ha hh =>
    have hagrees : Agrees x left (afterName .none (c :: text)) := afterName_break hx hb.symm
    refine hagrees.recut (.word (startsName_of_break hx hn) (fun hc => arrow (ha hc)) ?_)
    rw [← hb] at hh
    rcases hagrees with hl | ⟨hl, -⟩
    · rw [hl]
      cases left with
      | nil => simp
      | cons d left => exact hh
    · simp [hl]
  | function hn ha hr hname hu =>
    subst hb
    -- the character that the name `url` looks for is in `left`, or it is beyond the break
    cases hall : left.all isBlank with
    | true => exact .unquoted hall
    | false =>
      refine .same (.function (startsName_of_break hx hn) (fun hc => arrow (ha hc))
        (afterName_opening_break hx hr) (cancel_opening hname) fun hu' => ?_)
      have hd := dropWhile_append_of_all_eq_false hall (x :: rest)
      have hq := hu hu'
      rwa [hd.1, head?_append_of_ne_nil hd.2] at hq
  | @address name arguments hn ha hr hname hu hq =>
    obtain ⟨args, rfl⟩ : ∃ args, arguments = args ++ x :: rest := by
      have hsuffix : left ++ x :: rest <:+ arguments :=
        hb ▸ ((afterAddress_suffix _ _).trans (List.tail_suffix _)).trans (List.dropWhile_suffix _)
      obtain ⟨front, hfront⟩ := hsuffix
      exact ⟨front ++ left, by rw [← hfront, List.append_assoc]⟩
    obtain ⟨hall, haddress⟩ := address_break hb.symm
    have hd := dropWhile_append_of_all_eq_false hall (x :: rest)
    rw [hd.1, head?_append_of_ne_nil hd.2] at hq
    exact .same (haddress ▸ .address (startsName_of_break hx hn) (fun hc => arrow (ha hc))
      (afterName_opening_break hx hr) (cancel_opening hname) hu hq)
  | lone hl =>
    obtain rfl := List.append_cancel_right hb
    exact hl.of_break hx

/-! ## Components -/

theorem Hangs.cut_eq {left : List Char} (h : Hangs x left) (s : Cutting) :
    cut s left = s.add left s.brackets := by
  have hcuts : ∃ c tail, left = c :: tail ∧ Cuts c tail .other [] := by
    obtain ⟨-, rfl | rfl⟩ := h
    · exact ⟨'\\', [], rfl, .word rfl (by decide) (by decide)⟩
    · exact ⟨'-', ['\\'], rfl, .word rfl (by decide) (by decide)⟩
  obtain ⟨c, tail, rfl, hc⟩ := hcuts
  rw [cut_of_cuts _ hc (List.append_nil _), Cutting.step_other, cut_nil]

theorem cut_blanks_inside {s : Cutting} {text : List Char} (hs : s.brackets ≠ [])
    (h : text.all isBlank = true) : (cut s text).brackets = s.brackets := by
  induction text generalizing s with
  | nil => rfl
  | cons c text ih =>
    rw [List.all_cons, Bool.and_eq_true] at h
    rw [cut_blank_inside hs h.1]
    exact ih hs h.2

/-- The tokens in front of a break outside brackets do to a state what the text does that ends
there. -/
theorem cut_truncated (hx : isBreak x = true) {text : List Char} {us ws : List Token}
    (h : tokens text = us ++ ws) (hws : textOf ws = x :: rest) {s : Cutting}
    (hb : (us.foldl Cutting.step s).brackets = []) :
    cut s (textOf us) = us.foldl Cutting.step s := by
  induction us generalizing s text with
  | nil => rfl
  | cons u us ih =>
    rw [List.cons_append] at h
    obtain ⟨c, front, behind, hu, rfl, hc, hbehind⟩ := tokens_eq_cons h
    have htext : behind = textOf us ++ x :: rest := by
      rw [← textOf_of_tokens hbehind, textOf_append, hws]
    obtain ⟨kind, _⟩ := u
    subst hu htext
    have hrest := ih hbehind hb
    rw [List.foldl_cons] at hb ⊢
    rw [textOf_cons, ← hrest, List.cons_append]
    rw [← List.append_assoc] at hc
    -- a longer token does the same as its parts, and a bracket that is left open is excluded by `hb`
    cases hc.of_break hx with
    | same hsame => exact cut_of_cuts _ hsame rfl
    | longer hh hlonger =>
      rw [cut_of_cuts _ hlonger (List.append_nil _), hh.cut_eq, Cutting.step_other, Cutting.step_other,
        Cutting.add_add, Cutting.add_brackets, cut_nil]
      rfl
    | unquoted hblank =>
      rw [← hrest, Cutting.step_opening, cut_blanks_inside (by simp) hblank] at hb
      cases hb

end

end AtomicCss.Css
