import AtomicCss.Css
import AtomicCss.Text
import Mathlib.Tactic.SplitIfs

/-!
# Cutting a text into tokens

Every scan leaves an end of the text that it is given, so every token has a text of its own and the
texts of a text's tokens, put together, are the text again (`textOf_of_tokens`). `Cuts` lists the
tokens that a character can begin, and `tokens_of_cuts` takes one of them off a text.
-/

namespace AtomicCss.Css

/-! ## Scans leave an end of the text -/

theorem dropWhile_suffix_cons (p : Char → Bool) (c : Char) (rest : List Char) :
    rest.dropWhile p <:+ c :: rest :=
  (List.dropWhile_suffix p).trans (List.suffix_cons c rest)

theorem afterComment_suffix (text : List Char) : afterComment text <:+ text.tail := by
  fun_induction afterComment text with
  | case1 => exact List.suffix_rfl
  | case2 rest => exact List.suffix_cons '/' rest
  | case3 c rest _ ih => exact ih.trans (List.tail_suffix rest)

theorem afterName_suffix (e : Escape) (text : List Char) : afterName e text <:+ text := by
  fun_induction afterName e text with
  | case1 => exact List.suffix_rfl
  | case2 e c rest e' _ ih => exact ih.trans (List.suffix_cons c rest)
  | case3 e c rest _ _ ih => exact ih.trans (List.suffix_cons c rest)
  | case4 e c rest _ _ _ ih => exact ih.trans (List.suffix_cons c rest)
  | case5 => exact List.suffix_rfl

theorem afterDecimals_suffix (text : List Char) : afterDecimals text <:+ text := by
  fun_cases afterDecimals text with
  | case1 rest _ => exact dropWhile_suffix_cons _ _ _
  | case2 => exact List.suffix_rfl
  | case3 => exact List.suffix_rfl

theorem afterExponent_suffix (text : List Char) : afterExponent text <:+ text := by
  fun_cases afterExponent text with
  | case1 e he sign digits _ =>
    exact (List.dropWhile_suffix _).trans (List.suffix_cons e _)
  | case2 e he sign digits _ _ =>
    exact ((dropWhile_suffix_cons _ sign digits)).trans (List.suffix_cons e _)
  | _ => exact List.suffix_rfl

theorem afterUnit_suffix (text : List Char) : afterUnit text <:+ text := by
  fun_cases afterUnit text with
  | case1 rest => exact List.suffix_cons _ _
  | case2 => exact afterName_suffix _ _
  | case3 => exact List.suffix_rfl

theorem afterNumber_suffix (text : List Char) : afterNumber text <:+ afterDigits text :=
  (afterUnit_suffix _).trans ((afterExponent_suffix _).trans (afterDecimals_suffix _))

theorem afterString_suffix (quote : Char) (e : Escape) (text : List Char) :
    afterString quote e text <:+ text := by
  fun_induction afterString quote e text with
  | case1 => exact List.suffix_rfl
  | case2 e c rest e' _ ih => exact ih.trans (List.suffix_cons c rest)
  | case3 e rest _ => exact List.suffix_cons _ rest
  | case4 => exact List.suffix_rfl
  | case5 e rest _ _ _ ih => exact ih.trans (List.suffix_cons _ rest)
  | case6 e c rest _ _ _ _ ih => exact ih.trans (List.suffix_cons c rest)

theorem afterBadAddress_suffix (text : List Char) : afterBadAddress text <:+ text.tail := by
  fun_induction afterBadAddress text with
  | case1 => exact List.suffix_rfl
  | case2 => exact List.suffix_rfl
  | case3 => exact List.suffix_rfl
  | case4 c d rest _ _ ih =>
    exact (ih.trans (List.tail_suffix rest)).trans (List.suffix_cons d rest)
  | case5 c d rest _ _ ih => exact ih.trans (List.suffix_cons d rest)

theorem afterAddressBlanks_suffix (text : List Char) : afterAddressBlanks text <:+ text.tail := by
  fun_induction afterAddressBlanks text with
  | case1 => exact List.suffix_rfl
  | case2 c rest _ ih => exact ih.trans (List.tail_suffix rest)
  | case3 => exact List.suffix_rfl
  | case4 c rest => exact (afterBadAddress_suffix rest).trans (List.tail_suffix rest)

theorem afterAddress_suffix (e : Escape) (text : List Char) :
    afterAddress e text <:+ text.tail := by
  fun_induction afterAddress e text with
  | case1 => exact List.suffix_rfl
  | case2 e c rest e' _ ih => exact ih.trans (List.tail_suffix rest)
  | case3 e c rest => exact (afterAddressBlanks_suffix rest).trans (List.tail_suffix rest)
  | case4 => exact List.suffix_rfl
  | case5 e c rest => exact (afterBadAddress_suffix rest).trans (List.tail_suffix rest)
  | case6 e rest _ _ _ _ _ ih => exact ih.trans (List.tail_suffix rest)
  | case7 e rest => exact (afterBadAddress_suffix rest).trans (List.tail_suffix rest)
  | case8 e c rest _ _ _ _ _ ih => exact ih.trans (List.tail_suffix rest)

theorem afterName_cons_suffix {c : Char} {rest : List Char} (h : startsName (c :: rest) = true) :
    afterName .none (c :: rest) <:+ rest := by
  have hkept : isNameChar c = true ∨ (c = '\\' ∧ escapable rest = true) := by
    unfold startsName at h
    split at h
    · next heq => exact .inl (by rw [(List.cons.inj heq).1]; decide)
    · next heq =>
      obtain ⟨hc, hr⟩ := List.cons.inj heq
      exact .inr ⟨hc, hr ▸ h⟩
    · next heq =>
      rw [(List.cons.inj heq).1, isNameChar, h]
      simp
    · cases h
  rw [afterName]
  rcases hkept with hc | hc
  · simp only [Escape.next?, hc, if_true]
    exact afterName_suffix _ _
  · have hn : isNameChar '\\' = false := by decide
    simp only [Escape.next?, hc, hn, Bool.false_eq_true, if_false, and_self, if_true]
    exact afterName_suffix _ _

theorem take_append_of_suffix {text rest : List Char} (h : rest <:+ text) :
    text.take (text.length - rest.length) ++ rest = text := by
  obtain ⟨front, rfl⟩ := h
  simp

/-! ## Where names and numbers begin -/

theorem not_mem_of_any {p : Char → Bool} {cs : List Char} (hp : cs.any p = false) {c : Char}
    (hc : p c = true) : c ∉ cs :=
  fun hm => List.any_eq_false.1 hp c hm hc

theorem startsNumber_cons (c : Char) (rest : List Char) :
    startsNumber (c :: rest) = (c.isDigit || (c == '.' && startsWith Char.isDigit rest)) := by
  by_cases hc : c = '.'
  · subst hc
    simp [startsNumber]
  · have hn : startsNumber (c :: rest) = c.isDigit := by
      rw [startsNumber, startsWith]
      exact fun rest' h => hc (List.cons.inj h).1
    simp [hn, hc]

theorem afterNumber_digit {c : Char} (hd : c.isDigit = true) (rest : List Char) :
    afterNumber (c :: rest) = afterNumber rest := by
  simp [afterNumber, afterDigits, hd]

theorem afterNumber_point {rest : List Char} (hr : startsWith Char.isDigit rest = true) :
    afterNumber ('.' :: rest) = afterUnit (afterExponent (afterDigits rest)) := by
  simp [afterNumber, afterDigits, afterDecimals, hr, show Char.isDigit '.' = false by decide]

theorem startsNumber_cases {c : Char} {rest : List Char} (h : startsNumber (c :: rest) = true) :
    c.isDigit = true ∨ c = '.' ∧ startsWith Char.isDigit rest = true := by
  simpa [startsNumber_cons] using h

theorem afterNumber_cons_suffix {c : Char} {rest : List Char}
    (h : startsNumber (c :: rest) = true) : afterNumber (c :: rest) <:+ rest := by
  rcases startsNumber_cases h with hd | ⟨rfl, hr⟩
  · rw [afterNumber_digit hd]
    exact (afterNumber_suffix rest).trans (List.dropWhile_suffix _)
  · rw [afterNumber_point hr]
    exact (afterUnit_suffix _).trans ((afterExponent_suffix _).trans (List.dropWhile_suffix _))

theorem isDigit_of_isNameStart {c : Char} (h : isNameStart c = true) : c.isDigit = false := by
  rw [Bool.eq_false_iff]
  intro hd
  have hdigit : 48 ≤ c.toNat ∧ c.toNat ≤ 57 := Char.isDigit_iff_toNat.1 hd
  rw [isNameStart] at h
  delta Char.isAlpha at h
  simp only [Bool.or_eq_true, Text.isUpper_iff, Text.isLower_iff, decide_eq_true_eq] at h
  rcases h with ((h | h) | rfl | rfl | h)
  · omega
  · omega
  · exact absurd hdigit (by decide)
  · exact absurd hdigit (by decide)
  · omega

/-- Whether a name begins with a hyphen in front of this text. -/
def continuesHyphen (rest : List Char) : Bool :=
  startsWith (fun d => isNameStart d || d == '-') rest ||
    (startsWith (· == '\\') rest && escapable rest.tail)

theorem startsNumber_of_continuesHyphen {rest : List Char} (h : continuesHyphen rest = true) :
    startsNumber rest = false := by
  cases rest with
  | nil => rfl
  | cons d rest =>
    have hd : isNameStart d = true ∨ d = '-' ∨ d = '\\' := by
      simp only [continuesHyphen, startsWith, Bool.or_eq_true, Bool.and_eq_true, beq_iff_eq] at h
      rcases h with (h | h) | ⟨h, -⟩
      · exact .inl h
      · exact .inr (.inl h)
      · exact .inr (.inr h)
    rcases hd with hd | rfl | rfl
    · have hne : d ≠ '.' := by
        rintro rfl
        exact absurd hd (by decide)
      simp [startsNumber_cons, isDigit_of_isNameStart hd, hne]
    · simp [startsNumber_cons]
    · simp [startsNumber_cons]

theorem startsName_hyphen (rest : List Char) : startsName ('-' :: rest) = continuesHyphen rest := by
  cases rest with
  | nil => rfl
  | cons d rest => rfl

theorem startsName_backslash (rest : List Char) : startsName ('\\' :: rest) = escapable rest := rfl

theorem startsName_cons {c : Char} (hm : c ≠ '-') (hb : c ≠ '\\') (rest : List Char) :
    startsName (c :: rest) = isNameStart c := by
  rw [startsName]
  · exact fun c' rest' h _ => hm h
  · exact fun h => hb h

/-! ## Kinds of tokens -/

def isQuote (c : Char) : Bool := c = '"' ∨ c = '\''

def isBracket (c : Char) : Bool := c ∈ ['(', ')', '[', ']', '{', '}']

/-- The character that opens a block. -/
def Bracket.left : Bracket → Char
  | round => '('
  | square => '['
  | curly => '{'

/-- The character that closes a block. -/
def Bracket.right : Bracket → Char
  | round => ')'
  | square => ']'
  | curly => '}'

/-- A character that makes a token by itself in front of this text. -/
structure Lone (c : Char) (rest : List Char) : Prop where
  blank : isBlank c = false
  quote : isQuote c = false
  bracket : isBracket c = false
  slash : c = '/' → rest.head? ≠ some '*'
  sign : c = '+' ∨ c = '-' → startsNumber rest = false
  number : startsNumber (c :: rest) = false
  name : startsName (c :: rest) = false
  hash : c = '#' → startsName rest = false ∧ startsWith isNameChar rest = false
  keyword : c = '@' → startsName rest = false
  arrow : c = '-' → ¬ ['-', '>'] <+: rest
  tag : c = '<' → ¬ ['!', '-', '-'] <+: rest

/-- The token that begins with `c` in front of `rest`: its kind and the text behind it. -/
inductive Cuts (c : Char) (rest : List Char) : TokenKind → List Char → Prop
  | blank : isBlank c = true → Cuts c rest .blank (rest.dropWhile isBlank)
  | quoted : isQuote c = true → Cuts c rest .other (afterString c .none rest)
  | opening (b : Bracket) : c = b.left → Cuts c rest (.opening b) rest
  | closing (b : Bracket) : c = b.right → Cuts c rest (.closing b) rest
  | comment {body : List Char} : c = '/' → rest = '*' :: body →
      Cuts c rest .comment (afterComment body)
  | signed : c = '+' ∨ c = '-' → startsNumber rest = true → Cuts c rest .other (afterNumber rest)
  | number : startsNumber (c :: rest) = true → Cuts c rest .other (afterNumber (c :: rest))
  | hash : c = '#' → startsName rest = true ∨ startsWith isNameChar rest = true →
      Cuts c rest .other (afterName .none rest)
  | keyword : c = '@' → startsName rest = true → Cuts c rest .other (afterName .none rest)
  | arrow {behind : List Char} : c = '-' → rest = '-' :: '>' :: behind → Cuts c rest .other behind
  | tag {behind : List Char} : c = '<' → rest = '!' :: '-' :: '-' :: behind →
      Cuts c rest .other behind
  | word : startsName (c :: rest) = true → (c = '-' → ¬ ['-', '>'] <+: rest) →
      (afterName .none (c :: rest)).head? ≠ some '(' →
      Cuts c rest .other (afterName .none (c :: rest))
  | function {name arguments : List Char} : startsName (c :: rest) = true →
      (c = '-' → ¬ ['-', '>'] <+: rest) →
      afterName .none (c :: rest) = '(' :: arguments → name ++ '(' :: arguments = c :: rest →
      (isAddressName name = true → (arguments.dropWhile isBlank).head?.any isQuote = true) →
      Cuts c rest (.opening .round) arguments
  | address {name arguments : List Char} : startsName (c :: rest) = true →
      (c = '-' → ¬ ['-', '>'] <+: rest) →
      afterName .none (c :: rest) = '(' :: arguments → name ++ '(' :: arguments = c :: rest →
      isAddressName name = true → (arguments.dropWhile isBlank).head?.any isQuote = false →
      Cuts c rest .other (afterAddress .none (arguments.dropWhile isBlank))
  | lone : Lone c rest → Cuts c rest .other rest

theorem cuts_afterNameToken {c : Char} {rest : List Char} (h : startsName (c :: rest) = true)
    (ha : c = '-' → ¬ ['-', '>'] <+: rest) :
    Cuts c rest (afterNameToken (c :: rest)).1 (afterNameToken (c :: rest)).2 := by
  have hname : ∀ arguments, afterName .none (c :: rest) = '(' :: arguments →
      (c :: rest).take ((c :: rest).length - (afterName .none (c :: rest)).length) ++
        '(' :: arguments = c :: rest := by
    intro arguments hr
    rw [← hr]
    exact take_append_of_suffix (afterName_suffix _ _)
  fun_cases afterNameToken (c :: rest) with
  | case1 _ arguments hr hu hd =>
    have hb : (arguments.dropWhile isBlank).head?.any isQuote = false := by rw [hd]; rfl
    have hc := Cuts.address h ha hr (hname arguments hr) hu hb
    rwa [hd] at hc
  | case2 _ arguments hr hu q address hd hq =>
    refine .function h ha hr (hname arguments hr) fun _ => ?_
    rw [hd]
    simpa [isQuote] using hq
  | case3 _ arguments hr hu q address hd hq =>
    have hb : (arguments.dropWhile isBlank).head?.any isQuote = false := by
      rw [hd]
      simpa [isQuote] using hq
    have hc := Cuts.address h ha hr (hname arguments hr) hu hb
    rwa [hd] at hc
  | case4 _ arguments hr hu =>
    exact .function h ha hr (hname arguments hr) fun hu' => absurd hu' hu
  | case5 _ hr =>
    refine .word h ha fun hh => ?_
    cases hx : afterName .none (c :: rest) with
    | nil => rw [hx] at hh; cases hh
    | cons x arguments =>
      rw [hx] at hh
      cases hh
      exact hr _ hx

/-- The token that is read is one of those that `Cuts` lists. -/
theorem cuts_afterToken (c : Char) (rest : List Char) :
    Cuts c rest (afterToken c rest).1 (afterToken c rest).2 := by
  fun_cases afterToken c rest with
  | case1 _ hb => exact .blank hb
  | case2 _ hb hq => exact .quoted (by simpa [isQuote] using hq)
  | case3 _ hb hq hc h => exact .hash hc h
  -- a sign that begins neither a name nor a number here
  | case4 | case12 | case18 | case22 | case24 =>
    rename_i hc h
    subst hc
    apply Cuts.lone
    constructor <;> simp_all [startsNumber_cons, startsName_cons, isBracket, isNameStart, isQuote]
  | case5 =>
    rename_i hc
    exact .opening .round hc
  | case6 =>
    rename_i hc
    exact .opening .square hc
  | case7 =>
    rename_i hc
    exact .opening .curly hc
  | case8 =>
    rename_i hc
    exact .closing .round hc
  | case9 =>
    rename_i hc
    exact .closing .square hc
  | case10 =>
    rename_i hc
    exact .closing .curly hc
  | case11 =>
    rename_i hc h
    exact .signed (.inl hc) h
  | case13 =>
    rename_i hc h
    exact .signed (.inr hc) h
  | case14 =>
    rename_i hc _ h
    obtain ⟨behind, rfl⟩ := List.isPrefixOf_iff_prefix.1 h
    exact .arrow hc rfl
  | case15 =>
    rename_i hc _ ha h
    exact cuts_afterNameToken h fun _ hp => ha (List.isPrefixOf_iff_prefix.2 hp)
  | case16 =>
    rename_i hc hn ha h
    subst hc
    apply Cuts.lone
    constructor <;> simp_all [startsNumber_cons, isBracket, isQuote]
  | case17 =>
    rename_i hc h
    exact .number (by simp [startsNumber_cons, hc, h])
  | case19 =>
    rename_i hc body
    exact .comment hc rfl
  | case20 =>
    rename_i hc h
    subst hc
    have hs : rest.head? ≠ some '*' := by
      cases rest with
      | nil => simp
      | cons d body => simpa using h body
    apply Cuts.lone
    constructor <;> simp_all [startsNumber_cons, startsName_cons, isBracket, isNameStart, isQuote]
  | case21 =>
    rename_i hc h
    obtain ⟨behind, rfl⟩ := List.isPrefixOf_iff_prefix.1 h
    exact .tag hc rfl
  | case23 =>
    rename_i hc h
    exact .keyword hc h
  | case25 =>
    rename_i hc
    exact .number (by simp [startsNumber_cons, hc])
  | case26 =>
    rename_i hc _ _ _ _ _ h
    exact cuts_afterNameToken h fun hm => absurd hm hc
  | case27 =>
    apply Cuts.lone
    constructor <;> simp_all [startsNumber_cons, isBracket, isQuote]

theorem Lone.cuts_eq {c : Char} {rest behind : List Char} {kind : TokenKind} (h : Lone c rest)
    (hc : Cuts c rest kind behind) : kind = .other ∧ behind = rest := by
  cases hc with
  | blank hb => exact absurd hb (by simp [h.blank])
  | quoted hq => exact absurd hq (by simp [h.quote])
  | opening b hb =>
    subst hb
    exact absurd h.bracket (by cases b <;> decide)
  | closing b hb =>
    subst hb
    exact absurd h.bracket (by cases b <;> decide)
  | comment hs hr => exact absurd (hr ▸ rfl) (h.slash hs)
  | signed hs hn => exact absurd hn (by simp [h.sign hs])
  | number hn => exact absurd hn (by simp [h.number])
  | hash hh hn => simp [h.hash hh] at hn
  | keyword hk hn => exact absurd hn (by simp [h.keyword hk])
  | arrow ha hr => exact absurd ⟨_, hr.symm⟩ (h.arrow ha)
  | tag ht hr => exact absurd ⟨_, hr.symm⟩ (h.tag ht)
  | word hn => exact absurd hn (by simp [h.name])
  | function hn => exact absurd hn (by simp [h.name])
  | address hn => exact absurd hn (by simp [h.name])
  | lone => exact ⟨rfl, rfl⟩

/-- The characters by which a token is told that is neither a name nor a number. -/
def signs : List Char :=
  [' ', '\t', '\n', '\r', '\x0c', '"', '\'', '#', '(', '[', '{', ')', ']', '}', '+', '-', '.', '/',
    '<', '@']

theorem afterToken_of_not_mem_signs {c : Char} (h : c ∉ signs) (rest : List Char) :
    afterToken c rest =
      if c.isDigit then (.other, afterNumber (c :: rest))
      else if startsName (c :: rest) then afterNameToken (c :: rest)
      else (.other, rest) := by
  simp only [signs, List.mem_cons, List.not_mem_nil, or_false, not_or] at h
  simp [afterToken, isBlank, isNewline, h]

theorem afterToken_of_startsName {c : Char} {rest : List Char} (h : startsName (c :: rest) = true)
    (ha : c = '-' → ¬ ['-', '>'] <+: rest) : afterToken c rest = afterNameToken (c :: rest) := by
  by_cases hm : c = '-'
  · subst hm
    have hn : startsNumber rest = false := by
      rw [startsName_hyphen] at h
      exact startsNumber_of_continuesHyphen h
    simp [afterToken, isBlank, isNewline, hn, ha rfl, h]
  · by_cases hb : c = '\\'
    · subst hb
      rw [afterToken_of_not_mem_signs (by decide), if_neg (by decide), if_pos h]
    · have hs : isNameStart c = true := by rwa [startsName_cons hm hb] at h
      rw [afterToken_of_not_mem_signs (not_mem_of_any (by decide) hs), isDigit_of_isNameStart hs,
        if_neg (by decide), if_pos h]

theorem afterNameToken_of_opening {name arguments text : List Char}
    (hr : afterName .none text = '(' :: arguments) (hname : name ++ '(' :: arguments = text) :
    afterNameToken text =
      if isAddressName name then
        if (arguments.dropWhile isBlank).head?.any isQuote then (.opening .round, arguments)
        else (.other, afterAddress .none (arguments.dropWhile isBlank))
      else (.opening .round, arguments) := by
  have htake : text.take (text.length - ('(' :: arguments).length) = name := by
    rw [← hname]
    simp
  unfold afterNameToken
  simp only [hr, htake]
  split
  · cases arguments.dropWhile isBlank with
    | nil => rfl
    | cons q address => simp [isQuote]
  · rfl

/-- At most one token of those that `Cuts` lists begins with a character in front of a text. -/
theorem Cuts.afterToken_eq {c : Char} {rest behind : List Char} {kind : TokenKind}
    (h : Cuts c rest kind behind) : afterToken c rest = (kind, behind) := by
  cases h with
  | blank h => simp [afterToken, h]
  | quoted h =>
    simp only [isQuote, Bool.decide_or, Bool.or_eq_true, decide_eq_true_eq] at h
    rcases h with rfl | rfl
    · rfl
    · rfl
  | opening b h =>
    subst h
    cases b <;> rfl
  | closing b h =>
    subst h
    cases b <;> rfl
  | comment hc hr =>
    subst hc hr
    rfl
  | signed hc h =>
    rcases hc with rfl | rfl
    · simp [afterToken, h, isBlank, isNewline]
    · simp [afterToken, h, isBlank, isNewline]
  | number h =>
    by_cases hc : c = '.'
    · subst hc
      have hd : startsWith Char.isDigit rest = true := by simpa [startsNumber_cons] using h
      simp [afterToken, isBlank, isNewline, hd]
    · have hd : c.isDigit = true := by simpa [startsNumber_cons, hc] using h
      rw [afterToken_of_not_mem_signs (not_mem_of_any (by decide) hd), if_pos hd]
  | hash hc h =>
    subst hc
    simp [afterToken, h, isBlank, isNewline]
  | keyword hc h =>
    subst hc
    simp [afterToken, h, isBlank, isNewline]
  | arrow hc h =>
    subst hc h
    rfl
  | tag hc h =>
    subst hc h
    rfl
  | word hn ha h =>
    rw [afterToken_of_startsName hn ha, afterNameToken]
    split
    · next hr => exact absurd (hr ▸ rfl) h
    · rfl
  | function hn ha hr hname hu =>
    rw [afterToken_of_startsName hn ha, afterNameToken_of_opening hr hname]
    split
    · next h => rw [if_pos (hu h)]
    · rfl
  | address hn ha hr hname hu hq =>
    rw [afterToken_of_startsName hn ha, afterNameToken_of_opening hr hname, if_pos hu,
      if_neg (by simp [hq])]
  | lone h =>
    have hc := h.cuts_eq (cuts_afterToken c rest)
    exact Prod.ext hc.1 hc.2

/-! ## The tokens of a text -/

theorem Cuts.suffix {c : Char} {rest behind : List Char} {kind : TokenKind}
    (h : Cuts c rest kind behind) : behind <:+ rest := by
  cases h with
  | blank => exact List.dropWhile_suffix _
  | quoted => exact afterString_suffix _ _ _
  | opening => exact List.suffix_rfl
  | closing => exact List.suffix_rfl
  | comment _ hr =>
    exact hr ▸ ((afterComment_suffix _).trans (List.tail_suffix _)).trans (List.suffix_cons _ _)
  | signed => exact (afterNumber_suffix _).trans (List.dropWhile_suffix _)
  | number h => exact afterNumber_cons_suffix h
  | hash => exact afterName_suffix _ _
  | keyword => exact afterName_suffix _ _
  | arrow _ hr => exact hr ▸ ⟨['-', '>'], rfl⟩
  | tag _ hr => exact hr ▸ ⟨['!', '-', '-'], rfl⟩
  | word hn => exact afterName_cons_suffix hn
  | function hn _ hr => exact (List.suffix_cons _ _).trans (hr ▸ afterName_cons_suffix hn)
  | @address _ arguments hn _ hr =>
    have haddress : afterAddress .none (arguments.dropWhile isBlank) <:+ arguments :=
      ((afterAddress_suffix _ _).trans (List.tail_suffix _)).trans (List.dropWhile_suffix _)
    exact haddress.trans ((List.suffix_cons _ _).trans (hr ▸ afterName_cons_suffix hn))
  | lone => exact List.suffix_rfl

theorem tokensUpTo_of_length_le {text : List Char} {limit : Nat} (h : text.length ≤ limit) :
    tokensUpTo limit text = tokens text := by
  induction hn : text.length using Nat.strongRecOn generalizing text limit with
  | _ n ih =>
    cases text with
    | nil => cases limit <;> rfl
    | cons c rest =>
      obtain ⟨limit, rfl⟩ := Nat.exists_eq_add_of_lt h
      have hb := (cuts_afterToken c rest).suffix.length_le
      simp only [List.length_cons] at hn
      rw [tokens]
      simp only [tokensUpTo, List.length_cons]
      rw [ih _ (by omega) (by omega) rfl, ih _ (by omega) hb rfl]

theorem tokens_of_cuts {c : Char} {rest text behind : List Char} {kind : TokenKind}
    (h : Cuts c rest kind behind) (ht : text ++ behind = c :: rest) :
    tokens (c :: rest) = ⟨kind, text⟩ :: tokens behind := by
  have hb := h.suffix.length_le
  have htext : (c :: rest).take (rest.length + 1 - behind.length) = text := by
    have hl : text.length + behind.length = rest.length + 1 := by
      simpa using congrArg List.length ht
    rw [← ht, show rest.length + 1 - behind.length = text.length by omega, List.take_left]
  rw [tokens, List.length_cons]
  simp only [tokensUpTo, h.afterToken_eq, htext]
  rw [tokensUpTo_of_length_le hb]

theorem exists_cuts (c : Char) (rest : List Char) :
    ∃ kind front behind, Cuts c rest kind behind ∧ rest = front ++ behind ∧
      tokens (c :: rest) = ⟨kind, c :: front⟩ :: tokens behind := by
  have hc := cuts_afterToken c rest
  obtain ⟨front, hfront⟩ := hc.suffix
  exact ⟨_, front, _, hc, hfront.symm, tokens_of_cuts hc (by rw [List.cons_append, hfront])⟩

theorem eq_nil_of_tokens {text : List Char} (h : tokens text = []) : text = [] := by
  cases text with
  | nil => rfl
  | cons c rest =>
    obtain ⟨_, _, _, -, -, ht⟩ := exists_cuts c rest
    rw [ht] at h
    cases h

theorem tokens_eq_cons {text : List Char} {t : Token} {ts : List Token}
    (h : tokens text = t :: ts) :
    ∃ c front behind, t.text = c :: front ∧ text = c :: front ++ behind ∧
      Cuts c (front ++ behind) t.kind behind ∧ tokens behind = ts := by
  cases text with
  | nil => cases h
  | cons c rest =>
    obtain ⟨kind, front, behind, hc, rfl, ht⟩ := exists_cuts c rest
    rw [ht] at h
    obtain ⟨rfl, rfl⟩ := List.cons.inj h
    exact ⟨c, front, behind, rfl, rfl, hc, rfl⟩

/-- The text that tokens are made of. -/
def textOf (ts : List Token) : List Char := ts.flatMap Token.text

@[simp] theorem textOf_nil : textOf [] = [] := rfl

@[simp] theorem textOf_cons (t : Token) (ts : List Token) :
    textOf (t :: ts) = t.text ++ textOf ts :=
  List.flatMap_cons

@[simp] theorem textOf_append (ts us : List Token) : textOf (ts ++ us) = textOf ts ++ textOf us :=
  List.flatMap_append

theorem textOf_of_tokens {text : List Char} {ts : List Token} (h : tokens text = ts) :
    textOf ts = text := by
  induction ts generalizing text with
  | nil => rw [eq_nil_of_tokens h, textOf_nil]
  | cons t ts ih =>
    obtain ⟨c, front, behind, ht, rfl, -, hb⟩ := tokens_eq_cons h
    rw [textOf_cons, ht, ih hb]

/-- The tokens that stand last are the tokens of their own text. -/
theorem tokens_textOf_of_append {text : List Char} {us ws : List Token}
    (h : tokens text = us ++ ws) : tokens (textOf ws) = ws := by
  induction us generalizing text with
  | nil =>
    rw [List.nil_append] at h
    rw [textOf_of_tokens h, h]
  | cons u us ih =>
    obtain ⟨_, _, behind, -, -, -, hb⟩ := tokens_eq_cons h
    exact ih hb

end AtomicCss.Css
