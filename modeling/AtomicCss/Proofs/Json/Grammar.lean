import AtomicCss.Json.Reader
import Mathlib.Data.List.Forall2

/-!
# The texts that are JSON

The grammar of JSON as relations between what is written and its text, apart from the readers. A
character of a string can be written in several ways (`CharText`), blanks may stand around every part
(`Spaced`), and `ValueText` are the texts of all values, whatever they hold. An object is told by its
members (`Member`), in order and with repetitions. Numerals and strings are read as what they were
written from, in front of whatever ends them (`Numeral.read_append`, `StringText.read`).
-/

namespace AtomicCss.Json

/-- Nothing but blanks. -/
def Blanks (w : List Char) : Prop := ∀ c ∈ w, isBlank c = true

/-! ## Strings -/

/-- The letters that escape a character, with the character they stand for. -/
def letterEscapes : List (Char × Char) :=
  [('"', '"'), ('\\', '\\'), ('/', '/'), ('b', '\x08'), ('f', '\x0c'), ('n', '\n'), ('r', '\r'),
    ('t', '\t')]

/-- Four hexadecimal digits and their value. -/
def UnitText (n : Nat) (four : List Char) : Prop :=
  four.length = 4 ∧ Text.ofHexadecimal? four = some n

/-- The ways to write a character in a string: as it is, by a letter, by its code, or by a pair of
codes. -/
inductive CharText (c : Char) : List Char → Prop
  | plain (hcontrol : 32 ≤ c.toNat) (hquote : c ≠ '"') (hbackslash : c ≠ '\\') : CharText c [c]
  | letter {l : Char} (h : (l, c) ∈ letterEscapes) : CharText c ['\\', l]
  | unit {four : List Char} (h : UnitText c.toNat four) : CharText c ('\\' :: 'u' :: four)
  | pair {m n : Nat} {high low : List Char} (hm : UnitText m high) (hn : UnitText n low)
      (hleading : 0xd800 ≤ m ∧ m ≤ 0xdbff) (htrailing : 0xdc00 ≤ n ∧ n ≤ 0xdfff)
      (h : c.toNat = 0x10000 + (m - 0xd800) * 0x400 + (n - 0xdc00)) :
      CharText c ('\\' :: 'u' :: (high ++ '\\' :: 'u' :: low))

/-- Characters written one after the other. -/
inductive BodyText : List Char → List Char → Prop
  | nil : BodyText [] []
  | cons {c : Char} {cs t u : List Char} (hc : CharText c t) (hcs : BodyText cs u) :
      BodyText (c :: cs) (t ++ u)

/-- The texts of a string. -/
def StringText (s : String) (t : List Char) : Prop :=
  ∃ body, BodyText s.toList body ∧ t = '"' :: (body ++ ['"'])

/-! ## Numbers -/

/-- At least one decimal digit, and nothing else. -/
def Digits (ds : List Char) : Prop := ds ≠ [] ∧ ∀ c ∈ ds, c.isDigit = true

/-- The digits before the point: a zero stands alone. -/
def WholeText (ds : List Char) : Prop := Digits ds ∧ ∀ d more, ds ≠ '0' :: d :: more

/-- Decimals behind a point, or nothing. -/
inductive DecimalsText : Option (List Char) → List Char → Prop
  | none : DecimalsText none []
  | some {ds : List Char} (h : Digits ds) : DecimalsText (some ds) ('.' :: ds)

/-- An exponent, possibly with a sign, or nothing. -/
inductive ExponentText : Option (Bool × List Char) → List Char → Prop
  | none : ExponentText none []
  | unsigned {e : Char} {ds : List Char} (he : e = 'e' ∨ e = 'E') (h : Digits ds) :
      ExponentText (some (false, ds)) (e :: ds)
  | plus {e : Char} {ds : List Char} (he : e = 'e' ∨ e = 'E') (h : Digits ds) :
      ExponentText (some (false, ds)) (e :: '+' :: ds)
  | minus {e : Char} {ds : List Char} (he : e = 'e' ∨ e = 'E') (h : Digits ds) :
      ExponentText (some (true, ds)) (e :: '-' :: ds)

/-- The text of a numeral. -/
inductive NumberText : Numeral → List Char → Prop
  | positive {whole decimals exponent d x} (hw : WholeText whole) (hd : DecimalsText decimals d)
      (hx : ExponentText exponent x) :
      NumberText ⟨false, whole, decimals, exponent⟩ (whole ++ (d ++ x))
  | negative {whole decimals exponent d x} (hw : WholeText whole) (hd : DecimalsText decimals d)
      (hx : ExponentText exponent x) :
      NumberText ⟨true, whole, decimals, exponent⟩ ('-' :: (whole ++ (d ++ x)))

/-! ## Arrays and objects -/

/-- A text with what stands before and behind it. -/
structure Spaced where
  before : List Char
  text : List Char
  behind : List Char

namespace Spaced

def written (s : Spaced) : List Char := s.before ++ (s.text ++ s.behind)

/-- Only blanks stand around the text. -/
def Blank (s : Spaced) : Prop := Blanks s.before ∧ Blanks s.behind

end Spaced

/-- A member of an object: its name, how the name is written, and the value as a text. -/
structure Member where
  name : String
  label : Spaced
  value : Spaced

namespace Member

def written (m : Member) : List Char := m.label.written ++ ':' :: m.value.written

/-- The name is written as a string, with only blanks around it and around the value. -/
def Labelled (m : Member) : Prop := StringText m.name m.label.text ∧ m.label.Blank ∧ m.value.Blank

end Member

/-- The text of an array; `w` stands in an empty one. -/
def arrayText (w : List Char) (items : List Spaced) : List Char :=
  '[' :: (w ++ ([','].intercalate (items.map Spaced.written) ++ [']']))

/-- The text of an object; `w` stands in an empty one. -/
def objectText (w : List Char) (members : List Member) : List Char :=
  '{' :: (w ++ ([','].intercalate (members.map Member.written) ++ ['}']))

/-- The texts of values. -/
inductive ValueText : List Char → Prop
  | null : ValueText ['n', 'u', 'l', 'l']
  | true : ValueText ['t', 'r', 'u', 'e']
  | false : ValueText ['f', 'a', 'l', 's', 'e']
  | number {n : Numeral} {t : List Char} (h : NumberText n t) : ValueText t
  | string {s : String} {t : List Char} (h : StringText s t) : ValueText t
  | array {w : List Char} {items : List Spaced} (hw : Blanks w) (hitems : ∀ i ∈ items, i.Blank)
      (hvalues : ∀ i ∈ items, ValueText i.text) : ValueText (arrayText w items)
  | object {w : List Char} {members : List Member} (hw : Blanks w)
      (hmembers : ∀ m ∈ members, m.Labelled) (hvalues : ∀ m ∈ members, ValueText m.value.text) :
      ValueText (objectText w members)

/-- The texts of an array of strings. -/
def StringsText (ss : List String) (t : List Char) : Prop :=
  ∃ w items, Blanks w ∧ (∀ i ∈ items, Spaced.Blank i) ∧
    List.Forall₂ (fun s i => StringText s (Spaced.text i)) ss items ∧ t = arrayText w items

/-- The whole texts of an object with these members. -/
def ObjectText (members : List Member) (text : String) : Prop :=
  ∃ before w behind, Blanks before ∧ Blanks w ∧ Blanks behind ∧
    (∀ m ∈ members, m.Labelled ∧ ValueText m.value.text) ∧
    text.toList = before ++ (objectText w members ++ behind)

/-! ## Numerals as they are read

Each part of a numeral ends where a character stands that cannot go on with it, so the text of a
numeral is read as this numeral in front of whatever ends it (`Numeral.read_append`).
-/

theorem Digits.append_ne {ds rest more : List Char} {c : Char} (h : Digits ds)
    (hc : c.isDigit = false) : ds ++ rest ≠ c :: more := by
  obtain ⟨d, ds, rfl⟩ := List.exists_cons_of_ne_nil h.1
  intro heq
  have hd := h.2 d List.mem_cons_self
  rw [(List.cons.inj heq).1, hc] at hd
  cases hd

namespace Numeral

theorem digits_append {ds rest : List Char} (h : Digits ds)
    (hrest : ∀ c ∈ rest.head?, c.isDigit = false) : digits (ds ++ rest) = .ok (ds, rest) := by
  have htake : (ds ++ rest).takeWhile Char.isDigit = ds := by
    rw [List.takeWhile_append_of_pos h.2]
    cases rest with
    | nil => simp
    | cons c rest =>
      rw [List.takeWhile_cons_of_neg (by simp [hrest c rfl]), List.append_nil]
  have hdrop : (ds ++ rest).dropWhile Char.isDigit = rest := by
    rw [List.dropWhile_append_of_pos h.2]
    cases rest with
    | nil => rfl
    | cons c rest => rw [List.dropWhile_cons_of_neg (by simp [hrest c rfl])]
  unfold digits
  rw [htake, hdrop]
  cases ds with
  | nil => exact absurd rfl h.1
  | cons d ds => rfl

theorem wholeDigits_append {ds rest : List Char} (h : WholeText ds)
    (hrest : ∀ c ∈ rest.head?, c.isDigit = false) : wholeDigits (ds ++ rest) = .ok (ds, rest) := by
  unfold wholeDigits
  rw [digits_append h.1 hrest]
  split
  · next d more _ heq =>
    injection heq with heq
    injection heq with heq
    exact absurd heq (h.2 d more)
  · rfl

/-- What goes on neither with digits nor with the other parts of a numeral. -/
def Ends (rest : List Char) : Prop :=
  ∀ c ∈ rest.head?, c.isDigit = false ∧ c ≠ '.' ∧ c ≠ 'e' ∧ c ≠ 'E'

theorem exponentPart_append {x : Option (Bool × List Char)} {t rest : List Char}
    (h : ExponentText x t) (hrest : Ends rest) :
    exponentPart (t ++ rest) = .ok (x, rest) ∧
      ∀ c ∈ (t ++ rest).head?, c.isDigit = false ∧ c ≠ '.' := by
  have hdigit : ∀ c ∈ rest.head?, c.isDigit = false := fun c hc => (hrest c hc).1
  have hletter : ∀ {e : Char}, e = 'e' ∨ e = 'E' → ∀ more : List Char,
      ∀ c ∈ (e :: more).head?, c.isDigit = false ∧ c ≠ '.' := by
    intro e he more c hc
    rw [List.head?_cons, Option.mem_some_iff] at hc
    rcases he with rfl | rfl <;> exact hc ▸ by decide
  cases h with
  | none =>
    refine ⟨?_, fun c hc => ⟨hdigit c hc, (hrest c hc).2.1⟩⟩
    cases rest with
    | nil => rfl
    | cons c rest =>
      have hc := hrest c rfl
      unfold exponentPart
      exact if_neg (not_or.2 hc.2.2)
  | @unsigned e ds he h =>
    refine ⟨?_, hletter he _⟩
    have hdigits := digits_append h hdigit
    obtain ⟨d, ds, rfl⟩ := List.exists_cons_of_ne_nil h.1
    rw [List.cons_append, exponentPart, if_pos he, hdigits]
    · rfl
    · exact fun more => h.append_ne rfl
    · exact fun more => h.append_ne rfl
  | @plus e ds he h =>
    refine ⟨?_, hletter he _⟩
    show exponentPart (e :: '+' :: (ds ++ rest)) = _
    rw [exponentPart, if_pos he]
    simp only [digits_append h hdigit]
    rfl
  | @minus e ds he h =>
    refine ⟨?_, hletter he _⟩
    show exponentPart (e :: '-' :: (ds ++ rest)) = _
    rw [exponentPart, if_pos he]
    simp only [digits_append h hdigit]
    rfl

theorem decimalPart_append {x : Option (List Char)} {t rest : List Char} (h : DecimalsText x t)
    (hrest : ∀ c ∈ rest.head?, c.isDigit = false ∧ c ≠ '.') :
    decimalPart (t ++ rest) = .ok (x, rest) ∧ ∀ c ∈ (t ++ rest).head?, c.isDigit = false := by
  have hdigit : ∀ c ∈ rest.head?, c.isDigit = false := fun c hc => (hrest c hc).1
  cases h with
  | none =>
    refine ⟨?_, hdigit⟩
    rw [List.nil_append, decimalPart]
    rintro more rfl
    exact (hrest '.' rfl).2 rfl
  | @some ds h =>
    refine ⟨?_, fun c hc => ?_⟩
    · rw [List.cons_append, decimalPart, digits_append h hdigit]
      rfl
    · rw [List.cons_append, List.head?_cons, Option.mem_some_iff] at hc
      exact hc ▸ rfl

theorem read_append {n : Numeral} {t rest : List Char} (h : NumberText n t) (hrest : Ends rest) :
    read (t ++ rest) = .ok (n, rest) := by
  have hparts : ∀ {whole decimals exponent d x}, WholeText whole → DecimalsText decimals d →
      ExponentText exponent x →
      wholeDigits (whole ++ (d ++ (x ++ rest))) = .ok (whole, d ++ (x ++ rest)) ∧
        decimalPart (d ++ (x ++ rest)) = .ok (decimals, x ++ rest) ∧
        exponentPart (x ++ rest) = .ok (exponent, rest) := by
    intro whole decimals exponent d x hw hd hx
    obtain ⟨hexponent, hhead⟩ := exponentPart_append hx hrest
    obtain ⟨hdecimals, hhead⟩ := decimalPart_append hd hhead
    exact ⟨wholeDigits_append hw hhead, hdecimals, hexponent⟩
  cases h with
  | @positive whole decimals exponent d x hw hd hx =>
    obtain ⟨hwhole, hdecimals, hexponent⟩ := hparts hw hd hx
    rw [List.append_assoc, List.append_assoc, read]
    · simp only [hwhole, hdecimals, hexponent, bind, Except.bind]
      rfl
    · exact fun more => hw.1.append_ne rfl
  | @negative whole decimals exponent d x hw hd hx =>
    obtain ⟨hwhole, hdecimals, hexponent⟩ := hparts hw hd hx
    rw [List.cons_append, List.append_assoc, List.append_assoc]
    simp only [read, hwhole, hdecimals, hexponent, bind, Except.bind]
    rfl

end Numeral

theorem NumberText.head {n : Numeral} {t : List Char} (h : NumberText n t) :
    ∃ c more, t = c :: more ∧ (c = '-' ∨ c.isDigit = true) := by
  cases h with
  | @positive whole decimals exponent d x hw =>
    obtain ⟨c, more, rfl⟩ := List.exists_cons_of_ne_nil hw.1.1
    exact ⟨c, more ++ (d ++ x), rfl, .inr (hw.1.2 c List.mem_cons_self)⟩
  | negative => exact ⟨'-', _, rfl, .inl rfl⟩

/-! ## Strings as they are read

Whatever way the characters of a string are written in, the reader gives them back
(`CharText.read`, `StringText.read`), and skipping the string ends at the same place
(`StringText.skip`).
-/

/-! ### Escapes -/

section escaped

variable {escape : List Char → Except Failure Escaped}

theorem stringBody_drop (e rest : List Char) :
    stringBody escape e.length (e ++ rest) = stringBody escape 0 rest := by
  induction e with
  | nil => rfl
  | cons c e ih =>
    rw [List.length_cons, List.cons_append, stringBody]
    exact ih

theorem stringBody_escaped {e rest : List Char} {d : Char}
    (h : escape (e ++ rest) = .ok ⟨d, e.length⟩) :
    stringBody escape 0 ('\\' :: (e ++ rest)) =
      (stringBody escape 0 rest).map fun r => (d :: r.1, r.2) := by
  rw [stringBody, if_neg (by decide), if_pos rfl, h]
  show (stringBody escape e.length (e ++ rest)).map _ = _
  rw [stringBody_drop]

theorem stringBody_plain {c : Char} (hquote : c ≠ '"') (hbackslash : c ≠ '\\')
    (hcontrol : 32 ≤ c.toNat) (rest : List Char) :
    stringBody escape 0 (c :: rest) =
      (stringBody escape 0 rest).map fun r => (c :: r.1, r.2) := by
  rw [stringBody, if_neg hquote, if_neg hbackslash, if_neg (Nat.not_lt.2 hcontrol)]

end escaped

theorem letterEscape?_of_mem {l c : Char} (h : (l, c) ∈ letterEscapes) :
    letterEscape? l = some c ∧ l ≠ 'u' := by
  simp only [letterEscapes, List.mem_cons, Prod.mk.injEq, List.not_mem_nil, or_false] at h
  rcases h with ⟨rfl, rfl⟩ | ⟨rfl, rfl⟩ | ⟨rfl, rfl⟩ | ⟨rfl, rfl⟩ | ⟨rfl, rfl⟩ | ⟨rfl, rfl⟩ |
    ⟨rfl, rfl⟩ | ⟨rfl, rfl⟩
  all_goals exact ⟨rfl, by decide⟩

theorem escapeWith_letter {l c : Char} (h : (l, c) ∈ letterEscapes)
    (unicode : List Char → Except Failure Escaped) (rest : List Char) :
    escapeWith unicode (l :: rest) = .ok ⟨c, 1⟩ := by
  obtain ⟨hletter, hu⟩ := letterEscape?_of_mem h
  rw [escapeWith, if_neg hu, hletter]

/-! ### Codes -/

theorem utf8Size_of_hexDigit? {c : Char} {v : Nat} (h : Text.hexDigit? c = some v) :
    c.utf8Size = 1 := by
  have hle : c.val.toNat ≤ 102 := by
    simp only [Text.hexDigit?, Char.isDigit, ge_iff_le, Bool.and_eq_true, decide_eq_true_eq,
      Char.le_def, UInt32.le_iff_toNat_le] at h
    split at h
    · next hd => exact Nat.le_trans hd.2 (by decide)
    · split at h
      · next hd => exact hd.2
      · split at h
        · next hd => exact Nat.le_trans hd.2 (by decide)
        · cases h
  rw [Char.utf8Size_eq_one_iff, UInt32.le_iff_toNat_le]
  exact Nat.le_trans hle (by decide)

theorem UnitText.digits {n : Nat} {four : List Char} (h : UnitText n four) :
    ∃ a b c d, four = [a, b, c, d] ∧ ∀ x ∈ four, x.utf8Size = 1 := by
  obtain ⟨hlength, hvalue⟩ := h
  match four, hlength with
  | [a, b, c, d], _ =>
    refine ⟨a, b, c, d, rfl, ?_⟩
    simp only [Text.ofHexadecimal?, List.foldl_cons, List.foldl_nil, Option.bind_eq_some_iff,
      Option.map_eq_some_iff, Option.some.injEq] at hvalue
    obtain ⟨_, ⟨_, ⟨_, ⟨_, -, va, ha, -⟩, vb, hb, -⟩, vc, hc, -⟩, vd, hd, -⟩ := hvalue
    simp only [List.mem_cons, List.not_mem_nil, or_false, forall_eq_or_imp, forall_eq]
    exact ⟨utf8Size_of_hexDigit? ha, utf8Size_of_hexDigit? hb, utf8Size_of_hexDigit? hc,
      utf8Size_of_hexDigit? hd⟩

theorem UnitText.codeUnit {n : Nat} {four : List Char} (h : UnitText n four) (rest : List Char) :
    codeUnit (four ++ rest) = .ok n := by
  have htake : (four ++ rest).take 4 = four := by rw [← h.1, List.take_left]
  have hsize : (String.ofList four).utf8ByteSize = 4 := by
    obtain ⟨a, b, c, d, rfl, hone⟩ := h.digits
    simp only [List.mem_cons, List.not_mem_nil, or_false, forall_eq_or_imp, forall_eq] at hone
    simp [String.ofList_cons, hone]
  simp [Json.codeUnit, htake, hsize, h.2]

/-- The code of a character is none of a pair. -/
theorem not_isLeading_toNat (c : Char) :
    isLeading c.toNat = false ∧ isTrailing c.toNat = false := by
  have hvalid : c.toNat < 0xd800 ∨ 0xdfff < c.toNat ∧ c.toNat < 0x110000 := c.valid
  simp only [isLeading, isTrailing, decide_eq_false_iff_not]
  omega

theorem unitEscape_unit {c : Char} {four : List Char} (h : UnitText c.toNat four)
    (rest : List Char) : unitEscape (four ++ rest) = .ok ⟨c, 5⟩ := by
  obtain ⟨hleading, htrailing⟩ := not_isLeading_toNat c
  rw [unitEscape, h.codeUnit]
  simp only [bind, Except.bind, htrailing, hleading, Bool.false_eq_true, if_false,
    Char.ofNat_toNat]
  rfl

theorem unitEscape_pair {m n : Nat} {high low : List Char} (hm : UnitText m high)
    (hn : UnitText n low) (hleading : 0xd800 ≤ m ∧ m ≤ 0xdbff)
    (htrailing : 0xdc00 ≤ n ∧ n ≤ 0xdfff) (rest : List Char) :
    unitEscape (high ++ '\\' :: 'u' :: (low ++ rest)) =
      .ok ⟨Char.ofNat (0x10000 + (m - 0xd800) * 0x400 + (n - 0xdc00)), 11⟩ := by
  have hfirst : isTrailing m = false ∧ isLeading m = true := by
    simp only [isLeading, isTrailing, decide_eq_false_iff_not, decide_eq_true_eq]
    omega
  have hsecond : isTrailing n = true := by
    simp only [isTrailing, decide_eq_true_eq]
    exact htrailing
  have hdrop : (high ++ '\\' :: 'u' :: (low ++ rest)).drop 4 = '\\' :: 'u' :: (low ++ rest) := by
    rw [← hm.1, List.drop_left]
  rw [unitEscape, hm.codeUnit, hdrop]
  simp only [bind, Except.bind, hfirst, hn.codeUnit, hsecond, Bool.false_eq_true, if_false, if_true]
  rfl

/-! ### Characters -/

/-- A character is read from each of its texts. -/
theorem CharText.read {c : Char} {t : List Char} (h : CharText c t) (rest : List Char) :
    stringBody escapeStrict 0 (t ++ rest) =
      (stringBody escapeStrict 0 rest).map fun r => (c :: r.1, r.2) := by
  cases h with
  | plain hcontrol hquote hbackslash => exact stringBody_plain hquote hbackslash hcontrol rest
  | @letter l h => exact stringBody_escaped (e := [l]) (escapeWith_letter h _ rest)
  | @unit four h =>
    have hlength : ('u' :: four).length = 5 := congrArg Nat.succ h.1
    refine stringBody_escaped (e := 'u' :: four) ?_
    rw [hlength]
    exact unitEscape_unit h rest
  | @pair m n high low hm hn hleading htrailing h =>
    have hlength : ('u' :: (high ++ '\\' :: 'u' :: low)).length = 11 := by
      simp only [List.length_cons, List.length_append, hm.1, hn.1]
    refine stringBody_escaped (e := 'u' :: (high ++ '\\' :: 'u' :: low)) ?_
    rw [hlength, ← Char.ofNat_toNat c, h, List.cons_append, List.append_assoc]
    exact unitEscape_pair hm hn hleading htrailing rest

theorem CharText.skip {c : Char} {t : List Char} (h : CharText c t) :
    ∃ cs, ∀ rest, stringBody escapeLax 0 (t ++ rest) =
      (stringBody escapeLax 0 rest).map fun r => (cs ++ r.1, r.2) := by
  have hcode : ∀ n four rest, UnitText n four →
      stringBody escapeLax 0 ('\\' :: 'u' :: (four ++ rest)) =
        (stringBody escapeLax 0 rest).map fun r => ('\x00' :: r.1, r.2) := by
    intro n four rest h
    refine stringBody_escaped (e := 'u' :: four) ?_
    rw [List.length_cons, h.1, List.cons_append, escapeLax, escapeWith, if_pos rfl, h.codeUnit]
    rfl
  cases h with
  | plain hcontrol hquote hbackslash =>
    exact ⟨[c], stringBody_plain hquote hbackslash hcontrol⟩
  | @letter l h =>
    exact ⟨[c], fun rest => stringBody_escaped (e := [l]) (escapeWith_letter h _ rest)⟩
  | unit h => exact ⟨['\x00'], fun rest => hcode _ _ rest h⟩
  | pair hm hn =>
    refine ⟨['\x00', '\x00'], fun rest => ?_⟩
    rw [List.cons_append, List.cons_append, List.append_assoc, hcode _ _ _ hm, List.cons_append,
      List.cons_append, hcode _ _ _ hn]
    cases stringBody escapeLax 0 rest <;> rfl

/-! ### Strings -/

theorem BodyText.read {cs t : List Char} (h : BodyText cs t) (rest : List Char) :
    stringBody escapeStrict 0 (t ++ '"' :: rest) = .ok (cs, rest) := by
  induction h with
  | nil => rw [List.nil_append, stringBody, if_pos rfl]
  | cons hc _ ih =>
    rw [List.append_assoc, hc.read, ih]
    rfl

theorem BodyText.skip {cs t : List Char} (h : BodyText cs t) :
    ∃ ds, ∀ rest, stringBody escapeLax 0 (t ++ '"' :: rest) = .ok (ds, rest) := by
  induction h with
  | nil => exact ⟨[], fun rest => by rw [List.nil_append, stringBody, if_pos rfl]⟩
  | cons hc _ ih =>
    obtain ⟨ds, hds⟩ := hc.skip
    obtain ⟨es, hes⟩ := ih
    refine ⟨ds ++ es, fun rest => ?_⟩
    rw [List.append_assoc, hds, hes]
    rfl

/-- A string is read from each of its texts, whatever stands behind. -/
theorem StringText.read {s : String} {t : List Char} (h : StringText s t) :
    ∃ more, t = '"' :: more ∧ ∀ rest, readString (more ++ rest) = .ok (s, rest) := by
  obtain ⟨body, hbody, rfl⟩ := h
  refine ⟨body ++ ['"'], rfl, fun rest => ?_⟩
  rw [List.append_assoc, List.singleton_append, readString, hbody.read]
  show Except.ok (String.ofList s.toList, rest) = _
  rw [String.ofList_toList]

theorem StringText.skip {s : String} {t : List Char} (h : StringText s t) :
    ∃ more, t = '"' :: more ∧ ∀ rest, skipString (more ++ rest) = .ok ((), rest) := by
  obtain ⟨body, hbody, rfl⟩ := h
  obtain ⟨ds, hds⟩ := hbody.skip
  refine ⟨body ++ ['"'], rfl, fun rest => ?_⟩
  rw [List.append_assoc, List.singleton_append, skipString, hds]
  rfl

end AtomicCss.Json
