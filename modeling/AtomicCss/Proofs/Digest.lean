import Mathlib
import AtomicCss.Digest
import AtomicCss.Text

/-!
# Numerals in base 36

The numeral of a word is its canonical list of digits (`canonical_digits`), and a canonical list of
digits is the numeral of its value (`digits_value`). Numerals have no fixed length, so two of them
put together can be read in more than one way: `render_append_render_eq_iff` tells exactly when. Read
back from its characters alone, a rendered word is the one numeral of that word (`render_eq_iff`), so
a digest loses nothing of the hash (`rendering_exact`).
-/

namespace AtomicCss.Digest.Base36

/-- The digits of a numeral: below 36, at least one, and no leading zero in front of others. -/
structure Canonical (ds : List Nat) : Prop where
  lt : ∀ d ∈ ds, d < 36
  ne_nil : ds ≠ []
  head : ds.head? = some 0 → ds = [0]

/-! ## Values -/

theorem value_eq_ofDigits (ds : List Nat) : value ds = Nat.ofDigits 36 ds.reverse := by
  induction ds using List.reverseRecOn with
  | nil => rfl
  | append_singleton ds d ih =>
    rw [value_append_singleton, ih, List.reverse_concat, Nat.ofDigits_cons]
    ring

theorem value_append (ds es : List Nat) :
    value (ds ++ es) = value ds * 36 ^ es.length + value es := by
  rw [value_eq_ofDigits, value_eq_ofDigits, value_eq_ofDigits, List.reverse_append,
    Nat.ofDigits_append, List.length_reverse]
  ring

theorem value_lt {ds : List Nat} (h : ∀ d ∈ ds, d < 36) : value ds < 36 ^ ds.length := by
  rw [value_eq_ofDigits, ← List.length_reverse]
  exact Nat.ofDigits_lt_base_pow_length (by norm_num) fun d hd => h d (List.mem_reverse.1 hd)

theorem pow_le_value {d : Nat} (hd : 0 < d) (ds : List Nat) : 36 ^ ds.length ≤ value (d :: ds) := by
  have hv := value_append [d] ds
  have h1 : value [d] = d := by simp [value]
  rw [List.singleton_append, h1] at hv
  rw [hv]
  exact le_add_right (Nat.le_mul_of_pos_left _ hd)

/-! ## Canonical lists -/

theorem digits_eq_reverse {places n : Nat} (hn : 0 < n) (h : n < 36 ^ places) :
    digits places n = (Nat.digits 36 n).reverse := by
  induction places generalizing n with
  | zero =>
    rw [pow_zero] at h
    omega
  | succ p ih =>
    rw [digits]
    split
    · next hlt => rw [Nat.digits_of_lt 36 n (by omega) hlt, List.reverse_singleton]
    · next hge =>
      have hq : n / 36 < 36 ^ p := Nat.div_lt_of_lt_mul (by rwa [pow_succ, mul_comm] at h)
      rw [ih (by omega) hq, Nat.digits_def' (by norm_num) hn, List.reverse_cons]

theorem canonical_digits {n : Nat} (h : n < 36 ^ 7) : Canonical (digits 7 n) := by
  rcases Nat.eq_zero_or_pos n with rfl | hn
  · exact ⟨by simp [digits], by simp [digits], fun _ => by simp [digits]⟩
  · rw [digits_eq_reverse hn h]
    have hne : Nat.digits 36 n ≠ [] := Nat.digits_ne_nil_iff_ne_zero.2 hn.ne'
    refine ⟨fun d hd => Nat.digits_lt_base (by norm_num) (List.mem_reverse.1 hd), by simpa, ?_⟩
    intro h0
    rw [List.head?_reverse, List.getLast?_eq_getLast_of_ne_nil hne, Option.some.injEq] at h0
    exact absurd h0 (Nat.getLast_digit_ne_zero 36 hn.ne')

theorem Canonical.head_pos {d : Nat} {ds : List Nat} (h : Canonical (d :: ds)) (hds : ds ≠ []) :
    0 < d := by
  rcases Nat.eq_zero_or_pos d with rfl | hd
  · have := h.head rfl
    simp_all
  · exact hd

theorem digits_value {ds : List Nat} (hc : Canonical ds) (h : value ds < 36 ^ 7) :
    digits 7 (value ds) = ds := by
  obtain ⟨hlt, hne, hhead⟩ := hc
  obtain ⟨d, rest, rfl⟩ := List.exists_cons_of_ne_nil hne
  rcases Nat.eq_zero_or_pos d with rfl | hd
  · rw [hhead rfl]
    rfl
  · have hpos : 0 < value (d :: rest) :=
      lt_of_lt_of_le (Nat.pow_pos (by norm_num)) (pow_le_value hd rest)
    rw [digits_eq_reverse hpos h, value_eq_ofDigits, Nat.digits_ofDigits 36 (by norm_num),
      List.reverse_reverse]
    · exact fun l hl => hlt l (List.mem_reverse.1 hl)
    · intro _
      rw [List.getLast_reverse]
      exact hd.ne'

theorem exists_head_pos {n : Nat} (hn : 0 < n) (h : n < 36 ^ 7) :
    ∃ d rest, digits 7 n = d :: rest ∧ 0 < d := by
  have hc := canonical_digits h
  have hv : value (digits 7 n) = n := value_digits h
  obtain ⟨d, rest, hds⟩ := List.exists_cons_of_ne_nil hc.ne_nil
  refine ⟨d, rest, hds, ?_⟩
  rcases Nat.eq_zero_or_pos d with rfl | hd
  · rw [hc.head (by rw [hds]; rfl)] at hv
    have h0 : value [0] = 0 := rfl
    omega
  · exact hd

theorem canonical_append {n : Nat} (hn : 0 < n) (h : n < 36 ^ 7) {es : List Nat}
    (hes : ∀ d ∈ es, d < 36) : Canonical (digits 7 n ++ es) := by
  obtain ⟨d, rest, hds, hd⟩ := exists_head_pos hn h
  refine ⟨fun x hx => ?_, by simp [hds], fun h0 => ?_⟩
  · exact (List.mem_append.1 hx).elim ((canonical_digits h).lt x) (hes x)
  · rw [hds] at h0
    exact absurd (Option.some.inj h0) hd.ne'

theorem length_digits {m k : Nat} (hm : m < 36 ^ 7) (hlow : 36 ^ k ≤ m) (hhigh : m < 36 ^ (k + 1)) :
    (digits 7 m).length = k + 1 := by
  have hpos : 0 < m := lt_of_lt_of_le (Nat.pow_pos (by norm_num)) hlow
  obtain ⟨d, rest, hds, hd⟩ := exists_head_pos hpos hm
  have hv : value (digits 7 m) = m := value_digits hm
  have hlt := value_lt (canonical_digits hm).lt
  have hge := pow_le_value hd rest
  rw [← hds] at hge
  rw [hv] at hlt hge
  have h1 := (Nat.pow_lt_pow_iff_right (by norm_num : 1 < 36)).1 (lt_of_le_of_lt hlow hlt)
  have h2 := (Nat.pow_lt_pow_iff_right (by norm_num : 1 < 36)).1 (lt_of_le_of_lt hge hhigh)
  rw [hds, List.length_cons] at h1 ⊢
  omega

theorem length_digits_le (places n : Nat) : (digits places n).length ≤ places := by
  induction places generalizing n with
  | zero => exact Nat.le_refl 0
  | succ p ih =>
    rw [digits]
    split
    · exact Nat.succ_le_succ (Nat.zero_le p)
    · rw [List.length_append, List.length_singleton]
      exact Nat.succ_le_succ (ih (n / 36))

/-! ## Characters -/

theorem digitChar_inj : ∀ a < 36, ∀ b < 36, digitChar a = digitChar b → a = b := by decide

theorem isAlphanum_digitChar : ∀ d < 36, (digitChar d).isAlphanum = true := by decide

theorem digitChar_cases : ∀ d < 36, (digitChar d).isDigit = true ∨ (digitChar d).isLower = true := by
  decide

theorem map_digitChar_inj {ds es : List Nat} (hds : ∀ d ∈ ds, d < 36) (hes : ∀ d ∈ es, d < 36)
    (h : ds.map digitChar = es.map digitChar) : ds = es := by
  induction ds generalizing es with
  | nil => simpa using h.symm
  | cons d ds ih =>
    cases es with
    | nil => simp at h
    | cons e es =>
      rw [List.map_cons, List.map_cons, List.cons.injEq] at h
      have hd := digitChar_inj d (hds d List.mem_cons_self) e (hes e List.mem_cons_self) h.1
      have ht := ih (fun x hx => hds x (List.mem_cons_of_mem _ hx))
        (fun x hx => hes x (List.mem_cons_of_mem _ hx)) h.2
      rw [hd, ht]

theorem toNat_lt (w : UInt32) : w.toNat < 36 ^ 7 := lt_trans w.toNat_lt (by norm_num)

theorem canonical_word (w : UInt32) : Canonical (digits 7 w.toNat) := canonical_digits (toNat_lt w)

theorem toList_render (w : UInt32) : (render w).toList = (digits 7 w.toNat).map digitChar := by
  rw [render, String.toList_ofList]

theorem isAlphanum_of_mem_render {w : UInt32} {c : Char} (h : c ∈ (render w).toList) :
    c.isAlphanum = true := by
  rw [toList_render, List.mem_map] at h
  obtain ⟨d, hd, rfl⟩ := h
  exact isAlphanum_digitChar d ((canonical_word w).lt d hd)

theorem render_chars (w : UInt32) :
    1 ≤ (render w).toList.length ∧ (render w).toList.length ≤ 7 ∧
      ∀ c ∈ (render w).toList, c.isDigit = true ∨ c.isLower = true := by
  have hc := canonical_word w
  rw [toList_render, List.length_map]
  refine ⟨List.length_pos_iff.2 hc.ne_nil, length_digits_le 7 w.toNat, fun c hmem => ?_⟩
  obtain ⟨d, hd, rfl⟩ := List.mem_map.1 hmem
  exact digitChar_cases d (hc.lt d hd)

theorem eq_of_digits_eq {v w : UInt32} (h : digits 7 v.toNat = digits 7 w.toNat) : v = w := by
  apply UInt32.toNat_inj.1
  rw [← value_digits (toNat_lt v), h, value_digits (toNat_lt w)]

theorem render_injective {v w : UInt32} (h : render v = render w) : v = w := by
  have hl := congrArg String.toList h
  rw [toList_render, toList_render] at hl
  exact eq_of_digits_eq (map_digitChar_inj (canonical_word v).lt (canonical_word w).lt hl)

/-! ## Two numerals side by side -/

/-- The number of digits of a word's numeral. -/
def places (w : UInt32) : Nat := (digits 7 w.toNat).length

/-- The numerals of `a` and `b`, put together, are also those of `c` and `d`, cut earlier: the last
digits of `a`, which make the number `m`, are the first digits of `d`. -/
def Overlap (a b c d : UInt32) : Prop :=
  ∃ k m, 36 ^ k ≤ m ∧ m < 36 ^ (k + 1) ∧ 0 < c.toNat ∧
    a.toNat = c.toNat * 36 ^ (k + 1) + m ∧ d.toNat = m * 36 ^ places b + b.toNat

theorem overlap_of_digits {a b c d : UInt32} {s : List Nat} (hs : s ≠ [])
    (ha : digits 7 a.toNat = digits 7 c.toNat ++ s) (hd : digits 7 d.toNat = s ++ digits 7 b.toNat) :
    Overlap a b c d := by
  obtain ⟨x, rest, rfl⟩ := List.exists_cons_of_ne_nil hs
  have hlt : ∀ y ∈ x :: rest, y < 36 := fun y hy =>
    (canonical_word a).lt y (ha ▸ List.mem_append_right _ hy)
  have hx : 0 < x := by
    have hc := canonical_word d
    rw [hd] at hc
    exact hc.head_pos fun h => (canonical_word b).ne_nil (List.append_eq_nil_iff.1 h).2
  have hc0 : 0 < c.toNat := by
    obtain ⟨y, ys, hy⟩ := List.exists_cons_of_ne_nil (canonical_word c).ne_nil
    have hc := canonical_word a
    rw [ha, hy] at hc
    have hy0 : 0 < y := hc.head_pos (by simp)
    rw [← value_digits (toNat_lt c), hy]
    exact lt_of_lt_of_le (Nat.pow_pos (by norm_num)) (pow_le_value hy0 ys)
  refine ⟨rest.length, value (x :: rest), pow_le_value hx rest, value_lt hlt, hc0, ?_, ?_⟩
  · rw [← value_digits (toNat_lt a), ha, value_append, value_digits (toNat_lt c), List.length_cons]
  · rw [← value_digits (toNat_lt d), hd, value_append, value_digits (toNat_lt b), places]

theorem digits_of_sum {a c : UInt32} {k m : Nat} (hc : 0 < c.toNat) (hm : m < 36 ^ 7)
    (hlow : 36 ^ k ≤ m) (hhigh : m < 36 ^ (k + 1)) (ha : a.toNat = c.toNat * 36 ^ (k + 1) + m) :
    digits 7 a.toNat = digits 7 c.toNat ++ digits 7 m := by
  have hcan := canonical_append hc (toNat_lt c) (canonical_digits hm).lt
  have hv : value (digits 7 c.toNat ++ digits 7 m) = a.toNat := by
    rw [value_append, value_digits (toNat_lt c), value_digits hm, length_digits hm hlow hhigh, ha]
  rw [← digits_value hcan (hv ▸ toNat_lt a), hv]

theorem digits_of_overlap {a b c d : UInt32} (h : Overlap a b c d) :
    digits 7 a.toNat ++ digits 7 b.toNat = digits 7 c.toNat ++ digits 7 d.toNat := by
  obtain ⟨k, m, hlow, hhigh, hc0, ha, hd⟩ := h
  have hm : m < 36 ^ 7 := lt_of_le_of_lt (ha ▸ Nat.le_add_left _ _) (toNat_lt a)
  have hm0 : 0 < m := lt_of_lt_of_le (Nat.pow_pos (by norm_num)) hlow
  have hD : digits 7 d.toNat = digits 7 m ++ digits 7 b.toNat := by
    have hcan := canonical_append hm0 hm (canonical_word b).lt
    have hv : value (digits 7 m ++ digits 7 b.toNat) = d.toNat := by
      rw [value_append, value_digits (toNat_lt b), value_digits hm, hd, places]
    rw [← digits_value hcan (hv ▸ toNat_lt d), hv]
  rw [digits_of_sum hc0 hm hlow hhigh ha, hD, List.append_assoc]

/-- Two pairs of numerals read the same, put together, exactly if they are the same pairs or one pair
is cut earlier than the other. -/
theorem render_append_render_eq_iff {a b c d : UInt32} :
    render a ++ render b = render c ++ render d ↔
      (a = c ∧ b = d) ∨ Overlap a b c d ∨ Overlap c d a b := by
  constructor
  · intro h
    have hl := congrArg String.toList h
    simp only [String.toList_append, toList_render, ← List.map_append] at hl
    have hlt : ∀ v w : UInt32, ∀ x ∈ digits 7 v.toNat ++ digits 7 w.toNat, x < 36 :=
      fun v w x hx =>
        (List.mem_append.1 hx).elim ((canonical_word v).lt x) ((canonical_word w).lt x)
    have hds := map_digitChar_inj (hlt a b) (hlt c d) hl
    rcases List.append_eq_append_iff.1 hds with ⟨s, hc, hb⟩ | ⟨s, ha, hd⟩
    · rcases eq_or_ne s [] with rfl | hs
      · left
        rw [List.append_nil] at hc
        rw [List.nil_append] at hb
        exact ⟨(eq_of_digits_eq hc).symm, eq_of_digits_eq hb⟩
      · exact .inr (.inr (overlap_of_digits hs hc hb))
    · rcases eq_or_ne s [] with rfl | hs
      · left
        rw [List.append_nil] at ha
        rw [List.nil_append] at hd
        exact ⟨eq_of_digits_eq ha, (eq_of_digits_eq hd).symm⟩
      · exact .inr (.inl (overlap_of_digits hs ha hd))
  · have hjoin : ∀ v w x y : UInt32,
        digits 7 v.toNat ++ digits 7 w.toNat = digits 7 x.toNat ++ digits 7 y.toNat →
        render v ++ render w = render x ++ render y := by
      intro v w x y h
      rw [← String.toList_inj, String.toList_append, String.toList_append, toList_render,
        toList_render, toList_render, toList_render, ← List.map_append, ← List.map_append, h]
    rintro (⟨rfl, rfl⟩ | h | h)
    · rfl
    · exact hjoin _ _ _ _ (digits_of_overlap h)
    · exact (hjoin _ _ _ _ (digits_of_overlap h)).symm

/-! ## Numerals read back -/

/-- A numeral has a digit, nothing but digits, and no zero in front of other digits. -/
structure Numeral (text : String) : Prop where
  ne_empty : text ≠ ""
  chars : ∀ c ∈ text.toList, c.isDigit = true ∨ c.isLower = true
  unpadded : text.toList.head? = some '0' → text = "0"

/-- The number of a digit: the letters go on behind the nine. -/
def digitValue (c : Char) : Nat := if c.isDigit then c.toNat - 48 else c.toNat - 87

/-- The number that a text stands for, read digit by digit. -/
def number (text : String) : Nat := text.toList.foldl (fun n c => n * 36 + digitValue c) 0

theorem digitValue_digitChar : ∀ d < 36, digitValue (digitChar d) = d := by decide

theorem digitChar_digitValue {c : Char} (h : c.isDigit = true ∨ c.isLower = true) :
    digitValue c < 36 ∧ digitChar (digitValue c) = c := by
  have hdecimal : ∀ n < 58, 48 ≤ n → digitValue (Char.ofNat n) < 36 ∧
      digitChar (digitValue (Char.ofNat n)) = Char.ofNat n := by decide
  have hletter : ∀ n < 123, 97 ≤ n → digitValue (Char.ofNat n) < 36 ∧
      digitChar (digitValue (Char.ofNat n)) = Char.ofNat n := by decide
  rw [← Char.ofNat_toNat c]
  rcases h with h | h
  · obtain ⟨hlow, hhigh⟩ := Char.isDigit_iff_toNat.1 h
    exact hdecimal c.toNat (Nat.lt_succ_of_le hhigh) hlow
  · obtain ⟨hlow, hhigh⟩ := Text.isLower_iff.1 h
    exact hletter c.toNat (Nat.lt_succ_of_le hhigh) hlow

theorem number_eq_value (text : String) : number text = value (text.toList.map digitValue) := by
  rw [number, value, List.foldl_map]

theorem map_digitValue_render (w : UInt32) :
    (render w).toList.map digitValue = digits 7 w.toNat := by
  rw [toList_render, List.map_map]
  calc (digits 7 w.toNat).map (digitValue ∘ digitChar)
      = (digits 7 w.toNat).map id :=
        List.map_congr_left fun d hd => digitValue_digitChar d ((canonical_word w).lt d hd)
    _ = digits 7 w.toNat := List.map_id _

theorem number_render (w : UInt32) : number (render w) = w.toNat := by
  rw [number_eq_value, map_digitValue_render, value_digits (toNat_lt w)]

theorem numeral_render (w : UInt32) : Numeral (render w) := by
  obtain ⟨hlength, -, hchars⟩ := render_chars w
  refine ⟨fun h => ?_, hchars, fun h => ?_⟩
  · rw [h] at hlength
    exact absurd hlength (by decide)
  · -- A leading zero is a leading zero of the digits, and then there is no other digit.
    have hhead : (digits 7 w.toNat).head? = some 0 := by
      rw [← map_digitValue_render, List.head?_map, h]
      rfl
    rw [← String.toList_inj, toList_render, (canonical_word w).head hhead]
    rfl

theorem Numeral.canonical {text : String} (h : Numeral text) :
    Canonical (text.toList.map digitValue) := by
  refine ⟨fun d hd => ?_, fun hnil => ?_, fun hhead => ?_⟩
  · obtain ⟨c, hc, rfl⟩ := List.mem_map.1 hd
    exact (digitChar_digitValue (h.chars c hc)).1
  · exact h.ne_empty (String.toList_eq_nil_iff.1 (List.map_eq_nil_iff.1 hnil))
  · rw [List.head?_map, Option.map_eq_some_iff] at hhead
    obtain ⟨c, hc, hzero⟩ := hhead
    have hchar := (digitChar_digitValue (h.chars c (List.mem_of_mem_head? hc))).2
    rw [hzero] at hchar
    rw [h.unpadded (hc.trans (congrArg some hchar.symm))]
    decide

theorem Numeral.map_digitChar {text : String} (h : Numeral text) :
    (text.toList.map digitValue).map digitChar = text.toList := by
  rw [List.map_map]
  calc text.toList.map (digitChar ∘ digitValue)
      = text.toList.map id :=
        List.map_congr_left fun c hc => (digitChar_digitValue (h.chars c hc)).2
    _ = text.toList := List.map_id _

/-- A word is rendered as the one numeral that stands for it. -/
theorem render_eq_iff {w : UInt32} {text : String} :
    render w = text ↔ Numeral text ∧ number text = w.toNat := by
  constructor
  · rintro rfl
    exact ⟨numeral_render w, number_render w⟩
  · rintro ⟨h, hnumber⟩
    rw [number_eq_value] at hnumber
    have hdigits := digits_value h.canonical (hnumber ▸ toNat_lt w)
    rw [← String.toList_inj, toList_render, ← hnumber, hdigits, h.map_digitChar]

/-- Rendering is exact and canonical. A word is rendered with one to seven digits, without a zero in
front, and its text stands for it; of all texts without a zero in front it is the only one that
does. So two texts have the same digest under a seed exactly if they have the same hash. -/
theorem rendering_exact :
    (∀ w : UInt32, 1 ≤ (render w).length ∧ (render w).length ≤ 7 ∧ Numeral (render w) ∧
      number (render w) = w.toNat) ∧
    (∀ (w : UInt32) (text : String), render w = text ↔ Numeral text ∧ number text = w.toNat) ∧
    ∀ (seed : UInt32) (a b : String), digest a seed = digest b seed ↔ word a seed = word b seed := by
  refine ⟨fun w => ?_, fun w text => render_eq_iff, fun seed a b => ?_⟩
  · obtain ⟨hlow, hhigh, -⟩ := render_chars w
    rw [String.length_toList] at hlow hhigh
    exact ⟨hlow, hhigh, numeral_render w, number_render w⟩
  · exact ⟨render_injective, fun h => congrArg render h⟩

example : render 0 = "0" ∧ render 35 = "z" ∧ render 36 = "10" ∧ render 4294967295 = "1z141z3" := by
  decide

end AtomicCss.Digest.Base36
