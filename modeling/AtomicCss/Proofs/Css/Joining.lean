import AtomicCss.Proofs.Css.Cutting

/-!
# Components put together and cut again

A component is a row of atoms: plain characters, strings, and pairs of brackets around atoms and
blanks. Components with blanks between them are cut into just these components, as long as the text
holds no comment and no address (`components_joined`).

The reader takes many characters as one token, but a token of plain characters changes the state as
its characters do one by one (`cut_plain`), so the argument goes through the text by characters,
strings and brackets and not by tokens.
-/

namespace AtomicCss.Css

/-! ## Atoms and components -/

/-- The blanks, the quotes, the brackets and the backslash. -/
def special : List Char :=
  [' ', '\t', '\n', '\r', '\x0c', '"', '\'', '(', ')', '[', ']', '{', '}', '\\']

/-- A character that neither ends a component nor begins a string, a block or an escape. -/
def isPlain (c : Char) : Bool := c ∉ special

/-- What a component is made of. A piece between brackets that is not blank is an atom itself. -/
inductive Atom : List Char → Prop
  | run {text : List Char} : text ≠ [] → text.all isPlain = true → Atom text
  | quoted {quote : Char} {body : List Char} : isQuote quote = true →
      (∀ c ∈ body, c ≠ quote ∧ c ≠ '\\' ∧ isNewline c = false) →
      Atom (quote :: (body ++ [quote]))
  | block (b : Bracket) {pieces : List (List Char)} :
      (∀ piece ∈ pieces, piece.all isBlank = false → Atom piece) →
      Atom (b.left :: (pieces.flatten ++ [b.right]))

/-- One atom or several behind each other. -/
def Component (text : List Char) : Prop :=
  ∃ atoms : List (List Char), atoms ≠ [] ∧ (∀ a ∈ atoms, Atom a) ∧ text = atoms.flatten

theorem Atom.component {a : List Char} (h : Atom a) : Component a :=
  ⟨[a], by simp, by simpa using h, by simp⟩

/-- A text without escapes, comments and addresses. -/
structure Clean (text : List Char) : Prop where
  escape : '\\' ∉ text
  comment : ¬ ['/', '*'] <:+: text
  address : ¬ ['u', 'r', 'l', '('] <:+: text.map Char.toLower

theorem Clean.of_suffix {text rest : List Char} (h : Clean text) (hr : rest <:+ text) :
    Clean rest where
  escape hm := h.escape (hr.mem hm)
  comment hi := h.comment (hi.trans hr.isInfix)
  address hi := h.address (hi.trans (hr.map _).isInfix)

theorem Clean.tail {c : Char} {rest : List Char} (h : Clean (c :: rest)) : Clean rest :=
  h.of_suffix (List.suffix_cons c rest)

theorem Clean.right {text rest : List Char} (h : Clean (text ++ rest)) : Clean rest :=
  h.of_suffix (List.suffix_append text rest)

/-! ## Scans over plain characters -/

/-- The text is `behind` after some plain characters. -/
def Skips (text behind : List Char) : Prop :=
  ∃ front, (∀ c ∈ front, isPlain c = true) ∧ text = front ++ behind

theorem Skips.refl (text : List Char) : Skips text text := ⟨[], by simp, rfl⟩

theorem Skips.trans {text between behind : List Char} (h : Skips text between)
    (h' : Skips between behind) : Skips text behind := by
  obtain ⟨front, hf, rfl⟩ := h
  obtain ⟨front', hf', rfl⟩ := h'
  refine ⟨front ++ front', fun c hc => ?_, by rw [List.append_assoc]⟩
  exact (List.mem_append.1 hc).elim (hf c) (hf' c)

theorem Skips.cons {c : Char} {text behind : List Char} (hc : isPlain c = true)
    (h : Skips text behind) : Skips (c :: text) behind :=
  Skips.trans ⟨[c], by simpa using hc, rfl⟩ h

theorem Skips.suffix {text behind : List Char} (h : Skips text behind) : behind <:+ text := by
  obtain ⟨front, -, rfl⟩ := h
  exact List.suffix_append front behind

theorem isPlain_of {p : Char → Bool} (hp : special.any p = false) {c : Char}
    (hc : p c = true) : isPlain c = true :=
  decide_eq_true (not_mem_of_any hp hc)

theorem isPlain_iff {c : Char} : isPlain c = true ↔
    isBlank c = false ∧ isQuote c = false ∧ isBracket c = false ∧ c ≠ '\\' := by
  simp [isPlain, special, isBlank, isNewline, isQuote, isBracket, and_assoc]

theorem skips_dropWhile {p : Char → Bool} (hp : special.any p = false) (text : List Char) :
    Skips text (text.dropWhile p) :=
  ⟨text.takeWhile p, fun c hc => isPlain_of hp (List.all_eq_true.1 List.all_takeWhile c hc),
    by simp⟩

theorem afterName_eq_dropWhile {text : List Char} (h : '\\' ∉ text) :
    afterName .none text = text.dropWhile isNameChar := by
  induction text with
  | nil => rfl
  | cons c rest ih =>
    rw [List.mem_cons, not_or] at h
    rw [afterName]
    by_cases hc : isNameChar c = true
    · rw [List.dropWhile_cons_of_pos hc, ← ih h.2]
      simp [Escape.next?, hc]
    · rw [List.dropWhile_cons_of_neg hc]
      simp [Escape.next?, hc, Ne.symm h.1]

theorem afterName_skips {text : List Char} (h : '\\' ∉ text) :
    Skips text (afterName .none text) := by
  rw [afterName_eq_dropWhile h]
  exact skips_dropWhile (by decide) text

theorem afterDigits_skips (text : List Char) : Skips text (afterDigits text) :=
  skips_dropWhile (by decide) text

theorem afterDecimals_skips (text : List Char) : Skips text (afterDecimals text) := by
  fun_cases afterDecimals text with
  | case1 rest _ => exact .cons (by decide) (afterDigits_skips rest)
  | case2 => exact .refl _
  | case3 => exact .refl _

theorem afterExponent_skips (text : List Char) : Skips text (afterExponent text) := by
  fun_cases afterExponent text with
  | case1 e he sign digits _ =>
    refine .cons ?_ (afterDigits_skips _)
    rcases he with rfl | rfl <;> decide
  | case2 e he sign digits _ hs =>
    refine .cons ?_ (.cons ?_ (afterDigits_skips digits))
    · rcases he with rfl | rfl <;> decide
    · rcases hs.1 with rfl | rfl <;> decide
  | _ => exact .refl _

theorem afterUnit_skips {text : List Char} (h : '\\' ∉ text) : Skips text (afterUnit text) := by
  fun_cases afterUnit text with
  | case1 rest => exact .cons (by decide) (.refl rest)
  | case2 => exact afterName_skips h
  | case3 => exact .refl _

theorem afterNumber_skips {text : List Char} (h : '\\' ∉ text) : Skips text (afterNumber text) := by
  have hfront : Skips text (afterExponent (afterDecimals (afterDigits text))) :=
    (afterDigits_skips text).trans ((afterDecimals_skips _).trans (afterExponent_skips _))
  exact hfront.trans (afterUnit_skips fun hm => h (hfront.suffix.mem hm))

theorem afterNumber_cons_skips {c : Char} {rest : List Char} (hr : '\\' ∉ rest)
    (h : startsNumber (c :: rest) = true) : Skips rest (afterNumber (c :: rest)) := by
  rcases startsNumber_cases h with hd | ⟨rfl, hd⟩
  · rw [afterNumber_digit hd]
    exact afterNumber_skips hr
  · have hfront : Skips rest (afterExponent (afterDigits rest)) :=
      (afterDigits_skips rest).trans (afterExponent_skips _)
    rw [afterNumber_point hd]
    exact hfront.trans (afterUnit_skips fun hm => hr (hfront.suffix.mem hm))

theorem unescape_eq_self {name : List Char} (h : '\\' ∉ name) : unescape .none 0 name = name := by
  induction name with
  | nil => rfl
  | cons c name ih =>
    rw [List.mem_cons, not_or] at h
    simp [unescape, Escape.next?, Ne.symm h.1, ih h.2]

theorem Clean.not_address {name arguments : List Char} (h : Clean (name ++ '(' :: arguments)) :
    isAddressName name = false := by
  rw [Bool.eq_false_iff]
  intro hn
  have hname : '\\' ∉ name := fun hm => h.escape (List.mem_append_left _ hm)
  rw [isAddressName, unescape_eq_self hname, beq_iff_eq] at hn
  refine h.address ⟨[], arguments.map Char.toLower, ?_⟩
  rw [List.map_append, hn]
  rfl

/-- The first token of a clean text that begins with a plain character is a run of plain characters,
possibly with a round bracket behind them. -/
theorem Cuts.of_plain {c : Char} {rest behind : List Char} {kind : TokenKind}
    (h : Cuts c rest kind behind) (hc : isPlain c = true) (hclean : Clean (c :: rest)) :
    (kind = .other ∧ Skips rest behind) ∨
      (kind = .opening .round ∧ Skips rest ('(' :: behind)) := by
  have hrest : '\\' ∉ rest := hclean.tail.escape
  have hname : startsName (c :: rest) = true → Skips rest (afterName .none (c :: rest)) := by
    intro hn
    have hchar : isNameChar c = true := by
      by_cases hm : c = '-'
      · rw [hm]
        decide
      · have hs : isNameStart c = true := by
          rwa [startsName_cons hm fun hb => hclean.escape (hb ▸ List.mem_cons_self)] at hn
        simp [isNameChar, hs]
    rw [afterName_eq_dropWhile hclean.escape, List.dropWhile_cons_of_pos hchar]
    exact skips_dropWhile (by decide) rest
  obtain ⟨hblank, hquote, hbracket, -⟩ := isPlain_iff.1 hc
  cases h with
  | blank h => exact absurd h (by simp [hblank])
  | quoted h => exact absurd h (by simp [hquote])
  | opening b h =>
    subst h
    cases b <;> exact absurd hbracket (by decide)
  | closing b h =>
    subst h
    cases b <;> exact absurd hbracket (by decide)
  | comment hs hr =>
    subst hs hr
    exact absurd (List.prefix_append ['/', '*'] _).isInfix hclean.comment
  | signed _ _ => exact .inl ⟨rfl, afterNumber_skips hrest⟩
  | number h => exact .inl ⟨rfl, afterNumber_cons_skips hrest h⟩
  | hash _ _ => exact .inl ⟨rfl, afterName_skips hrest⟩
  | keyword _ _ => exact .inl ⟨rfl, afterName_skips hrest⟩
  | arrow _ hr => exact .inl ⟨rfl, hr ▸ .cons (by decide) (.cons (by decide) (.refl _))⟩
  | tag _ hr =>
    exact .inl ⟨rfl, hr ▸ .cons (by decide) (.cons (by decide) (.cons (by decide) (.refl _)))⟩
  | word hn _ _ => exact .inl ⟨rfl, hname hn⟩
  | function hn _ hr _ _ => exact .inr ⟨rfl, hr ▸ hname hn⟩
  | address hn _ hr ht hu _ =>
    rw [← ht] at hclean
    rw [hclean.not_address] at hu
    cases hu
  | lone _ => exact .inl ⟨rfl, .refl _⟩

/-! ## Reading a clean text -/

theorem cut_one_by_one {b : List Bracket} {piece behind : List Char}
    (h : ∀ (s : Cutting) (c : Char) (rest : List Char), s.brackets = b → c ∈ piece →
      c :: rest <:+ piece ++ behind → cut s (c :: rest) = cut (s.add [c] b) rest)
    (s : Cutting) (x : List Char) :
    cut (s.add x b) (piece ++ behind) = cut (s.add (x ++ piece) b) behind := by
  induction piece generalizing x with
  | nil => simp
  | cons c piece ih =>
    have hrest := ih fun s' d rest hb hd hs =>
      h s' d rest hb (List.mem_cons_of_mem c hd) (hs.trans (List.suffix_cons c _))
    have hfirst := h (s.add x b) c (piece ++ behind) rfl List.mem_cons_self List.suffix_rfl
    rw [List.cons_append, hfirst, Cutting.add_add, hrest, List.append_assoc, List.singleton_append]

theorem cut_plain {s : Cutting} {c : Char} {rest : List Char} (hc : isPlain c = true)
    (hclean : Clean (c :: rest)) : cut s (c :: rest) = cut (s.add [c] s.brackets) rest := by
  induction hn : rest.length using Nat.strongRecOn generalizing s c rest with
  | _ n ih =>
    subst hn
    -- the rest of the first token, read one by one and not as a part of the token
    have hrun : ∀ front behind, (∀ d ∈ front, isPlain d = true) → rest = front ++ behind →
        cut (s.add [c] s.brackets) (front ++ behind) =
          cut (s.add ([c] ++ front) s.brackets) behind := by
      intro front behind hp hr
      refine cut_one_by_one (fun s' d rest' hb hd hs => ?_) s [c]
      rw [← hr] at hs
      rw [← hb]
      exact ih rest'.length hs.length_le (hp d hd) (hclean.tail.of_suffix hs) rfl
    obtain ⟨kind, behind, hcuts⟩ : ∃ kind behind, Cuts c rest kind behind :=
      ⟨_, _, cuts_afterToken c rest⟩
    rcases hcuts.of_plain hc hclean with ⟨rfl, front, hp, rfl⟩ | ⟨rfl, front, hp, rfl⟩
    · rw [cut_of_cuts (c :: front) hcuts rfl, Cutting.step_other, hrun front behind hp rfl]
      rfl
    · rw [cut_of_cuts (c :: front ++ ['(']) hcuts (by simp), Cutting.step_opening,
        hrun front ('(' :: behind) hp rfl]
      have hleft := cut_left (s := s.add ([c] ++ front) s.brackets) .round behind
      rw [Cutting.add_add] at hleft
      exact hleft.symm

theorem cut_run {s : Cutting} {front behind : List Char} (hne : front ≠ [])
    (hp : ∀ c ∈ front, isPlain c = true) (hclean : Clean (front ++ behind)) :
    cut s (front ++ behind) = cut (s.add front s.brackets) behind := by
  obtain ⟨c, front, rfl⟩ := List.exists_cons_of_ne_nil hne
  rw [List.cons_append] at hclean ⊢
  rw [cut_plain (hp c List.mem_cons_self) hclean]
  refine cut_one_by_one (fun s' d rest hb hd hs => ?_) s [c]
  rw [← hb]
  exact cut_plain (hp d (List.mem_cons_of_mem c hd)) (hclean.tail.of_suffix hs)

/-- The characters of `piece` go into a component that has been begun, between the brackets `b`. -/
def Kept (b : List Bracket) (piece : List Char) : Prop :=
  ∀ (s : Cutting) (x rest : List Char), Clean (piece ++ rest) →
    cut (s.add x b) (piece ++ rest) = cut (s.add (x ++ piece) b) rest

theorem Kept.flatten {b : List Bracket} {pieces : List (List Char)}
    (h : ∀ piece ∈ pieces, Kept b piece) : Kept b pieces.flatten := by
  induction pieces with
  | nil => simp [Kept]
  | cons piece pieces ih =>
    intro s x rest hclean
    rw [List.flatten_cons, List.append_assoc] at hclean ⊢
    rw [h piece List.mem_cons_self s x _ hclean,
      ih (fun p hp => h p (List.mem_cons_of_mem _ hp)) s _ rest hclean.right, List.append_assoc]

theorem kept_blanks {b : List Bracket} {piece : List Char} (hb : b ≠ [])
    (h : piece.all isBlank = true) : Kept b piece := by
  intro s x rest _
  refine cut_one_by_one (fun s' c rest' hs' hc _ => ?_) s x
  subst hs'
  exact cut_blank_inside hb (List.all_eq_true.1 h c hc) rest'

/-- An atom in front of a clean text goes into the component as it stands. -/
theorem Atom.cut {a : List Char} (h : Atom a) (s : Cutting) (rest : List Char)
    (hclean : Clean (a ++ rest)) : cut s (a ++ rest) = cut (s.add a s.brackets) rest := by
  induction h generalizing s rest with
  | run hne hp => exact cut_run hne (List.all_eq_true.1 hp) hclean
  | quoted hq hbody =>
    rw [List.cons_append, List.append_assoc, List.singleton_append, cut_quoted hq hbody]
  | @block b pieces _ ih =>
    have hkept : Kept (b :: s.brackets) pieces.flatten := by
      refine .flatten fun piece hpiece => ?_
      cases hb : piece.all isBlank with
      | true => exact kept_blanks (by simp) hb
      | false =>
        intro s' x rest' hclean'
        rw [ih piece hpiece hb (s'.add x _) rest' hclean', Cutting.add_add, Cutting.add_brackets]
    rw [List.cons_append, List.append_assoc, List.singleton_append] at hclean ⊢
    rw [cut_left, hkept s _ _ hclean.tail, cut_right rfl, Cutting.add_add]
    rfl

theorem Component.cut {text : List Char} (h : Component text) (s : Cutting) (rest : List Char)
    (hclean : Clean (text ++ rest)) : cut s (text ++ rest) = cut (s.add text s.brackets) rest := by
  obtain ⟨atoms, hne, hatoms, rfl⟩ := h
  obtain ⟨a, atoms, rfl⟩ := List.exists_cons_of_ne_nil hne
  have hkept : Kept s.brackets atoms.flatten := by
    refine .flatten fun a' ha' s' x rest' hclean' => ?_
    rw [(hatoms a' (List.mem_cons_of_mem _ ha')).cut (s'.add x _) rest' hclean', Cutting.add_add,
      Cutting.add_brackets]
  rw [List.flatten_cons, List.append_assoc] at hclean ⊢
  rw [(hatoms a List.mem_cons_self).cut s _ hclean, hkept s a rest hclean.right]

/-! ## Components with blanks between them -/

/-- A component, more components with the blanks before each of them, and blanks around all. -/
def joined (lead first : List Char) (more : List (List Char × List Char)) (trail : List Char) :
    List Char :=
  lead ++ (first ++ (more.flatMap (fun m => m.1 ++ m.2) ++ trail))

theorem cut_gap {s : Cutting} {gap : List Char} (hs : s.brackets = []) (hne : gap ≠ [])
    (h : gap.all isBlank = true) (rest : List Char) :
    cut s (gap ++ rest) = cut ⟨s.current.toList ++ s.done, none, [], []⟩ rest := by
  induction gap generalizing s with
  | nil => exact absurd rfl hne
  | cons c gap ih =>
    rw [List.all_cons, Bool.and_eq_true] at h
    rw [List.cons_append, cut_blank hs h.1]
    cases gap with
    | nil => rfl
    | cons d gap => exact ih rfl (by simp) h.2

theorem cut_component {text : List Char} (h : Component text) (done : List (List Char))
    (rest : List Char) (hclean : Clean (text ++ rest)) :
    cut ⟨done, none, [], []⟩ (text ++ rest) = cut ⟨done, some text, [], []⟩ rest := by
  rw [h.cut _ rest hclean]
  simp [Cutting.add]

theorem finish_cut_more {more : List (List Char × List Char)} {trail : List Char}
    (hmore : ∀ m ∈ more, m.1 ≠ [] ∧ m.1.all isBlank = true ∧ Component m.2)
    (htrail : trail.all isBlank = true) (done : List (List Char)) (last : List Char)
    (hclean : Clean (more.flatMap (fun m => m.1 ++ m.2) ++ trail)) :
    (cut ⟨done, some last, [], []⟩ (more.flatMap (fun m => m.1 ++ m.2) ++ trail)).finish =
      done.reverse ++ last :: more.map Prod.snd := by
  induction more generalizing done last with
  | nil =>
    rw [List.flatMap_nil, List.nil_append]
    by_cases ht : trail = []
    · simp [ht, Cutting.finish]
    · have hgap := cut_gap (s := ⟨done, some last, [], []⟩) rfl ht htrail []
      rw [List.append_nil] at hgap
      simp [hgap, Cutting.finish]
  | cons m more ih =>
    obtain ⟨hne, hgap, hm⟩ := hmore m List.mem_cons_self
    rw [List.flatMap_cons, List.append_assoc, List.append_assoc] at hclean ⊢
    rw [cut_gap rfl hne hgap]
    simp only [Option.toList_some, List.singleton_append]
    rw [cut_component hm _ _ hclean.right,
      ih (fun m' h' => hmore m' (List.mem_cons_of_mem _ h')) _ _ hclean.right.right]
    simp

theorem finish_cut_joined {lead first trail : List Char} {more : List (List Char × List Char)}
    (hlead : lead.all isBlank = true) (hfirst : Component first)
    (hmore : ∀ m ∈ more, m.1 ≠ [] ∧ m.1.all isBlank = true ∧ Component m.2)
    (htrail : trail.all isBlank = true) (hclean : Clean (joined lead first more trail)) :
    (cut Cutting.start (joined lead first more trail)).finish = first :: more.map Prod.snd := by
  have hstart : cut Cutting.start (joined lead first more trail) =
      cut ⟨[], none, [], []⟩ (first ++ (more.flatMap (fun m => m.1 ++ m.2) ++ trail)) := by
    by_cases hl : lead = []
    · rw [joined, hl, List.nil_append, Cutting.start]
    · exact cut_gap rfl hl hlead _
  rw [hstart, cut_component hfirst _ _ (hclean.of_suffix (List.suffix_append _ _)),
    finish_cut_more hmore htrail _ _ hclean.right.right]
  rfl

theorem Atom.not_mem_escape {a : List Char} (h : Atom a) : '\\' ∉ a := by
  induction h with
  | run _ hp => exact fun hm => absurd (List.all_eq_true.1 hp _ hm) (by decide)
  | @quoted quote body hq hbody =>
    simp only [List.mem_cons, List.mem_append, List.not_mem_nil, or_false, not_or]
    have hne : '\\' ≠ quote := by
      rintro rfl
      exact absurd hq (by decide)
    exact ⟨hne, fun hm => (hbody _ hm).2.1 rfl, hne⟩
  | @block b pieces _ ih =>
    simp only [List.mem_cons, List.mem_append, List.not_mem_nil, or_false, not_or]
    refine ⟨by cases b <;> decide, fun hm => ?_, by cases b <;> decide⟩
    obtain ⟨piece, hpiece, hm⟩ := List.mem_flatten.1 hm
    cases hb : piece.all isBlank with
    | true => exact absurd (List.all_eq_true.1 hb _ hm) (by decide)
    | false => exact ih piece hpiece hb hm

theorem Component.not_mem_escape {text : List Char} (h : Component text) : '\\' ∉ text := by
  obtain ⟨atoms, -, hatoms, rfl⟩ := h
  intro hm
  obtain ⟨a, ha, hm⟩ := List.mem_flatten.1 hm
  exact (hatoms a ha).not_mem_escape hm

theorem not_mem_escape_of_blanks {gap : List Char} (h : gap.all isBlank = true) : '\\' ∉ gap :=
  fun hm => absurd (List.all_eq_true.1 h _ hm) (by decide)

theorem not_mem_escape_joined {lead first trail : List Char} {more : List (List Char × List Char)}
    (hlead : lead.all isBlank = true) (hfirst : Component first)
    (hmore : ∀ m ∈ more, m.1 ≠ [] ∧ m.1.all isBlank = true ∧ Component m.2)
    (htrail : trail.all isBlank = true) : '\\' ∉ joined lead first more trail := by
  simp only [joined, List.mem_append, List.mem_flatMap, not_or, not_exists, not_and]
  refine ⟨not_mem_escape_of_blanks hlead, hfirst.not_mem_escape, fun m hm => ?_,
    not_mem_escape_of_blanks htrail⟩
  obtain ⟨-, hgap, hm⟩ := hmore m hm
  exact ⟨not_mem_escape_of_blanks hgap, hm.not_mem_escape⟩

/-! ## Words -/

/-- The pieces of a text between its blanks. -/
def words (text : List Char) : List (List Char) :=
  (text.splitOnP isBlank).filter fun word => !word.isEmpty

theorem words_blank {word : List Char} (hw : ∀ c ∈ word, isBlank c = false) {c : Char}
    (hc : isBlank c = true) (rest : List Char) :
    words (word ++ c :: rest) = (if word.isEmpty then [] else [word]) ++ words rest := by
  rw [words, List.splitOnP_append_cons_of_forall_mem hw c hc, List.filter_cons]
  cases word <;> rfl

theorem words_single {word : List Char} (hw : ∀ c ∈ word, isBlank c = false) :
    words word = if word.isEmpty then [] else [word] := by
  rw [words, List.splitOnP_eq_singleton hw]
  cases word <;> rfl

/-- A text is simple if it holds no quotes, brackets and escapes. -/
def Simple (text : List Char) : Prop :=
  ∀ c ∈ text, isQuote c = false ∧ isBracket c = false ∧ c ≠ '\\'

theorem Simple.clean {text : List Char} (h : Simple text) (hc : ¬ ['/', '*'] <:+: text) :
    Clean text where
  escape hm := (h _ hm).2.2 rfl
  comment := hc
  address hi := by
    obtain ⟨c, hm, hl⟩ := List.mem_map.1 (hi.mem (a := '(') (by simp))
    exact absurd (h c hm).2.1 (by rw [Text.eq_of_toLower_eq hl (by decide)]; decide)

theorem finish_cut_words {text : List Char} (hsimple : Simple text) (hclean : Clean text)
    (done : List (List Char)) {current : Option (List Char)} (hne : current ≠ some [])
    (hw : ∀ c ∈ current.getD [], isBlank c = false) :
    (cut ⟨done, current, [], []⟩ text).finish =
      done.reverse ++ words (current.getD [] ++ text) := by
  induction text generalizing done current with
  | nil =>
    rw [cut_nil, List.append_nil, words_single hw]
    cases current with
    | none => simp [Cutting.finish]
    | some word =>
      have hword : word ≠ [] := fun h => hne (h ▸ rfl)
      simp [Cutting.finish, hword]
  | cons c rest ih =>
    have hrest : Simple rest := fun d hd => hsimple d (List.mem_cons_of_mem _ hd)
    by_cases hc : isBlank c = true
    · rw [cut_blank rfl hc, ih hrest hclean.tail _ (by simp) (by simp), words_blank hw hc]
      cases current with
      | none => rfl
      | some word =>
        have hword : word ≠ [] := fun h => hne (h ▸ rfl)
        simp [hword]
    · rw [Bool.not_eq_true] at hc
      rw [cut_plain (isPlain_iff.2 ⟨hc, hsimple c List.mem_cons_self⟩) hclean]
      have hadd : Cutting.add ⟨done, current, [], []⟩ [c] [] =
          ⟨done, some (current.getD [] ++ [c]), [], []⟩ := by
        simp [Cutting.add]
      rw [hadd, ih hrest hclean.tail _ (by simp) fun d hd => ?_, Option.getD_some,
        List.append_assoc, List.singleton_append]
      rcases List.mem_append.1 hd with hd | hd
      · exact hw d hd
      · rw [List.mem_singleton.1 hd, hc]

/-- Cutting undoes joining: components with blanks between them are found again, and a text without
quotes, brackets, escapes and comments is cut at its blanks. -/
theorem components_joined :
    (∀ (lead first trail : List Char) (more : List (List Char × List Char)),
      lead.all isBlank = true → Component first →
      (∀ m ∈ more, m.1 ≠ [] ∧ m.1.all isBlank = true ∧ Component m.2) →
      trail.all isBlank = true →
      ¬ ['/', '*'] <:+: joined lead first more trail →
      ¬ ['u', 'r', 'l', '('] <:+: (joined lead first more trail).map Char.toLower →
      components (String.ofList (joined lead first more trail)) =
        (first :: more.map Prod.snd).map String.ofList) ∧
    ∀ value : String, Simple value.toList → ¬ ['/', '*'] <:+: value.toList →
      components value =
        if words value.toList = [] then [""] else (words value.toList).map String.ofList := by
  constructor
  · intro lead first trail more hlead hfirst hmore htrail hcomment haddress
    have hclean : Clean (joined lead first more trail) :=
      ⟨not_mem_escape_joined hlead hfirst hmore htrail, hcomment, haddress⟩
    refine components_of_finish ?_ (List.cons_ne_nil _ _)
    rw [String.toList_ofList, finish_cut_joined hlead hfirst hmore htrail hclean]
  · intro value hsimple hcomment
    have hfinish : (cut Cutting.start value.toList).finish = words value.toList := by
      rw [Cutting.start, finish_cut_words hsimple (hsimple.clean hcomment) [] (by simp) (by simp)]
      rfl
    by_cases hw : words value.toList = []
    · rw [if_pos hw, components, ← cut, hfinish, hw]
    · rw [if_neg hw, components_of_finish hfinish hw]

theorem component_nested : Component "var(--a, \"b) \" [c d])".toList := by
  have hsquare : Atom "[c d]".toList := by
    refine @Atom.block .square ["c".toList, " ".toList, "d".toList] ?_
    simp only [List.forall_mem_cons]
    exact ⟨fun _ => .run (by decide) (by decide), fun h => absurd h (by decide),
      fun _ => .run (by decide) (by decide), by simp⟩
  have hround : Atom "(--a, \"b) \" [c d])".toList := by
    refine @Atom.block .round
      ["--a,".toList, " ".toList, "\"b) \"".toList, " ".toList, "[c d]".toList] ?_
    simp only [List.forall_mem_cons]
    exact ⟨fun _ => .run (by decide) (by decide), fun h => absurd h (by decide),
      fun _ => @Atom.quoted '"' "b) ".toList (by decide) (by simp [isNewline]),
      fun h => absurd h (by decide), fun _ => hsquare, by simp⟩
  refine ⟨["var".toList, "(--a, \"b) \" [c d])".toList], by simp, ?_, by decide⟩
  simp only [List.forall_mem_cons]
  exact ⟨.run (by decide) (by decide), hround, by simp⟩

/-- The law of joining for a component with nested brackets, and that of words for a slash. -/
theorem nested_joined :
    (Component "var(--a, \"b) \" [c d])".toList ∧
      components "\t1px var(--a, \"b) \" [c d])\n " = ["1px", "var(--a, \"b) \" [c d])"]) ∧
    Simple "1px / 2px  3px".toList ∧
      components "1px / 2px  3px" = ["1px", "/", "2px", "3px"] := by
  have hsimple : Simple "1px / 2px  3px".toList := by
    have hall : "1px / 2px  3px".toList.all
        (fun c => !isQuote c && !isBracket c && c != '\\') = true := by decide
    intro c hc
    simpa [and_assoc] using List.all_eq_true.1 hall c hc
  have hmore : ∀ m ∈ [(" ".toList, "var(--a, \"b) \" [c d])".toList)],
      m.1 ≠ [] ∧ m.1.all isBlank = true ∧ Component m.2 := by
    intro m hm
    rw [List.mem_singleton.1 hm]
    exact ⟨by decide, by decide, component_nested⟩
  have hjoined := components_joined.1 "\t".toList "1px".toList "\n ".toList
    [(" ".toList, "var(--a, \"b) \" [c d])".toList)] (by decide)
    (Atom.component (.run (by decide) (by decide))) hmore (by decide) (by decide +kernel)
    (by decide +kernel)
  have hwords := components_joined.2 "1px / 2px  3px" hsimple (by decide +kernel)
  have htext : "\t1px var(--a, \"b) \" [c d])\n " = String.ofList (joined "\t".toList "1px".toList
      [(" ".toList, "var(--a, \"b) \" [c d])".toList)] "\n ".toList) := by
    decide
  rw [htext, hjoined, hwords]
  exact ⟨⟨component_nested, by decide⟩, hsimple, by decide⟩

end AtomicCss.Css
