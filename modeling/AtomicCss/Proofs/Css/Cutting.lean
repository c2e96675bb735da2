import AtomicCss.Proofs.Css.Tokens

/-!
# Reading a value from a state

`cut s text` is the state behind `text` when it is read from `s`. What it does with the characters
that end or bound a component is said one character at a time: blanks (`cut_blank`,
`cut_blank_inside`), brackets (`cut_left`, `cut_right`), strings (`cut_quoted`) and comments
(`cut_comment`).
-/

namespace AtomicCss.Css

namespace Cutting

variable {s : Cutting} {text more : List Char} {b b' : List Bracket}

theorem add_add : (s.add text b).add more b' = s.add (text ++ more) b' := by
  simp [add]

@[simp] theorem add_brackets : (s.add text b).brackets = b := rfl

/-! ## One token -/

/-- Between brackets every token goes into the component, outside all but blanks and comments. -/
theorem step_add {t : Token} (h : s.brackets ≠ [] ∨ t.kind ≠ .blank ∧ t.kind ≠ .comment) :
    s.step t = s.add t.text (bracketsAfter t.kind s.brackets) := by
  obtain ⟨kind, text⟩ := t
  cases hb : s.brackets with
  | cons b outer => simp [step, hb]
  | nil => cases kind <;> simp_all [step]

theorem step_other : s.step ⟨.other, text⟩ = s.add text s.brackets := by
  rw [step_add (.inr (by simp)), bracketsAfter] <;> simp

theorem step_opening (b : Bracket) : s.step ⟨.opening b, text⟩ = s.add text (b :: s.brackets) :=
  step_add (.inr (by simp))

theorem step_closing (b : Bracket) :
    s.step ⟨.closing b, text⟩ = s.add text (bracketsAfter (.closing b) s.brackets) :=
  step_add (.inr (by simp))

theorem step_blank (h : s.brackets = []) :
    s.step ⟨.blank, text⟩ = ⟨s.current.toList ++ s.done, none, [], []⟩ := by
  simp [step, h]

theorem step_comment (h : s.brackets = []) :
    s.step ⟨.comment, text⟩ = { s with pending := s.pending ++ text } := by
  simp [step, h]

end Cutting

/-! ## A text -/

/-- The state behind a text that is read from the state `s`. -/
def cut (s : Cutting) (text : List Char) : Cutting := (tokens text).foldl Cutting.step s

@[simp] theorem cut_nil (s : Cutting) : cut s [] = s := rfl

theorem components_of_finish {value : String} {parts : List (List Char)}
    (h : (cut Cutting.start value.toList).finish = parts) (hne : parts ≠ []) :
    components value = parts.map String.ofList := by
  rw [components, ← cut, h]
  cases parts with
  | nil => exact absurd rfl hne
  | cons part parts => rfl

variable {s : Cutting} {c : Char} {rest behind : List Char} {kind : TokenKind}

theorem cut_of_cuts (text : List Char) (h : Cuts c rest kind behind)
    (ht : text ++ behind = c :: rest) :
    cut s (c :: rest) = cut (s.step ⟨kind, text⟩) behind := by
  rw [cut, tokens_of_cuts h ht, List.foldl_cons, cut]

/-! ## Brackets -/

theorem cut_left (b : Bracket) (rest : List Char) :
    cut s (b.left :: rest) = cut (s.add [b.left] (b :: s.brackets)) rest := by
  rw [cut_of_cuts [b.left] (.opening b rfl) rfl, Cutting.step_opening]

theorem cut_right {b : Bracket} {outer : List Bracket} (h : s.brackets = b :: outer)
    (rest : List Char) : cut s (b.right :: rest) = cut (s.add [b.right] outer) rest := by
  rw [cut_of_cuts [b.right] (.closing b rfl) rfl, Cutting.step_closing, h,
    Cutting.bracketsAfter, if_pos rfl]

/-! ## Strings -/

theorem afterString_of_body {quote : Char} {body : List Char}
    (h : ∀ c ∈ body, c ≠ quote ∧ c ≠ '\\' ∧ isNewline c = false) (rest : List Char) :
    afterString quote .none (body ++ quote :: rest) = rest := by
  induction body with
  | nil => simp [afterString, Escape.next?]
  | cons c body ih =>
    obtain ⟨hc, hb, hn⟩ := h c List.mem_cons_self
    rw [List.cons_append, afterString]
    simp [Escape.next?, hc, hb, hn, ih fun d hd => h d (List.mem_cons_of_mem _ hd)]

theorem cut_quoted {quote : Char} {body : List Char} (hq : isQuote quote = true)
    (h : ∀ c ∈ body, c ≠ quote ∧ c ≠ '\\' ∧ isNewline c = false) (rest : List Char) :
    cut s (quote :: (body ++ quote :: rest)) =
      cut (s.add (quote :: (body ++ [quote])) s.brackets) rest := by
  have hc : Cuts quote (body ++ quote :: rest) .other _ := .quoted hq
  rw [afterString_of_body h] at hc
  rw [cut_of_cuts (quote :: (body ++ [quote])) hc (by simp), Cutting.step_other]

/-! ## Blanks -/

theorem cut_blanks (h : isBlank c = true) (rest : List Char) :
    cut s (c :: rest) =
      cut (s.step ⟨.blank, c :: rest.takeWhile isBlank⟩) (rest.dropWhile isBlank) :=
  cut_of_cuts _ (.blank h) (by simp)

theorem cut_blank (hs : s.brackets = []) (h : isBlank c = true) (rest : List Char) :
    cut s (c :: rest) = cut ⟨s.current.toList ++ s.done, none, [], []⟩ rest := by
  rw [cut_blanks h, Cutting.step_blank hs]
  cases rest with
  | nil => rfl
  | cons d rest =>
    by_cases hd : isBlank d = true
    · rw [cut_blanks hd, Cutting.step_blank rfl, List.dropWhile_cons_of_pos hd]
      rfl
    · rw [List.dropWhile_cons_of_neg hd]

theorem cut_blank_inside (hs : s.brackets ≠ []) (h : isBlank c = true) (rest : List Char) :
    cut s (c :: rest) = cut (s.add [c] s.brackets) rest := by
  have hstep : ∀ s' : Cutting, s'.brackets = s.brackets →
      ∀ text, s'.step ⟨.blank, text⟩ = s'.add text s.brackets := by
    intro s' hs' text
    rw [Cutting.step_add (.inl (hs' ▸ hs)), hs', Cutting.bracketsAfter] <;> simp
  rw [cut_blanks h, hstep s rfl]
  cases rest with
  | nil => rfl
  | cons d rest =>
    by_cases hd : isBlank d = true
    · rw [cut_blanks hd, hstep (s.add [c] s.brackets) rfl, Cutting.add_add,
        List.dropWhile_cons_of_pos hd, List.takeWhile_cons_of_pos hd]
      rfl
    · rw [List.dropWhile_cons_of_neg hd, List.takeWhile_cons_of_neg hd]

/-! ## Comments -/

theorem afterComment_of_body {body : List Char} (h : ¬ ['*', '/'] <:+: body) (rest : List Char) :
    afterComment (body ++ '*' :: '/' :: rest) = rest := by
  induction body with
  | nil => rfl
  | cons c body ih =>
    rw [List.infix_cons_iff, not_or] at h
    rw [List.cons_append, afterComment, ih h.2]
    intro rest' hc hbody
    cases body with
    | nil => cases hbody
    | cons d body =>
      obtain ⟨rfl, -⟩ := List.cons.inj hbody
      exact h.1 ⟨body, by rw [hc]; rfl⟩

theorem afterComment_of_unclosed {body : List Char} (h : ¬ ['*', '/'] <:+: body) :
    afterComment body = [] := by
  induction body with
  | nil => rfl
  | cons c body ih =>
    rw [List.infix_cons_iff, not_or] at h
    rw [afterComment, ih h.2]
    intro rest' hc hbody
    exact h.1 ⟨rest', by rw [hc, hbody]; rfl⟩

/-- A comment is closed by the first `*/` behind its opening, or it runs to the end. -/
theorem exists_comment_body (text : List Char) :
    ∃ body, ¬ ['*', '/'] <:+: body ∧
      (text = body ++ '*' :: '/' :: afterComment text ∨ text = body ∧ afterComment text = []) := by
  fun_induction afterComment text with
  | case1 => exact ⟨[], by simp, .inr ⟨rfl, rfl⟩⟩
  | case2 rest => exact ⟨[], by simp, .inl rfl⟩
  | case3 c rest hne ih =>
    obtain ⟨body, hbody, h⟩ := ih
    refine ⟨c :: body, ?_, ?_⟩
    · rw [List.infix_cons_iff, not_or]
      refine ⟨?_, hbody⟩
      rintro ⟨more, hmore⟩
      obtain ⟨rfl, rfl⟩ := List.cons.inj hmore
      rcases h with h | ⟨h, -⟩
      · exact hne _ rfl h
      · exact hne _ rfl h
    · rcases h with h | ⟨h, hend⟩
      · exact .inl (by rw [List.cons_append, ← h])
      · exact .inr ⟨by rw [h], hend⟩

theorem cut_comment {body : List Char} (hs : s.brackets = []) (h : ¬ ['*', '/'] <:+: body)
    (rest : List Char) :
    cut s ('/' :: '*' :: (body ++ '*' :: '/' :: rest)) =
      cut { s with pending := s.pending ++ '/' :: '*' :: (body ++ ['*', '/']) } rest := by
  have hc : Cuts '/' ('*' :: (body ++ '*' :: '/' :: rest)) .comment _ := .comment rfl rfl
  rw [afterComment_of_body h] at hc
  rw [cut_of_cuts ('/' :: '*' :: (body ++ ['*', '/'])) hc (by simp),
    Cutting.step_comment hs]

theorem cut_unclosed {body : List Char} (hs : s.brackets = []) (h : ¬ ['*', '/'] <:+: body) :
    cut s ('/' :: '*' :: body) = { s with pending := s.pending ++ '/' :: '*' :: body } := by
  have hc : Cuts '/' ('*' :: body) .comment _ := .comment rfl rfl
  rw [afterComment_of_unclosed h] at hc
  rw [cut_of_cuts _ hc (List.append_nil _), Cutting.step_comment hs, cut_nil]

end AtomicCss.Css
