import AtomicCss.Proofs.Css.Truncation

/-!
# What a value is cut into

However malformed, a value is its components with gaps around them (`components_parting`): a gap
holds blanks and comments only, one between components holds a blank, and a component that is cut
again stays whole.

The invariant `Reading` splits the tokens that have been read into those of the finished components
with their gaps, those of the component that is being read, and the comments behind it. That a
finished component stays whole is where `cut_truncated` comes in: its tokens, read alone, end in the
state in which the blank behind it found the reader.
-/

namespace AtomicCss.Css

/-! ## Gaps -/

/-- Blanks and comments. -/
inductive Filler : List Char → Prop
  | nil : Filler []
  | blank {c : Char} {rest : List Char} : isBlank c = true → Filler rest → Filler (c :: rest)
  | comment {body rest : List Char} : ¬ ['*', '/'] <:+: body → Filler rest →
      Filler ('/' :: '*' :: (body ++ '*' :: '/' :: rest))

/-- Blanks and comments, the last of which may be unclosed. -/
inductive FillerToEnd : List Char → Prop
  | closed {text : List Char} : Filler text → FillerToEnd text
  | unclosed {text body : List Char} : Filler text → ¬ ['*', '/'] <:+: body →
      FillerToEnd (text ++ '/' :: '*' :: body)

/-- What stands between two components. -/
def Separator (gap : List Char) : Prop :=
  ∃ front c behind, Filler front ∧ isBlank c = true ∧ Filler behind ∧ gap = front ++ c :: behind

/-- What stands behind the last component. -/
def LastGap (gap : List Char) : Prop :=
  gap = [] ∨ ∃ front c behind, Filler front ∧ isBlank c = true ∧ FillerToEnd behind ∧
    gap = front ++ c :: behind

/-- A text that begins with the first of its parts: the parts with the gaps behind them. -/
inductive Parted : List (List Char) → List Char → Prop
  | last {part gap : List Char} : LastGap gap → Parted [part] (part ++ gap)
  | cons {part gap text : List Char} {parts : List (List Char)} : Separator gap →
      Parted parts text → Parted (part :: parts) (part ++ (gap ++ text))

theorem Filler.append {a b : List Char} (ha : Filler a) (hb : Filler b) : Filler (a ++ b) := by
  induction ha with
  | nil => exact hb
  | blank hc _ ih => exact .blank hc ih
  | comment hbody _ ih => simpa using Filler.comment hbody ih

theorem filler_of_blanks {text : List Char} (h : text.all isBlank = true) : Filler text := by
  induction text with
  | nil => exact .nil
  | cons c text ih =>
    rw [List.all_cons, Bool.and_eq_true] at h
    exact .blank h.1 (ih h.2)

theorem FillerToEnd.append {a b : List Char} (ha : Filler a) (hb : FillerToEnd b) :
    FillerToEnd (a ++ b) := by
  cases hb with
  | closed hb => exact .closed (ha.append hb)
  | unclosed hb hbody => simpa using FillerToEnd.unclosed (ha.append hb) hbody

theorem Separator.append {gap more : List Char} (h : Separator gap) (hm : Filler more) :
    Separator (gap ++ more) := by
  obtain ⟨front, c, behind, hf, hc, hb, rfl⟩ := h
  exact ⟨front, c, behind ++ more, hf, hc, hb.append hm, by simp⟩

theorem Separator.lastGap {gap more : List Char} (h : Separator gap) (hm : FillerToEnd more) :
    LastGap (gap ++ more) := by
  obtain ⟨front, c, behind, hf, hc, hb, rfl⟩ := h
  exact .inr ⟨front, c, behind ++ more, hf, hc, .append hb hm, by simp⟩

theorem Filler.cut {text : List Char} (h : Filler text) (pending rest : List Char) :
    ∃ pending', cut ⟨[], none, pending, []⟩ (text ++ rest) = cut ⟨[], none, pending', []⟩ rest := by
  induction h generalizing pending with
  | nil => exact ⟨pending, rfl⟩
  | blank hc _ ih =>
    obtain ⟨pending', hp⟩ := ih []
    refine ⟨pending', ?_⟩
    rw [List.cons_append, cut_blank rfl hc]
    exact hp
  | @comment body text hbody _ ih =>
    obtain ⟨pending', hp⟩ := ih (pending ++ '/' :: '*' :: (body ++ ['*', '/']))
    refine ⟨pending', ?_⟩
    have hcut := cut_comment (s := ⟨[], none, pending, []⟩) rfl hbody (text ++ rest)
    rw [hp] at hcut
    simpa using hcut

theorem FillerToEnd.finish_cut {text : List Char} (h : FillerToEnd text) :
    (cut Cutting.start text).finish = [] := by
  cases h with
  | closed h =>
    obtain ⟨pending, hp⟩ := h.cut [] []
    rw [List.append_nil] at hp
    rw [Cutting.start, hp]
    rfl
  | @unclosed front body h hbody =>
    obtain ⟨pending, hp⟩ := h.cut [] ('/' :: '*' :: body)
    rw [Cutting.start, hp, cut_unclosed rfl hbody]
    rfl

/-! ## Comments and blanks as tokens -/

theorem Cuts.of_blank {c : Char} {rest behind : List Char} (h : Cuts c rest .blank behind) :
    isBlank c = true ∧ behind = rest.dropWhile isBlank := by
  cases h with
  | blank hc => exact ⟨hc, rfl⟩

theorem Cuts.of_comment {c : Char} {rest behind : List Char} (h : Cuts c rest .comment behind) :
    ∃ body, c = '/' ∧ rest = '*' :: body ∧ behind = afterComment body := by
  cases h with
  | comment hc hr => exact ⟨_, hc, hr, rfl⟩

theorem Cuts.blank_text {c : Char} {front behind : List Char}
    (h : Cuts c (front ++ behind) .blank behind) :
    isBlank c = true ∧ front.all isBlank = true := by
  obtain ⟨hc, hb⟩ := h.of_blank
  refine ⟨hc, ?_⟩
  have hfront := List.takeWhile_append_dropWhile (p := isBlank) (l := front ++ behind)
  rw [← hb] at hfront
  rw [← List.append_cancel_right hfront]
  exact List.all_takeWhile

theorem Cuts.comment_text {c : Char} {front behind : List Char}
    (h : Cuts c (front ++ behind) .comment behind) :
    ∃ body, ¬ ['*', '/'] <:+: body ∧ (c :: front = '/' :: '*' :: (body ++ ['*', '/']) ∨
      behind = [] ∧ c :: front = '/' :: '*' :: body) := by
  obtain ⟨text, rfl, hr, rfl⟩ := h.of_comment
  obtain ⟨body, hbody, ht | ⟨rfl, hend⟩⟩ := exists_comment_body text
  · refine ⟨body, hbody, .inl ?_⟩
    have hcut : front ++ afterComment text = '*' :: (body ++ ['*', '/']) ++ afterComment text :=
      calc front ++ afterComment text
        _ = '*' :: text := hr
        _ = '*' :: (body ++ '*' :: '/' :: afterComment text) := congrArg _ ht
        _ = '*' :: (body ++ ['*', '/']) ++ afterComment text := by simp
    rw [List.append_cancel_right hcut]
  · refine ⟨text, hbody, .inr ⟨hend, ?_⟩⟩
    rw [hend, List.append_nil] at hr
    rw [hr]

theorem filler_of_comments {text : List Char} {comments ws : List Token}
    (h : tokens text = comments ++ ws) (hne : ws ≠ []) (hk : ∀ t ∈ comments, t.kind = .comment) :
    Filler (textOf comments) := by
  induction comments generalizing text with
  | nil => exact .nil
  | cons t comments ih =>
    rw [List.cons_append] at h
    obtain ⟨c, front, behind, ht, rfl, hc, hb⟩ := tokens_eq_cons h
    rw [hk t List.mem_cons_self] at hc
    have hrest := ih hb fun u hu => hk u (List.mem_cons_of_mem _ hu)
    obtain ⟨body, hbody, hf | ⟨rfl, -⟩⟩ := hc.comment_text
    · rw [textOf_cons, ht, hf]
      simpa using Filler.comment hbody hrest
    · exact absurd (List.append_eq_nil_iff.1 hb.symm).2 hne

theorem fillerToEnd_of_comments {text : List Char} {comments : List Token}
    (h : tokens text = comments) (hk : ∀ t ∈ comments, t.kind = .comment) :
    FillerToEnd (textOf comments) := by
  induction comments generalizing text with
  | nil => exact .closed .nil
  | cons t comments ih =>
    obtain ⟨c, front, behind, ht, rfl, hc, hb⟩ := tokens_eq_cons h
    rw [hk t List.mem_cons_self] at hc
    have hrest := ih hb fun u hu => hk u (List.mem_cons_of_mem _ hu)
    obtain ⟨body, hbody, hf | ⟨rfl, hf⟩⟩ := hc.comment_text
    · rw [textOf_cons, ht, hf]
      simpa using FillerToEnd.append (.comment hbody .nil) hrest
    · obtain rfl : comments = [] := hb.symm
      rw [textOf_cons, ht, hf]
      simpa using FillerToEnd.unclosed .nil hbody

/-! ## Reading tokens -/

/-- A text that is one component and nothing else. -/
def Indivisible (part : List Char) : Prop :=
  components (String.ofList part) = [String.ofList part]

/-- The text up to the gap behind the last finished component, which `done` begins with. -/
inductive Laid : List (List Char) → List Char → Prop
  | start {gap : List Char} : Filler gap → Laid [] gap
  | part {done : List (List Char)} {text part gap : List Char} : Laid done text → part ≠ [] →
      Indivisible part → Separator gap → Laid (part :: done) (text ++ (part ++ gap))

theorem Laid.append {done : List (List Char)} {text gap : List Char} (h : Laid done text)
    (hg : Filler gap) : Laid done (text ++ gap) := by
  cases h with
  | start h => exact .start (h.append hg)
  | part h hne hi hsep =>
    simpa using Laid.part h hne hi (hsep.append hg)

theorem Laid.parts {done : List (List Char)} {text : List Char} (h : Laid done text) :
    ∀ part ∈ done, part ≠ [] ∧ Indivisible part := by
  induction h with
  | start => simp
  | part _ hne hi _ ih => exact List.forall_mem_cons.2 ⟨⟨hne, hi⟩, ih⟩

theorem Laid.parted {done parts : List (List Char)} {text rest : List Char} (h : Laid done text)
    (hp : Parted parts rest) :
    ∃ lead body, Filler lead ∧ text ++ rest = lead ++ body ∧
      Parted (done.reverse ++ parts) body := by
  induction h generalizing parts rest with
  | start h => exact ⟨_, rest, h, rfl, hp⟩
  | part _ _ _ hsep ih =>
    obtain ⟨lead, body, hl, ht, hb⟩ := ih (.cons hsep hp)
    refine ⟨lead, body, hl, ?_, by simpa using hb⟩
    rw [← ht]
    simp

/-- The tokens read so far, split into those of the finished components and the gaps behind them,
those of the component that is being read, and the comments behind it. -/
structure Reading (s : Cutting) (behind part comments : List Token) : Prop where
  laid : Laid s.done (textOf behind)
  state : part.foldl Cutting.step Cutting.start = ⟨[], s.current, [], s.brackets⟩
  current : s.current = none ∧ part = [] ∨ s.current = some (textOf part) ∧ textOf part ≠ []
  kinds : ∀ t ∈ comments, t.kind = .comment
  pending : s.pending = textOf comments
  outside : comments ≠ [] → s.brackets = []

theorem Reading.start : Reading Cutting.start [] [] [] where
  laid := .start .nil
  state := rfl
  current := .inl ⟨rfl, rfl⟩
  kinds := by simp
  pending := rfl
  outside := by simp

theorem foldl_step_comments {comments : List Token} (hk : ∀ t ∈ comments, t.kind = .comment)
    (s : Cutting) (hs : comments ≠ [] → s.brackets = []) :
    comments.foldl Cutting.step s = { s with pending := s.pending ++ textOf comments } := by
  induction comments generalizing s with
  | nil => simp
  | cons t comments ih =>
    have hb : s.brackets = [] := hs (by simp)
    obtain ⟨kind, text⟩ := t
    obtain rfl : kind = .comment := hk _ List.mem_cons_self
    rw [List.foldl_cons, Cutting.step_comment hb,
      ih (fun u hu => hk u (List.mem_cons_of_mem _ hu)) { s with pending := s.pending ++ text }
        fun _ => hb]
    simp

theorem Reading.foldl_step {s : Cutting} {behind part comments : List Token}
    (h : Reading s behind part comments) :
    (part ++ comments).foldl Cutting.step Cutting.start =
      ⟨[], s.current, s.pending, s.brackets⟩ := by
  have hcomments := foldl_step_comments h.kinds ⟨[], s.current, [], s.brackets⟩ h.outside
  rw [List.foldl_append, h.state, hcomments, h.pending]
  rfl

theorem Reading.getD_current {s : Cutting} {behind part comments : List Token}
    (h : Reading s behind part comments) : s.current.getD [] = textOf part := by
  rcases h.current with ⟨hc, rfl⟩ | ⟨hc, -⟩
  · rw [hc]
    rfl
  · rw [hc]
    rfl

theorem Reading.add {s : Cutting} {behind part comments : List Token} {t : Token}
    (h : Reading s behind part comments) (ht : t.text ≠ [])
    (hadd : s.brackets ≠ [] ∨ t.kind ≠ .blank ∧ t.kind ≠ .comment) :
    Reading (s.step t) behind (part ++ comments ++ [t]) [] := by
  have htext : s.current.getD [] ++ s.pending ++ t.text = textOf (part ++ comments ++ [t]) := by
    rw [h.getD_current, h.pending]
    simp
  rw [Cutting.step_add hadd]
  constructor
  case laid => exact h.laid
  case state =>
    rw [List.foldl_append, h.foldl_step, List.foldl_cons, List.foldl_nil,
      Cutting.step_add (s := ⟨[], s.current, s.pending, s.brackets⟩) hadd]
    rfl
  case current =>
    refine .inr ⟨congrArg some htext, ?_⟩
    rw [← htext]
    simp [ht]
  case kinds => simp
  case pending => rfl
  case outside => simp

theorem Reading.comment {s : Cutting} {behind part comments : List Token} {t : Token}
    (h : Reading s behind part comments) (hs : s.brackets = []) (ht : t.kind = .comment) :
    Reading (s.step t) behind part (comments ++ [t]) := by
  obtain ⟨kind, text⟩ := t
  subst ht
  rw [Cutting.step_comment hs]
  constructor
  case laid => exact h.laid
  case state => exact h.state
  case current => exact h.current
  case kinds =>
    intro u hu
    rcases List.mem_append.1 hu with hu | hu
    · exact h.kinds u hu
    · rw [List.mem_singleton.1 hu]
  case pending => simp [h.pending]
  case outside => exact fun _ => hs

theorem exists_break {text : List Char} {comments ws : List Token} {t : Token}
    (h : tokens text = comments ++ t :: ws) (hk : ∀ u ∈ comments, u.kind = .comment)
    (ht : t.kind = .blank) :
    ∃ x rest, textOf (comments ++ t :: ws) = x :: rest ∧ isBreak x = true := by
  cases comments with
  | nil =>
    obtain ⟨c, front, behind, htext, -, hc, -⟩ := tokens_eq_cons h
    rw [ht] at hc
    refine ⟨c, front ++ textOf ws, by simp [htext], ?_⟩
    rw [isBreak, hc.blank_text.1]
    rfl
  | cons u comments =>
    obtain ⟨c, front, behind, htext, -, hc, -⟩ := tokens_eq_cons h
    rw [hk u List.mem_cons_self] at hc
    obtain ⟨_, rfl, -, -⟩ := hc.of_comment
    exact ⟨'/', front ++ textOf (comments ++ t :: ws), by simp [htext], by decide⟩

/-- A component that a blank ends stays whole. -/
theorem Reading.indivisible {s : Cutting} {text x : List Char}
    {behind part comments ws : List Token} {t : Token} (h : Reading s behind part comments)
    (hlexed : tokens text = part ++ (comments ++ t :: ws)) (hs : s.brackets = [])
    (ht : t.kind = .blank) (hx : s.current = some x) : Indivisible (textOf part) := by
  have hpart : s.current = some (textOf part) := by
    rcases h.current with ⟨hn, -⟩ | ⟨hc, -⟩
    · rw [hn] at hx
      cases hx
    · exact hc
  obtain ⟨_, _, hbreak, hisBreak⟩ := exists_break (tokens_textOf_of_append hlexed) h.kinds ht
  have hcut := cut_truncated hisBreak hlexed hbreak (s := Cutting.start) (by rw [h.state, hs])
  have hfinish : (cut Cutting.start (String.ofList (textOf part)).toList).finish =
      [textOf part] := by
    rw [String.toList_ofList, hcut, h.state, hpart]
    simp [Cutting.finish]
  exact components_of_finish hfinish (by simp)

theorem Reading.blank {s : Cutting} {text : List Char} {behind part comments ws : List Token}
    {t : Token} (h : Reading s behind part comments)
    (hlexed : tokens text = behind ++ (part ++ (comments ++ t :: ws))) (hs : s.brackets = [])
    (ht : t.kind = .blank) : Reading (s.step t) (behind ++ (part ++ (comments ++ [t]))) [] [] := by
  have hpart := tokens_textOf_of_append hlexed
  have hcomments := tokens_textOf_of_append hpart
  have hfiller : Filler (textOf comments) := filler_of_comments hcomments (by simp) h.kinds
  obtain ⟨c, front, _, htext, -, hc, -⟩ := tokens_eq_cons (tokens_textOf_of_append hcomments)
  rw [ht] at hc
  obtain ⟨hblank, hfront⟩ := hc.blank_text
  have hsep : Separator (textOf comments ++ t.text) :=
    ⟨_, c, front, hfiller, hblank, filler_of_blanks hfront, by rw [htext]⟩
  have hlaid : Laid (s.current.toList ++ s.done)
      (textOf (behind ++ (part ++ (comments ++ [t])))) := by
    rcases h.current with ⟨hn, rfl⟩ | ⟨hcur, hne⟩
    · rw [hn]
      have hgap : Filler (textOf comments ++ t.text) := by
        rw [htext]
        exact hfiller.append (.blank hblank (filler_of_blanks hfront))
      simpa using h.laid.append hgap
    · rw [hcur]
      simpa using Laid.part h.laid hne (h.indivisible hpart hs ht hcur) hsep
  obtain ⟨kind, _⟩ := t
  subst ht
  rw [Cutting.step_blank hs]
  exact ⟨hlaid, rfl, .inl ⟨rfl, rfl⟩, by simp, rfl, by simp⟩

theorem Reading.step {s : Cutting} {text : List Char} {behind part comments ws : List Token}
    {t : Token} (h : Reading s behind part comments)
    (hlexed : tokens text = behind ++ (part ++ (comments ++ t :: ws))) :
    ∃ behind' part' comments', behind' ++ (part' ++ (comments' ++ ws)) =
      behind ++ (part ++ (comments ++ t :: ws)) ∧ Reading (s.step t) behind' part' comments' := by
  have ht : t.text ≠ [] := by
    obtain ⟨_, _, _, htext, -⟩ := tokens_eq_cons (tokens_textOf_of_append
      (tokens_textOf_of_append (tokens_textOf_of_append hlexed)))
    rw [htext]
    simp
  have hadd : s.brackets ≠ [] ∨ t.kind ≠ .blank ∧ t.kind ≠ .comment →
      ∃ behind' part' comments', behind' ++ (part' ++ (comments' ++ ws)) =
        behind ++ (part ++ (comments ++ t :: ws)) ∧ Reading (s.step t) behind' part' comments' :=
    fun hadd => ⟨behind, part ++ comments ++ [t], [], by simp, h.add ht hadd⟩
  by_cases hs : s.brackets = []
  · cases hk : t.kind with
    | blank => exact ⟨_, [], [], by simp, h.blank hlexed hs hk⟩
    | comment => exact ⟨behind, part, comments ++ [t], by simp, h.comment hs hk⟩
    | _ => exact hadd (.inr (by simp [hk]))
  · exact hadd (.inl hs)

/-- The invariant holds when all tokens have been read. -/
theorem Reading.run {s : Cutting} {text : List Char} {behind part comments ws : List Token}
    (h : Reading s behind part comments)
    (hlexed : tokens text = behind ++ (part ++ (comments ++ ws))) :
    ∃ behind' part' comments', tokens text = behind' ++ (part' ++ comments') ∧
      Reading (ws.foldl Cutting.step s) behind' part' comments' := by
  induction ws generalizing s behind part comments with
  | nil => exact ⟨behind, part, comments, by simpa using hlexed, h⟩
  | cons t ws ih =>
    obtain ⟨behind', part', comments', heq, h'⟩ := h.step hlexed
    exact ih h' (hlexed.trans heq.symm)

theorem Reading.last_indivisible {s : Cutting} {text : List Char}
    {behind part comments : List Token} (h : Reading s behind part comments)
    (hlexed : tokens text = part ++ comments)
    (hx : s.current = some (textOf part)) : Indivisible (textOf (part ++ comments)) := by
  have hcut : cut Cutting.start (textOf (part ++ comments)) =
      ⟨[], s.current, s.pending, s.brackets⟩ := by
    rw [textOf_of_tokens hlexed, cut, hlexed, h.foldl_step]
  have hfinish : (cut Cutting.start (String.ofList (textOf (part ++ comments))).toList).finish =
      [textOf (part ++ comments)] := by
    rw [String.toList_ofList, hcut, hx, h.pending, textOf_append]
    rfl
  exact components_of_finish hfinish (by simp)

/-- The components of a text, with the gaps around them. -/
structure Cut (text : List Char) (parts : List (List Char)) : Prop where
  ne_nil : parts ≠ []
  whole : ∀ part ∈ parts, part ≠ [] ∧ Indivisible part
  parted : ∃ lead body, Filler lead ∧ text = lead ++ body ∧ Parted parts body

theorem Laid.cut {done parts : List (List Char)} {text rest : List Char} (h : Laid done text)
    (hparts : ∀ part ∈ parts, part ≠ [] ∧ Indivisible part) (hp : Parted parts rest) :
    Cut (text ++ rest) (done.reverse ++ parts) where
  ne_nil := by cases hp <;> simp
  whole part hm := by
    rcases List.mem_append.1 hm with hm | hm
    · exact h.parts part (List.mem_reverse.1 hm)
    · exact hparts part hm
  parted := h.parted hp

theorem Laid.cut_gap {done : List (List Char)} {text gap : List Char} (h : Laid done text)
    (hg : FillerToEnd gap) :
    done.reverse = [] ∧ FillerToEnd (text ++ gap) ∨ Cut (text ++ gap) done.reverse := by
  cases h with
  | start h => exact .inl ⟨rfl, .append h hg⟩
  | @part done text part gap' h hne hi hsep =>
    have hlast : Parted [part] (part ++ (gap' ++ gap)) := .last (hsep.lastGap hg)
    have hcut := h.cut (by simpa using ⟨hne, hi⟩) hlast
    exact .inr (by simpa using hcut)

/-- A text is blanks and comments, or it is cut into components with gaps around them. -/
theorem finish_cut_parts (text : List Char) :
    (cut Cutting.start text).finish = [] ∧ FillerToEnd text ∨
      Cut text (cut Cutting.start text).finish := by
  obtain ⟨behind, part, comments, hlexed, h⟩ :
      ∃ behind part comments, tokens text = behind ++ (part ++ comments) ∧
        Reading (cut Cutting.start text) behind part comments := Reading.start.run rfl
  have htext : text = textOf behind ++ (textOf part ++ textOf comments) := by
    rw [← textOf_of_tokens hlexed]
    simp
  have hend := tokens_textOf_of_append hlexed
  generalize cut Cutting.start text = s at h
  rcases h.current with ⟨hn, rfl⟩ | ⟨hc, hne⟩
  · have hfinish : s.finish = s.done.reverse := by simp [Cutting.finish, hn]
    have hgap := h.laid.cut_gap (fillerToEnd_of_comments hend h.kinds)
    rwa [hfinish, htext]
  · have hfinish : s.finish = s.done.reverse ++ [textOf (part ++ comments)] := by
      simp [Cutting.finish, hc, h.pending]
    have hlast : Parted [textOf (part ++ comments)] (textOf (part ++ comments) ++ []) :=
      .last (.inl rfl)
    have hwhole : ∀ p ∈ [textOf (part ++ comments)], p ≠ [] ∧ Indivisible p := by
      intro p hp
      rw [List.mem_singleton.1 hp]
      refine ⟨?_, h.last_indivisible hend hc⟩
      rw [textOf_append]
      exact List.append_ne_nil_of_left_ne_nil hne _
    have hcut := h.laid.cut hwhole hlast
    rw [List.append_nil, textOf_append, ← htext] at hcut
    rw [hfinish, textOf_append]
    exact .inr hcut

/-- Cutting loses nothing and leaves no separator inside a component. A text gives one empty piece
if it consists of blanks and comments; otherwise it is its components with gaps around them, none of
them empty. Each piece that is cut again stays whole. -/
theorem components_parting (value : String) :
    components value ≠ [] ∧
      (components value = [""] ↔ FillerToEnd value.toList) ∧
      (components value ≠ [""] → Cut value.toList ((components value).map String.toList)) ∧
      ∀ part ∈ components value, components part = [part] := by
  rcases finish_cut_parts value.toList with ⟨hfinish, hfill⟩ | hcut
  · have hv : components value = [""] := by rw [components, ← cut, hfinish]
    rw [hv]
    refine ⟨by simp, by simpa using hfill, by simp, fun part hp => ?_⟩
    rw [List.mem_singleton.1 hp]
    rfl
  · have hv : components value = (cut Cutting.start value.toList).finish.map String.ofList :=
      components_of_finish rfl hcut.ne_nil
    have hne : components value ≠ [""] := by
      intro he
      have hm : "" ∈ components value := by simp [he]
      rw [hv] at hm
      obtain ⟨part, hpart, hp⟩ := List.mem_map.1 hm
      exact (hcut.whole part hpart).1 (by simpa using hp)
    have hparts : (components value).map String.toList =
        (cut Cutting.start value.toList).finish := by
      rw [hv, List.map_map]
      simp
    refine ⟨by simpa [hv] using hcut.ne_nil, iff_of_false hne fun hfill => ?_,
      fun _ => hparts ▸ hcut, fun part hp => ?_⟩
    · exact hcut.ne_nil hfill.finish_cut
    · rw [hv] at hp
      obtain ⟨part, hpart, rfl⟩ := List.mem_map.1 hp
      exact (hcut.whole part hpart).2

/-- A backslash in front of a newline, a closed comment in a gap, brackets, and a comment that runs
to the end. -/
theorem hanging_parting :
    components "1px\\\n /* c */ f(a b)/*d" ≠ [""] ∧
      Cut "1px\\\n /* c */ f(a b)/*d".toList ["1px\\".toList, "f(a b)/*d".toList] := by
  have hv : components "1px\\\n /* c */ f(a b)/*d" = ["1px\\", "f(a b)/*d"] := by decide
  have hne : components "1px\\\n /* c */ f(a b)/*d" ≠ [""] := by
    rw [hv]
    decide
  have hcut := (components_parting "1px\\\n /* c */ f(a b)/*d").2.2.1 hne
  rw [hv] at hcut
  exact ⟨hne, hcut⟩

end AtomicCss.Css
