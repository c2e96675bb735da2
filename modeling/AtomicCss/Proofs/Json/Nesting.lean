import AtomicCss.Proofs.Json.Text

/-!
# Nested objects as they are read

An object without blanks is read member by member, whatever is done with a member
(`parse_compactObject`). A value made of nulls, strings and objects is read as it stands if no more
brackets are open at a time than the limit allows, and is malformed if there are more
(`Plain.gives_readValue`).
-/

namespace AtomicCss.Json

mutual

/-- The number of brackets that are open at a time in the text of a value. -/
def depth : Json → Nat
  | array items => depthItems items + 1
  | object members => depthMembers members + 1
  | _ => 0

/-- The greatest depth of the items of an array. -/
def depthItems : List Json → Nat
  | [] => 0
  | v :: rest => max v.depth (depthItems rest)

/-- The greatest depth of the members of an object. -/
def depthMembers : List (String × Json) → Nat
  | [] => 0
  | (_, v) :: rest => max v.depth (depthMembers rest)

end

theorem depthMembers_le_iff {members : List (String × Json)} {n : Nat} :
    depthMembers members ≤ n ↔ ∀ m ∈ members, m.2.depth ≤ n := by
  induction members with
  | nil => simp [depthMembers]
  | cons m rest ih => rw [depthMembers, Nat.max_le, ih, List.forall_mem_cons]

/-- A value made of nulls, strings and objects. -/
inductive Plain : Json → Prop
  | null : Plain .null
  | string (s : String) : Plain (.string s)
  | object {members : List (String × Json)} (h : ∀ m ∈ members, Plain m.2) :
      Plain (.object members)

/-! ## Objects without blanks -/

theorem toList_renderMembers (members : List (String × Json)) :
    (renderMembers members).toList =
      [','].intercalate (members.map fun m => (compactMember m.1 m.2.render.toList).written) := by
  have hmember : ∀ m : String × Json, (quote m.1 ++ ":" ++ m.2.render).toList =
      (compactMember m.1 m.2.render.toList).written := by
    intro m
    rw [compactMember_written, String.toList_append, String.toList_append, toList_quote,
      List.append_assoc]
    rfl
  induction members with
  | nil => rfl
  | cons m rest ih =>
    cases rest with
    | nil =>
      rw [List.map_singleton, List.intercalate_singleton]
      exact hmember m
    | cons n rest =>
      show (quote m.1 ++ ":" ++ m.2.render ++ "," ++ renderMembers (n :: rest)).toList = _
      rw [String.toList_append, String.toList_append, ih, hmember, List.map_cons, List.map_cons,
        List.map_cons, List.intercalate_cons_cons]
      rfl

theorem toList_render_object (members : List (String × Json)) :
    (object members).render.toList =
      objectText [] (members.map fun m => compactMember m.1 m.2.render.toList) := by
  show ("\x7b" ++ renderMembers members ++ "\x7d").toList = _
  rw [String.toList_append, String.toList_append, toList_renderMembers, objectText, List.map_map,
    List.append_assoc]
  rfl

/-- The result if the condition holds; the text is malformed otherwise. -/
def okIf {α : Type} (fits : Prop) [Decidable fits] (x : α) : Except Failure α :=
  if fits then .ok x else .error .malformed

theorem okIf_pos {α : Type} {fits : Prop} [Decidable fits] (h : fits) (x : α) :
    okIf fits x = .ok x := if_pos h

theorem okIf_neg {α : Type} {fits : Prop} [Decidable fits] (h : ¬ fits) (x : α) :
    okIf fits x = .error .malformed := if_neg h

theorem okIf_congr {α : Type} {fits fits' : Prop} [Decidable fits] [Decidable fits']
    (h : fits ↔ fits') (x : α) : okIf fits x = okIf fits' x := if_congr h rfl rfl

section members

variable {α β σ : Type} {read : Reader α}

/-- Reads the value of a member and puts it to what has been read so far. -/
def readInto (put : σ → String → α → σ) (read : Reader α) (s : σ) (name : String) : Reader σ :=
  fun t => (afterColon read t).map fun r => (put s name r.1, r.2)

/-- What has been read behind a member whose value has this text. -/
def putTaken (put : σ → String → α → σ) (read : Reader α) (s : σ) (m : Member) :
    Except Failure σ :=
  (taken read m.value.text).map (put s m.name)

theorem readInto_compact (put : σ → String → α → σ) {t : List Char} {out : Except Failure α}
    (h : Gives read t out) (s : σ) (name : String) {rest : List Char} (hrest : Stops rest) :
    readInto put read s name (':' :: (t ++ rest)) =
      (putTaken put read s (compactMember name t)).map fun x => (x, rest) := by
  have hvalue := h.afterColon blanks_nil blanks_nil hrest
  rw [List.nil_append, List.nil_append] at hvalue
  have htaken : putTaken put read s (compactMember name t) = out.map (put s name) :=
    congrArg (Except.map (put s name)) h.taken_eq
  rw [readInto, hvalue, htaken]
  cases out <;> rfl

variable (spell : β → List Char) (value : β → α) (fits : β → Prop) [DecidablePred fits]
  {members : List (String × β)}

theorem foldlM_putTaken (put : σ → String → α → σ)
    (hgives : ∀ m ∈ members, Gives read (spell m.2) (okIf (fits m.2) (value m.2))) (s : σ) :
    (members.map fun m => compactMember m.1 (spell m.2)).foldlM (putTaken put read) s =
      okIf (∀ m ∈ members, fits m.2) (members.foldl (fun s m => put s m.1 (value m.2)) s) := by
  induction members generalizing s with
  | nil => exact (okIf_pos (by simp) s).symm
  | cons m rest ih =>
    obtain ⟨hm, hrest⟩ := List.forall_mem_cons.1 hgives
    have hfirst : putTaken put read s (compactMember m.1 (spell m.2)) =
        (okIf (fits m.2) (value m.2)).map (put s m.1) :=
      congrArg (Except.map (put s m.1)) hm.taken_eq
    rw [List.map_cons, List.foldlM_cons, hfirst]
    by_cases hfits : fits m.2
    · rw [okIf_pos hfits]
      refine (ih hrest (put s m.1 (value m.2))).trans ?_
      simp only [okIf, List.forall_mem_cons, hfits, true_and, List.foldl_cons]
    · rw [okIf_neg hfits, okIf_neg fun h => hfits (h m List.mem_cons_self)]
      rfl

theorem readMembers_compact (put : σ → String → α → σ)
    (hgives : ∀ m ∈ members, Gives read (spell m.2) (okIf (fits m.2) (value m.2)))
    {steps : Nat} (hsteps : members.length < steps) (s : σ) (rest : List Char) :
    readMembers (readInto put read) steps true s
        ([','].intercalate ((members.map fun m => compactMember m.1 (spell m.2)).map Member.written)
          ++ '}' :: rest) =
      (okIf (∀ m ∈ members, fits m.2)
        (members.foldl (fun s m => put s m.1 (value m.2)) s)).map fun x => (x, rest) := by
  have hlabels : ∀ m ∈ members.map fun m => compactMember m.1 (spell m.2), m.Labelled := by
    intro m hm
    obtain ⟨p, -, rfl⟩ := List.mem_map.1 hm
    exact compactMember_labelled _ _
  have hread : ∀ m ∈ members.map fun m => compactMember m.1 (spell m.2), ∀ s rest, Stops rest →
      readInto put read s m.name
          (m.label.behind ++ ':' :: (m.value.before ++ (m.value.text ++ rest))) =
        (putTaken put read s m).map fun x => (x, rest) := by
    intro m hm s rest hrest
    obtain ⟨p, hp, rfl⟩ := List.mem_map.1 hm
    exact readInto_compact put (hgives p hp) s p.1 hrest
  have hlisted := readMembers_listed hlabels hread (by rwa [List.length_map]) true blanks_nil s rest
  rw [List.nil_append, ← intercalate_eq_listed] at hlisted
  rw [hlisted, foldlM_putTaken spell value fits put hgives]

theorem objectValue_blanks {steps : Nat} {member : σ → String → Reader σ} {start : σ}
    {w : List Char} (h : Blanks w) (t : List Char) :
    objectValue steps member start (w ++ t) = objectValue steps member start t := by
  unfold objectValue
  rw [skipBlanks_append h]

theorem gives_objectValue (put : σ → String → α → σ)
    (hgives : ∀ m ∈ members, Gives read (spell m.2) (okIf (fits m.2) (value m.2)))
    {steps : Nat} (hsteps : members.length < steps) (start : σ) :
    Gives (objectValue steps (readInto put read) start)
      (objectText [] (members.map fun m => compactMember m.1 (spell m.2)))
      (okIf (∀ m ∈ members, fits m.2)
        (members.foldl (fun s m => put s m.1 (value m.2)) start)) := by
  refine Gives.of_blanks objectValue_blanks fun behind _ => ?_
  rw [objectText, List.cons_append, List.append_assoc, List.append_assoc, List.singleton_append]
  exact readMembers_compact spell value fits put hgives hsteps start behind

theorem parse_compactObject (read : (steps : Nat) → Reader α) (put : σ → String → α → σ)
    {text : String}
    (htext : text.toList = objectText [] (members.map fun m => compactMember m.1 (spell m.2)))
    (hgives : ∀ m ∈ members, ∀ steps, (spell m.2).length < steps →
      Gives (read steps) (spell m.2) (okIf (fits m.2) (value m.2)))
    (start : σ) :
    parse (fun steps => objectValue steps (readInto put (read steps)) start) text =
      okIf (∀ m ∈ members, fits m.2)
        (members.foldl (fun s m => put s m.1 (value m.2)) start) := by
  have hlength := length_lt_objectText [] (members.map fun m => compactMember m.1 (spell m.2))
  rw [← htext, List.length_map] at hlength
  obtain ⟨hcount, hshort⟩ := hlength
  have hread := gives_objectValue spell value fits put
    (fun m hm => hgives m hm _ (Nat.lt_succ_of_lt (hshort _ (List.mem_map_of_mem hm))))
    (Nat.lt_succ_of_lt hcount) start
  rw [← htext] at hread
  exact parse_of_gives blanks_nil blanks_nil (List.append_nil _).symm hread

end members

/-! ## Values inside open brackets -/

theorem readValue_blanks (steps opened : Nat) {w : List Char} (h : Blanks w) (t : List Char) :
    readValue steps opened (w ++ t) = readValue steps opened t := by
  cases steps with
  | zero => rfl
  | succ n =>
    unfold readValue
    rw [skipBlanks_append h]

theorem foldl_members (members more : List (String × Json)) :
    members.foldl (fun ms m => ms ++ [(m.1, m.2)]) more = more ++ members := by
  induction members generalizing more with
  | nil => exact (List.append_nil more).symm
  | cons m rest ih => rw [List.foldl_cons, ih, List.append_assoc, List.singleton_append]

/-- A value of nulls, strings and objects is read as it stands if its brackets, with those that are
open already, are not more than the limit. -/
theorem Plain.gives_readValue {v : Json} (h : Plain v) {steps opened : Nat}
    (hsteps : v.render.toList.length < steps) (hopened : opened ≤ depthLimit) :
    Gives (readValue steps opened) v.render.toList (okIf (opened + v.depth ≤ depthLimit) v) := by
  refine Gives.of_blanks (readValue_blanks steps opened) fun behind hbehind => ?_
  induction h generalizing steps opened behind with
  | null =>
    obtain ⟨n, rfl⟩ := Nat.exists_eq_add_of_lt hsteps
    have hfits : opened + Json.null.depth ≤ depthLimit := hopened
    rw [okIf_pos hfits]
    rfl
  | string s =>
    obtain ⟨n, rfl⟩ := Nat.exists_eq_add_of_lt hsteps
    obtain ⟨more, htext, hread⟩ := (spells_escapeChar.stringText s).read
    have hfits : opened + (Json.string s).depth ≤ depthLimit := hopened
    rw [okIf_pos hfits]
    show readValue _ _ ((quote s).toList ++ behind) = _
    rw [toList_quote, htext]
    show (readString (more ++ behind)).map _ = _
    rw [hread]
    rfl
  | @object members hplain ih =>
    obtain ⟨n, rfl⟩ : ∃ n, steps = n + 1 := ⟨steps - 1, by omega⟩
    rw [toList_render_object] at hsteps ⊢
    obtain ⟨hcount, hshort⟩ := length_lt_objectText []
      (members.map fun m => compactMember m.1 m.2.render.toList)
    rw [List.length_map] at hcount
    rw [objectText, List.cons_append, List.append_assoc, List.append_assoc, List.singleton_append]
    show (if opened < depthLimit then
      (readMembers (readInto (fun ms name v => ms ++ [(name, v)]) (readValue n (opened + 1))) n true
        [] _).map _ else .error .malformed) = _
    by_cases hroom : opened < depthLimit
    · have hgives : ∀ m ∈ members, Gives (readValue n (opened + 1)) m.2.render.toList
          (okIf (opened + 1 + m.2.depth ≤ depthLimit) m.2) := by
        intro m hm
        have hlength := hshort _ (List.mem_map_of_mem hm)
        refine Gives.of_blanks (readValue_blanks n (opened + 1)) fun behind hbehind =>
          ih m hm ?_ hroom behind hbehind
        exact Nat.lt_of_lt_of_le hlength (Nat.le_of_lt_succ hsteps)
      have hdepth : opened + (Json.object members).depth ≤ depthLimit ↔
          ∀ m ∈ members, opened + 1 + m.2.depth ≤ depthLimit := by
        have hle : opened + (depthMembers members + 1) ≤ depthLimit ↔
            depthMembers members ≤ depthLimit - (opened + 1) := by omega
        rw [depth, hle, depthMembers_le_iff]
        exact forall₂_congr fun m _ => by omega
      have hread := readMembers_compact (fun v => v.render.toList) (fun v => v)
        (fun v => opened + 1 + v.depth ≤ depthLimit) (fun ms name v => ms ++ [(name, v)]) hgives
        (Nat.lt_of_lt_of_le hcount (Nat.le_of_lt_succ hsteps)) [] behind
      rw [if_pos hroom, List.nil_append, hread, foldl_members, List.nil_append]
      rw [okIf_congr hdepth]
      unfold okIf
      split <;> rfl
    · rw [if_neg hroom, okIf_neg]
      · rfl
      · rw [depth]
        omega

end AtomicCss.Json
