import AtomicCss.Proofs.Engine.Noop
import AtomicCss.Proofs.Engine.Rejecting
import AtomicCss.Proofs.Engine.Variables

/-!
# Three renderers of declarations

A declaration is written as a style attribute, as a stop of an animation, and as the rules of its
classes. All of them write the same entries, only with other texts around them: a stop has the style
attribute between its braces (`Keyframes.body_eq_inline`), and where no class is met twice, each
entry of the attribute stands in the rule of its class (`renderers_agree`).
-/

namespace AtomicCss

/-! ## Style attributes and stops -/

theorem join_blanks (t : String) (ts : List String) :
    String.join ((t :: ts).map (" " ++ ·)) = " " ++ " ".intercalate (t :: ts) := by
  induction ts generalizing t with
  | nil => rw [List.map_singleton, String.join_cons, String.join_nil, String.append_empty,
      String.intercalate_singleton]
  | cons u ts ih =>
    rw [List.map_cons, String.join_cons, ih, String.intercalate_cons_cons, String.append_assoc,
      String.append_assoc]

theorem Rule.entry_ne_empty (name : String) (value : Value) : Rule.entry name value ≠ "" := by
  intro h
  exact absurd (String.append_eq_empty_iff.1 h).2 (by decide)

theorem Keyframes.body_eq_inline (d : Declaration) :
    Keyframes.body d = if Rule.inline d = "" then "" else " " ++ Rule.inline d := by
  rw [Keyframes.body, Rule.inline]
  cases d.entries.filter fun e => e.2.isScalar with
  | nil => rfl
  | cons e rest =>
    have hne : " ".intercalate ((e :: rest).map fun e => Rule.entry e.1 e.2) ≠ "" := by
      cases rest with
      | nil =>
        rw [List.map_singleton, String.intercalate_singleton]
        exact Rule.entry_ne_empty e.1 e.2
      | cons e' rest =>
        rw [List.map_cons, List.map_cons, String.intercalate_cons_cons, String.append_assoc]
        exact fun h => Rule.entry_ne_empty e.1 e.2 (String.append_eq_empty_iff.1 h).1
    have hjoin := join_blanks (Rule.entry e.1 e.2) (rest.map fun e => Rule.entry e.1 e.2)
    rw [List.map_cons, List.map_map] at hjoin
    rw [if_neg hne]
    exact hjoin

theorem Keyframes.block_eq_inline (stop : String) (d : Declaration) :
    Keyframes.block stop d =
      if Rule.inline d = "" then " " ++ stop ++ " \x7b \x7d"
      else " " ++ stop ++ " \x7b " ++ Rule.inline d ++ " \x7d" := by
  rw [Keyframes.block, body_eq_inline]
  split
  · rw [String.append_empty, String.append_assoc]
    rfl
  · have hopening : " \x7b " = " \x7b" ++ " " := rfl
    rw [hopening]
    simp only [String.append_assoc]

theorem Keyframes.rule_eq_inline (k : Keyframes) (name : String) :
    k.rule name = "@keyframes " ++ name ++ " \x7b" ++
      String.join (k.stops.entries.map fun s =>
        if Rule.inline s.2 = "" then " " ++ s.1 ++ " \x7b \x7d"
        else " " ++ s.1 ++ " \x7b " ++ Rule.inline s.2 ++ " \x7d") ++ " \x7d" := by
  rw [Keyframes.rule]
  simp only [block_eq_inline]

theorem Keyframes.rule_single (stop : String) (d : Declaration) (name : String) :
    (Keyframes.ofList [(stop, d)]).rule name =
      if Rule.inline d = "" then "@keyframes " ++ name ++ " \x7b " ++ stop ++ " \x7b \x7d \x7d"
      else "@keyframes " ++ name ++ " \x7b " ++ stop ++ " \x7b " ++ Rule.inline d ++
        " \x7d \x7d" := by
  have hblock : (Keyframes.ofList [(stop, d)]).rule name =
      "@keyframes " ++ name ++ " \x7b" ++ Keyframes.block stop d ++ " \x7d" := by
    show _ ++ String.join [Keyframes.block stop d] ++ _ = _
    rw [String.join_cons, String.join_nil, String.append_empty]
  have hopening : " \x7b " = " \x7b" ++ " " := rfl
  have hclosing : " \x7d \x7d" = " \x7d" ++ " \x7d" := rfl
  have hnothing : " \x7b \x7d \x7d" = " \x7b \x7d" ++ " \x7d" := rfl
  rw [hblock, block_eq_inline]
  split
  · rw [hopening, hnothing]
    simp only [String.append_assoc]
  · rw [hopening, hclosing]
    simp only [String.append_assoc]

namespace Engine

theorem inlineStyle_of_empty {e : Engine} (h : e.options.pipeline = .empty) (d : Declaration) :
    e.inlineStyle d = Rule.inline d := by
  rw [inlineStyle, transform, h, Pipeline.run_empty]

/-! ## Rules of classes -/

theorem fresh_eq_self {α : Type} {cls : α → String} {known : OrderedSet} {xs : List α}
    (hnew : ∀ x ∈ xs, cls x ∉ known) (hdistinct : (xs.map cls).Nodup) :
    fresh cls known xs = xs := by
  induction xs generalizing known with
  | nil => rfl
  | cons x rest ih =>
    obtain ⟨hx, hrest⟩ := List.forall_mem_cons.1 hnew
    obtain ⟨hother, hdistinct⟩ := List.nodup_cons.1 hdistinct
    rw [fresh, if_neg hx, ih (fun y hy hmem => ?_) hdistinct]
    rcases OrderedSet.mem_insert.1 hmem with hmem | he
    · exact hrest y hy hmem
    · exact hother (he ▸ List.mem_map_of_mem hy)

/-- The entries of the transformed declaration that are not absent. -/
def shown (p : Pipeline) (d : Declaration) : List (String × Value) :=
  (p.run d).entries.filter fun entry => !entry.2.isNull

/-- An entry of a declaration as compilation meets it. -/
def ofEntry (entry : String × Value) : Occurrence := ⟨none, entry.1, entry.2⟩

theorem rule_ofEntry (entry : String × Value) :
    (ofEntry entry).rule =
      "." ++ classId entry.1 entry.2 ++ " \x7b " ++ Rule.entry entry.1 entry.2 ++ " \x7d" := by
  rw [Occurrence.rule, Rule.ofClass, ofEntry, suffix, String.append_empty]
  rfl

section shown

variable {p : Pipeline} {d : Declaration}

theorem visits_of_blockFree (h : BlockFree (p.run d).entries) :
    visits p d = ((shown p d).map ofEntry).map .entry := by
  rw [blockFree_iff] at h
  rw [visits, shown]
  generalize (p.run d).entries = entries at h
  induction entries with
  | nil => rfl
  | cons entry rest ih =>
    obtain ⟨hentry, hrest⟩ := List.forall_mem_cons.1 h
    rw [List.flatMap_cons, ih hrest, visitOuter, hentry]
    cases hn : entry.2.isNull with
    | true => rw [List.filter_cons_of_neg (by simp [hn])]; rfl
    | false => rw [List.filter_cons_of_pos (by simp [hn])]; rfl

theorem entries_ofList_assigned (h : BlockFree (p.run d).entries) :
    (ClassMap.ofList (assigned p d)).entries =
      (shown p d).map fun entry => (entry.1, classId entry.1 entry.2) := by
  have hassigned : assigned p d =
      (shown p d).map fun entry => (entry.1, classId entry.1 entry.2) := by
    rw [assigned_of_not_block h, assignedIn_none, List.map_map]
    rfl
  have hnames : ((assigned p d).map Prod.fst).Nodup := by
    rw [hassigned, List.map_map]
    exact (List.filter_sublist.map Prod.fst).nodup (p.run d).nodup_entries
  rw [← hassigned]
  exact Table.entries_ofList_of_nodup hnames

end shown

theorem blockFree_of_isNull_or_isScalar {entries : List (String × Value)}
    (h : ∀ entry ∈ entries, entry.2.isNull = true ∨ entry.2.isScalar = true) :
    BlockFree entries := by
  intro s b hmem
  rcases h _ hmem with hn | hs
  · cases hn
  · cases hs

theorem inline_of_isNull_or_isScalar {d : Declaration}
    (h : ∀ entry ∈ d.entries, entry.2.isNull = true ∨ entry.2.isScalar = true) :
    Rule.inline d = " ".intercalate
      ((d.entries.filter fun entry => !entry.2.isNull).map fun entry =>
        Rule.entry entry.1 entry.2) := by
  have hfilter : (d.entries.filter fun entry => entry.2.isScalar) =
      d.entries.filter fun entry => !entry.2.isNull := by
    refine List.filter_congr fun entry hentry => ?_
    cases hn : entry.2.isNull with
    | true => exact Value.isScalar_eq_false_of_isNull hn
    | false => exact (h entry hentry).resolve_left (by simp [hn])
  rw [Rule.inline, hfilter]

section compile

variable {p : Pipeline} {d : Declaration}

/-- What an empty engine writes of a declaration without blocks if all classes are different: one
rule for each entry. -/
theorem compile_of_blockFree (h : BlockFree (p.run d).entries)
    (hids : ((shown p d).map fun entry => classId entry.1 entry.2).Nodup) :
    ∃ m rules, (compile d (synthetic ⟨.inject, p⟩)).result = .ok m ∧
      (compile d (synthetic ⟨.inject, p⟩)).engine.sheet = .synthetic rules ∧
      m = ClassMap.ofList (assigned p d) ∧
      rules.items = (shown p d).map fun entry => (ofEntry entry).rule := by
  have hvisits := visits_of_blockFree h
  have hmode : (synthetic ⟨.inject, p⟩).options.mode ≠ .noop := nofun
  have hbacked := backed_empty (e := synthetic ⟨.inject, p⟩) rfl
  obtain ⟨⟨m, hok⟩, rules, hsheet, hitems⟩ := hbacked.compile hmode (d := d)
    (hvisits ▸ not_nests_entries _)
  have hmet : entered (visits p d) = (shown p d).map ofEntry := by
    rw [hvisits, entered_entries]
  have hnew : fresh Occurrence.cls OrderedSet.empty ((shown p d).map ofEntry) =
      (shown p d).map ofEntry := by
    refine fresh_eq_self (fun o _ => OrderedSet.not_mem_empty o.cls) ?_
    rw [List.map_map]
    exact hids
  have hwritten : rules.items =
      (fresh Occurrence.cls OrderedSet.empty (entered (visits p d))).map Occurrence.rule :=
    hitems
  refine ⟨m, rules, hok, hsheet, compile_ok_eq hmode hok, ?_⟩
  rw [hwritten, hmet, hnew, List.map_map]
  rfl

end compile

/-- The three renderers of declarations agree. In an animation every stop has the declaration as an
engine without transforms shows it in a style attribute, between blanks, and nothing if the attribute
is empty; the stops follow each other in their order. Whatever the transforms are: if they leave only
absent values and scalars, and the classes of those that are not absent are all different, then an
empty engine compiles the declaration and writes the rules of these classes, in the order of the
class map and each with one part of the style attribute, which is the list of these parts with blanks
between them. -/
theorem renderers_agree :
    (∀ e : Engine, e.options.pipeline = .empty →
      (∀ (stop : String) (d : Declaration) (name : String),
        (Keyframes.ofList [(stop, d)]).rule name =
          if e.inlineStyle d = "" then "@keyframes " ++ name ++ " \x7b " ++ stop ++ " \x7b \x7d \x7d"
          else "@keyframes " ++ name ++ " \x7b " ++ stop ++ " \x7b " ++ e.inlineStyle d ++
            " \x7d \x7d") ∧
      ∀ (k : Keyframes) (name : String),
        k.rule name = "@keyframes " ++ name ++ " \x7b" ++
          String.join (k.stops.entries.map fun s =>
            if e.inlineStyle s.2 = "" then " " ++ s.1 ++ " \x7b \x7d"
            else " " ++ s.1 ++ " \x7b " ++ e.inlineStyle s.2 ++ " \x7d") ++ " \x7d") ∧
    ∀ (p : Pipeline) (d : Declaration),
      (∀ entry ∈ (p.run d).entries, entry.2.isNull = true ∨ entry.2.isScalar = true) →
      ((shown p d).map fun entry => classId entry.1 entry.2).Nodup →
      ∃ m rules, (compile d (synthetic ⟨.inject, p⟩)).result = .ok m ∧
        (compile d (synthetic ⟨.inject, p⟩)).engine.sheet = .synthetic rules ∧
        m.entries = (shown p d).map (fun entry => (entry.1, classId entry.1 entry.2)) ∧
        rules.items = List.zipWith (fun id part => "." ++ id ++ " \x7b " ++ part ++ " \x7d")
          m.classes ((shown p d).map fun entry => Rule.entry entry.1 entry.2) ∧
        (synthetic ⟨.inject, p⟩).inlineStyle d =
          " ".intercalate ((shown p d).map fun entry => Rule.entry entry.1 entry.2) := by
  refine ⟨fun e he => ?_, fun p d hplain hids => ?_⟩
  · simp only [inlineStyle_of_empty he]
    exact ⟨Keyframes.rule_single, Keyframes.rule_eq_inline⟩
  · have hfree := blockFree_of_isNull_or_isScalar hplain
    obtain ⟨m, rules, hok, hsheet, rfl, hrules⟩ := compile_of_blockFree hfree hids
    have hm := entries_ofList_assigned hfree
    refine ⟨_, rules, hok, hsheet, hm, ?_, inline_of_isNull_or_isScalar hplain⟩
    rw [hrules, ClassMap.classes, hm, List.map_map, List.zipWith_map, List.zipWith_self]
    exact List.map_congr_left fun entry _ => rule_ofEntry entry

/-- A shorthand, a length, an empty text, a pseudo-selector with a text, and values that are absent. -/
def mingled : Declaration :=
  Table.ofList [("color", .null), ("margin", .text "1px 2px"), ("opacity", .number .nan),
    ("width", .ofInt 3), ("content", .text ""), (":hover", .text "red")]

theorem renderers_agree_mingled :
    (synthetic Options.standard).options.pipeline = .empty ∧
    (Keyframes.ofList [("50%", mingled)]).rule "a1" =
      "@keyframes a1 \x7b 50% \x7b margin: 1px 2px; width: 3; content: ; :hover: red; \x7d \x7d" ∧
    (∀ entry ∈ (Pipeline.standard.run mingled).entries,
      entry.2.isNull = true ∨ entry.2.isScalar = true) ∧
    ((shown Pipeline.standard mingled).map fun entry => classId entry.1 entry.2).Nodup ∧
    ∃ m rules, (compile mingled (synthetic ⟨.inject, .standard⟩)).result = .ok m ∧
      (compile mingled (synthetic ⟨.inject, .standard⟩)).engine.sheet = .synthetic rules ∧
      rules.items = List.zipWith (fun id part => "." ++ id ++ " \x7b " ++ part ++ " \x7d") m.classes
        ["width: 3px;", "content: ;", ":hover: red;", "margin-top: 1px;", "margin-right: 2px;",
          "margin-bottom: 1px;", "margin-left: 2px;"] := by
  have hplain : ∀ entry ∈ (Pipeline.standard.run mingled).entries,
      entry.2.isNull = true ∨ entry.2.isScalar = true := by decide +kernel
  have hids : ((shown Pipeline.standard mingled).map fun entry =>
      classId entry.1 entry.2).Nodup := by decide +kernel
  have hparts : ((shown Pipeline.standard mingled).map fun entry => Rule.entry entry.1 entry.2) =
      ["width: 3px;", "content: ;", ":hover: red;", "margin-top: 1px;", "margin-right: 2px;",
        "margin-bottom: 1px;", "margin-left: 2px;"] := by decide +kernel
  obtain ⟨hstops, hrules⟩ := renderers_agree
  obtain ⟨m, rules, hok, hsheet, -, hitems, -⟩ := hrules _ mingled hplain hids
  refine ⟨rfl, ?_, hplain, hids, m, rules, hok, hsheet, hitems.trans (congrArg _ hparts)⟩
  exact ((hstops (synthetic Options.standard) rfl).1 _ _ _).trans (by decide +kernel)

end Engine

end AtomicCss
