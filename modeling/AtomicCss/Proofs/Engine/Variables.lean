import AtomicCss.Proofs.Declaration.PropertyName
import AtomicCss.Proofs.Engine.Leader
import AtomicCss.Proofs.Engine.Result
import AtomicCss.Proofs.Theme.Naming

/-!
# Theme variables as declarations

A declaration of theme variables is written like any other: every property name is brought into its
style sheet form, also that of a custom property. So the names that a theme writes by itself are kept
exactly if they have no upper-case letter (`css_eq_self_iff`). Of a declaration compiled on an empty
sheet the rules of the entries are written whose classes are not known when they are met (`fresh`,
`Backed.walk`).
-/

namespace AtomicCss

/-! ## Texts -/

theorem length_intercalate (sep : List Char) (ps : List (List Char)) :
    (sep.intercalate ps).length =
      (ps.map List.length).sum + sep.length * (ps.length - 1) := by
  induction ps with
  | nil => rfl
  | cons p ps ih =>
    cases ps with
    | nil => simp
    | cons q ps =>
      rw [List.intercalate_cons_cons, List.length_append, List.length_append, ih]
      simp only [List.map_cons, List.sum_cons, List.length_cons, Nat.add_sub_cancel,
        Nat.mul_add_one]
      omega

namespace Theme

theorem declaration_entries (t : Theme) :
    t.declaration.entries = t.entries.map fun v => (v.1, .text v.2) := by
  have hself : Table.ofList t.entries = t.table := t.table.ofList_entries
  rw [declaration, Table.entries_ofList_map fun _ value => Value.text value, hself]
  rfl

/-- The variables with their names changed, as an inline style. -/
def inlineBy (name : String → String) (t : Theme) : String :=
  " ".intercalate (t.entries.map fun v => name v.1 ++ ": " ++ v.2 ++ ";")

theorem toList_inlineBy (name : String → String) (t : Theme) :
    (t.inlineBy name).toList =
      [' '].intercalate (t.entries.map fun v => (name v.1 ++ ": " ++ v.2 ++ ";").toList) := by
  rw [inlineBy, String.toList_intercalate, List.map_map]
  rfl

theorem length_inlineBy (name : String → String) (t : Theme) :
    (t.inlineBy name).toList.length =
      (t.entries.map fun v => (name v.1).toList.length + (v.2.toList.length + 3)).sum +
        (t.entries.length - 1) := by
  have hlength : ∀ v : String × String, (name v.1 ++ ": " ++ v.2 ++ ";").toList.length =
      (name v.1).toList.length + (v.2.toList.length + 3) := by
    intro v
    have hcolon : ": ".toList.length = 2 := by decide
    have hsemicolon : ";".toList.length = 1 := by decide
    rw [String.toList_append, String.toList_append, String.toList_append, List.length_append,
      List.length_append, List.length_append, hcolon, hsemicolon]
    omega
  rw [toList_inlineBy, length_intercalate, List.length_map, List.map_map, List.length_singleton,
    Nat.one_mul]
  exact congrArg (·.sum + _) (List.map_congr_left fun v _ => hlength v)

theorem length_inlineBy_css (t : Theme) :
    (t.inlineBy PropertyName.css).toList.length =
      t.inline.toList.length + (t.entries.map fun v => v.1.toList.countP Char.isUpper).sum := by
  have hsum : (t.entries.map fun v =>
        (PropertyName.css v.1).toList.length + (v.2.toList.length + 3)).sum =
      (t.entries.map fun v => v.1.toList.length + (v.2.toList.length + 3)).sum +
        (t.entries.map fun v => v.1.toList.countP Char.isUpper).sum := by
    rw [← List.sum_map_add]
    refine congrArg List.sum (List.map_congr_left fun v _ => ?_)
    rw [PropertyName.length_css]
    omega
  have hinline : t.inline = t.inlineBy id := rfl
  rw [hinline, length_inlineBy, length_inlineBy, hsum]
  simp only [id_eq]
  omega

/-- Names in their style sheet form change the text exactly if one has an upper-case letter. -/
theorem inlineBy_css_eq_inline_iff (t : Theme) :
    t.inlineBy PropertyName.css = t.inline ↔
      ∀ v ∈ t.entries, ∀ c ∈ v.1.toList, c.isUpper = false := by
  constructor
  · intro h v hv
    have hlength := length_inlineBy_css t
    rw [h] at hlength
    have hsum : (t.entries.map fun v => v.1.toList.countP Char.isUpper).sum = 0 := by omega
    have hzero := List.sum_eq_zero_iff.1 hsum _ (List.mem_map_of_mem hv)
    exact PropertyName.countP_isUpper_eq_zero_iff.1 hzero
  · intro h
    refine congrArg (" ".intercalate ·) (List.map_congr_left fun v hv => ?_)
    rw [PropertyName.css_eq_self (h v hv)]

end Theme

theorem Engine.inlineStyle_variables {e : Engine} (he : e.options.pipeline = .empty) (t : Theme) :
    e.inlineStyle t.declaration = t.inlineBy PropertyName.css := by
  have hrun : e.transform t.declaration = t.declaration := by rw [transform, he]; rfl
  have hscalar : (t.declaration.entries.filter fun entry => entry.2.isScalar) =
      t.declaration.entries := by
    rw [List.filter_eq_self, Theme.declaration_entries]
    rintro entry hentry
    obtain ⟨v, -, rfl⟩ := List.mem_map.1 hentry
    rfl
  rw [inlineStyle, hrun, Rule.inline, hscalar, Theme.declaration_entries, List.map_map]
  rfl

/-! ## What is written beyond what is known -/

namespace Engine

/-- The items whose classes are not known when they are met. -/
def fresh {α : Type} (cls : α → String) (known : OrderedSet) : List α → List α
  | [] => []
  | x :: rest =>
    if cls x ∈ known then fresh cls known rest
    else x :: fresh cls (known.insert (cls x)) rest

theorem fresh_map {α β : Type} (f : α → β) (cls : β → String) (known : OrderedSet) (xs : List α) :
    fresh cls known (xs.map f) = (fresh (fun x => cls (f x)) known xs).map f := by
  induction xs generalizing known with
  | nil => rfl
  | cons x rest ih =>
    rw [List.map_cons, fresh, fresh, ih, ih]
    split <;> rfl

section backed

variable {rules : OrderedSet} {e : Engine} (h : Backed rules e)

include h

theorem Backed.walk {vs : List Visit} (hn : ¬ Nests vs) (classes : ClassMap) :
    (∃ m, (walk vs classes e).result = .ok m) ∧
      ∃ written, Backed written (Engine.walk vs classes e).engine ∧
        written.items =
          rules.items ++ (fresh Occurrence.cls e.injected (entered vs)).map Occurrence.rule := by
  induction vs generalizing rules classes e with
  | nil => exact ⟨⟨classes, rfl⟩, rules, h, (List.append_nil _).symm⟩
  | cons v rest ih =>
    cases v with
    | nesting outer inner => exact absurd (nests_nesting outer inner rest) hn
    | entry o =>
      have hrest := mt nests_entry.2 hn
      rw [entered, fresh]
      by_cases hk : o.cls ∈ e.injected
      · have hknown : inject (suffix o.state) o.name o.value e = ⟨.ok o.cls, e, _⟩ :=
          inject_known hk
        have hr : (inject (suffix o.state) o.name o.value e).result = .ok o.cls := by rw [hknown]
        rw [Engine.walk, Action.bind_apply_of_ok hr, if_pos hk, hknown]
        exact ih h hrest _
      · obtain ⟨hr, hinjected, hbacked, hitems⟩ := h.inject_fresh hk
        obtain ⟨hok, written, hwritten, hrules⟩ := ih hbacked hrest (classes.insert o.key o.cls)
        rw [Engine.walk, Action.bind_apply_of_ok hr, if_neg hk]
        refine ⟨hok, written, hwritten, ?_⟩
        rw [hrules, hitems, hinjected, List.append_assoc]
        rfl

theorem Backed.compile (hm : e.options.mode ≠ .noop) {d : Declaration}
    (hn : ¬ Nests (visits e.options.pipeline d)) :
    (∃ m, (compile d e).result = .ok m) ∧
      ∃ written, (Engine.compile d e).engine.sheet = .synthetic written ∧
        written.items = rules.items ++
          (fresh Occurrence.cls e.injected (entered (visits e.options.pipeline d))).map
            Occurrence.rule := by
  obtain ⟨hok, written, hwritten, hitems⟩ := h.walk hn ClassMap.empty
  rw [(compile_eq_walk hm).1, (compile_eq_walk hm).2]
  exact ⟨hok, written, hwritten.sheet, hitems⟩

end backed

/-! ## Variables -/

/-- A variable as compilation meets it. -/
def ofVariable (v : String × String) : Occurrence := ⟨none, v.1, .text v.2⟩

theorem rule_ofVariable (v : String × String) :
    (ofVariable v).rule = "." ++ classId v.1 (.text v.2) ++ " \x7b " ++ PropertyName.css v.1 ++
      ": " ++ v.2 ++ "; \x7d" := by
  rw [Occurrence.rule_text, ofVariable, suffix, String.append_empty]
  rfl

theorem visits_variables (t : Theme) :
    visits .empty t.declaration = t.entries.map fun v => .entry (ofVariable v) := by
  have hrun : Pipeline.empty.run t.declaration = t.declaration := rfl
  rw [visits, hrun, Theme.declaration_entries, List.flatMap_map]
  exact List.map_eq_flatMap.symm

theorem entered_variables (vs : List (String × String)) :
    entered (vs.map fun v => .entry (ofVariable v)) = vs.map ofVariable := by
  rw [← entered_entries (vs.map ofVariable), List.map_map]
  rfl

theorem not_nests_variables (vs : List (String × String)) :
    ¬ Nests (vs.map fun v => .entry (ofVariable v)) := by
  have h := not_nests_entries (vs.map ofVariable)
  rwa [List.map_map] at h

/-- Whatever variables a theme has: an engine without transforms writes them as an inline style with
every name in its style sheet form, and on an empty sheet it writes the rules of those variables, in
their order and with their names in this form, whose classes it does not know when it meets them. The
inline style is the theme's own exactly if no name has an upper-case letter, and the form of a name is
the name that the theme writes itself exactly if it has none. -/
theorem variables_as_declaration (t : Theme) :
    (∀ e : Engine, e.options.pipeline = .empty →
      e.inlineStyle t.declaration =
          " ".intercalate (t.entries.map fun v => PropertyName.css v.1 ++ ": " ++ v.2 ++ ";") ∧
        (e.inlineStyle t.declaration = t.inline ↔
          ∀ v ∈ t.entries, ∀ c ∈ v.1.toList, c.isUpper = false)) ∧
    (∀ e : Engine, e.options.pipeline = .empty → e.options.mode = .inject →
      e.sheet = Sheet.empty →
      (∃ m, (compile t.declaration e).result = .ok m) ∧
        ∃ rules, (compile t.declaration e).engine.sheet = .synthetic rules ∧
          rules.items = (fresh (fun v => classId v.1 (.text v.2)) e.injected t.entries).map fun v =>
            "." ++ classId v.1 (.text v.2) ++ " \x7b " ++ PropertyName.css v.1 ++ ": " ++ v.2 ++
              "; \x7d") ∧
    ∀ v ∈ t.entries, PropertyName.css v.1 = v.1 ↔ ∀ c ∈ v.1.toList, c.isUpper = false := by
  refine ⟨fun e he => ?_, fun e he hmode hsheet => ?_, fun v _ => PropertyName.css_eq_self_iff⟩
  · rw [inlineStyle_variables he]
    exact ⟨rfl, Theme.inlineBy_css_eq_inline_iff t⟩
  · have hnoop : e.options.mode ≠ .noop := by rw [hmode]; decide
    have hvisits := visits_variables t
    rw [← he] at hvisits
    have hnests : ¬ Nests (visits e.options.pipeline t.declaration) := by
      rw [hvisits]
      exact not_nests_variables _
    obtain ⟨hok, rules, hrules, hitems⟩ := (backed_empty hsheet).compile hnoop hnests
    refine ⟨hok, rules, hrules, ?_⟩
    rw [hitems, hvisits, entered_variables, fresh_map, List.map_map]
    exact List.map_congr_left fun v _ => rule_ofVariable v

theorem variables_as_declaration_gap :
    (synthetic Options.standard).inlineStyle (Theme.ofList [("gap", "4px")]).declaration =
        "--gap: 4px;" ∧
      ∃ rules, (compile (Theme.ofList [("gap", "4px")]).declaration
          (synthetic Options.standard)).engine.sheet = .synthetic rules ∧
        rules.items = ["." ++ classId "--gap" (.text "4px") ++ " \x7b --gap: 4px; \x7d"] := by
  obtain ⟨hinline, hsheet, -⟩ := variables_as_declaration (Theme.ofList [("gap", "4px")])
  refine ⟨(hinline (synthetic Options.standard) rfl).1.trans (by decide), ?_⟩
  obtain ⟨-, rules, hrules, hitems⟩ := hsheet (synthetic Options.standard) rfl rfl rfl
  exact ⟨rules, hrules, hitems.trans (by decide)⟩

/-- Upper-case letters are lost on the way through a declaration: neither the inline style nor the
rule has the name that the theme writes. -/
theorem camelCase_variable :
    (synthetic Options.standard).inlineStyle (Theme.ofList [("mainColor", "red")]).declaration ≠
        (Theme.ofList [("mainColor", "red")]).inline ∧
      ¬ (compile (Theme.ofList [("mainColor", "red")]).declaration
          (synthetic Options.standard)).engine.sheet.Holds
        ("." ++ classId "--mainColor" (.text "red") ++ " \x7b --mainColor: red; \x7d") := by
  decide

end Engine

end AtomicCss
