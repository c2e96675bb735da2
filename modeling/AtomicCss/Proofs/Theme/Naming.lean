import Mathlib.Data.List.Basic
import AtomicCss.Proofs.Table
import AtomicCss.Theme

/-!
# The names of theme variables

The table of a theme is that of its settings under their stored names (`table_ofList`), so what is
known of tables written from a list is known of themes. Two names address one variable exactly if
they are stored as the same name (`sameVariable_iff`), and this is told from the names alone
(`variableName_eq_iff`).
-/

namespace AtomicCss.Theme

/-! ## Stored names -/

/-- Names are stored as the same name if they are equal, or one is the other with the two hyphens
that it lacks. -/
theorem variableName_eq_iff {a b : String} :
    variableName a = variableName b ↔
      a = b ∨ (a = "--" ++ b ∧ ¬ Hyphened b) ∨ (b = "--" ++ a ∧ ¬ Hyphened a) := by
  by_cases ha : Hyphened a <;> by_cases hb : Hyphened b
  · rw [variableName_of_hyphened ha, variableName_of_hyphened hb]
    simp [ha, hb]
  · have hne : a ≠ b := fun h => hb (h ▸ ha)
    rw [variableName_of_hyphened ha, variableName_of_not_hyphened hb]
    simp [ha, hb, hne]
  · have hne : a ≠ b := fun h => ha (h ▸ hb)
    rw [variableName_of_not_hyphened ha, variableName_of_hyphened hb, eq_comm]
    simp [ha, hb, hne]
  · have hab : a ≠ "--" ++ b := fun h => ha ⟨b, h⟩
    have hba : b ≠ "--" ++ a := fun h => hb ⟨a, h⟩
    rw [variableName_of_not_hyphened ha, variableName_of_not_hyphened hb, String.append_right_inj]
    simp [hab, hba]

/-! ## The table of a theme -/

theorem table_foldl_set (settings : List (String × String)) (t : Theme) :
    (settings.foldl (fun t s => t.set s.1 s.2) t).table =
      t.table.insertAll (settings.map fun s => (variableName s.1, s.2)) := by
  induction settings generalizing t with
  | nil => rfl
  | cons s rest ih => exact ih (t.set s.1 s.2)

theorem table_ofList (settings : List (String × String)) :
    (ofList settings).table = Table.ofList (settings.map fun s => (variableName s.1, s.2)) :=
  table_foldl_set settings empty

theorem names_ofList (settings : List (String × String)) :
    (ofList settings).table.names = (settings.map fun s => variableName s.1).eraseDups := by
  rw [table_ofList, Table.names_ofList, List.map_map]
  rfl

theorem lookup_map (settings : List (String × String)) (stored : String) :
    (settings.map fun s => (variableName s.1, s.2)).lookup stored =
      (settings.find? fun s => variableName s.1 = stored).map Prod.snd := by
  induction settings with
  | nil => rfl
  | cons s rest ih =>
    rw [List.map_cons, List.lookup_cons, List.find?_cons, ih]
    by_cases h : variableName s.1 = stored
    · rw [h, beq_self_eq_true, decide_eq_true rfl]
      rfl
    · rw [beq_eq_false_iff_ne.2 (Ne.symm h), decide_eq_false h]

theorem get?_ofList (settings : List (String × String)) (name : String) :
    (ofList settings).get? name =
      (settings.reverse.find? fun s => variableName s.1 = variableName name).map Prod.snd := by
  rw [get?, table_ofList, Table.get?_ofList, ← List.map_reverse, lookup_map]

theorem contains_ofList (settings : List (String × String)) (name : String) :
    (ofList settings).contains name =
      settings.any fun s => variableName s.1 = variableName name := by
  rw [contains, Bool.eq_iff_iff, Table.contains_iff, table_ofList, Table.names_ofList,
    List.mem_eraseDups, List.map_map]
  simp

/-! ## Names of one variable -/

/-- Whatever is set under the first name is found under the second. -/
def SameVariable (a b : String) : Prop :=
  ∀ (t : Theme) (value : String), (t.set a value).get? b = some value

theorem get?_set (t : Theme) (name other value : String) :
    (t.set name value).get? other =
      if variableName other = variableName name then some value else t.get? other :=
  Table.get?_insert t.table (variableName name) (variableName other) value

theorem sameVariable_iff {a b : String} :
    SameVariable a b ↔ variableName a = variableName b := by
  constructor
  · intro h
    by_contra hne
    have hfound := h empty ""
    rw [get?_set, if_neg (Ne.symm hne)] at hfound
    cases hfound
  · intro h t value
    rw [get?_set, if_pos h.symm]

/-- Variables are stored under one name each, however they are set. After any settings, collected or
made one by one, every stored name begins with two hyphens, no name is stored twice, and the names
stand in the order of their first setting. Under any name look-up finds the value of the last
setting that is stored as the same name, if there is one. Two names address one variable exactly if
they are equal, or one of them is the other with the two hyphens that the other lacks. -/
theorem variables_stored_once :
    (∀ collected made : List (String × String),
      let t := made.foldl (fun t s => t.set s.1 s.2) (ofList collected)
      let settings := collected ++ made
      (∀ name ∈ t.table.names, Hyphened name) ∧ t.table.names.Nodup ∧
      t.table.names = (settings.map fun s => variableName s.1).eraseDups ∧
      (∀ name, t.get? name =
        (settings.reverse.find? fun s => variableName s.1 = variableName name).map Prod.snd) ∧
      ∀ name, t.contains name = settings.any fun s => variableName s.1 = variableName name) ∧
    ∀ a b : String, SameVariable a b ↔
      a = b ∨ (a = "--" ++ b ∧ ¬ Hyphened b) ∨ (b = "--" ++ a ∧ ¬ Hyphened a) := by
  refine ⟨fun collected made => ?_, fun a b => sameVariable_iff.trans variableName_eq_iff⟩
  intro t settings
  have ht : t = ofList settings := List.foldl_append.symm
  refine ⟨fun name hname => ?_, ?_, ?_, fun name => ?_, fun name => ?_⟩
  · exact t.hyphened name hname
  · exact t.table.distinct
  · rw [ht, names_ofList]
  · rw [ht, get?_ofList]
  · rw [ht, contains_ofList]

theorem variables_stored_once_hyphens :
    let t := [("---", "1px"), ("", "2px")].foldl (fun t s => t.set s.1 s.2)
      (ofList [("gap", "4px"), ("-", "0"), ("--gap", "8px")])
    t.table.names = ["--gap", "---", "--"] ∧ Hyphened "---" ∧ t.get? "-" = some "1px" ∧
      t.get? "gap" = some "8px" ∧ t.contains "--" = true ∧ t.contains "----" = false ∧
      SameVariable "-" "---" ∧ ¬ SameVariable "--" "----" := by
  intro t
  obtain ⟨htheme, hsame⟩ := variables_stored_once
  obtain ⟨hhyphens, -, hnames, hget, hcontains⟩ :=
    htheme [("gap", "4px"), ("-", "0"), ("--gap", "8px")] [("---", "1px"), ("", "2px")]
  have hlisted : t.table.names = ["--gap", "---", "--"] := hnames.trans (by decide)
  refine ⟨hlisted, hhyphens "---" ?_, (hget "-").trans ?_, (hget "gap").trans ?_,
    (hcontains "--").trans ?_, (hcontains "----").trans ?_, ?_, fun h => ?_⟩
  · exact hlisted ▸ by decide
  · decide
  · decide
  · decide
  · decide
  · refine (hsame "-" "---").2 (.inr (.inr ⟨by decide, ?_⟩))
    exact mt isPrefixOf_iff.2 (by decide)
  · exact absurd (sameVariable_iff.1 h) (by decide)

end AtomicCss.Theme
