import AtomicCss.Proofs.ClassMap.Composition
import AtomicCss.Proofs.Engine.Noop

/-!
# Class lists taken apart

A class is the letter `c` with two numerals behind it, whatever the property and the value are
(`classId_wellFormed`). So a class list has no other blanks than those between its classes, and a
list that is composed of compiled class maps can be split into the classes again
(`class_list_splits`).
-/

namespace AtomicCss

/-- The letter `c` with 2 to 14 decimal digits and lower-case letters behind it. -/
def WellFormedClass (cls : String) : Prop :=
  ∃ tail : List Char, cls.toList = 'c' :: tail ∧ 2 ≤ tail.length ∧ tail.length ≤ 14 ∧
    ∀ c ∈ tail, c.isDigit = true ∨ c.isLower = true

theorem classId_wellFormed (name : String) (value : Value) :
    WellFormedClass (classId name value) := by
  obtain ⟨hp1, hp7, hproperty⟩ := Digest.Base36.render_chars (Digest.Purpose.property.word name)
  obtain ⟨hv1, hv7, hvalue⟩ := Digest.Base36.render_chars (Digest.Purpose.value.word value.render)
  refine ⟨(Digest.Base36.render (Digest.Purpose.property.word name)).toList ++
    (Digest.Base36.render (Digest.Purpose.value.word value.render)).toList, ?_, ?_, ?_, ?_⟩
  · rw [classId_eq, String.toList_append, String.toList_append]
    rfl
  · rw [List.length_append]
    omega
  · rw [List.length_append]
    omega
  · intro c hc
    exact (List.mem_append.1 hc).elim (hproperty c) (hvalue c)

theorem WellFormedClass.not_mem_blank {cls : String} (h : WellFormedClass cls) :
    ' ' ∉ cls.toList := by
  obtain ⟨tail, hcls, -, -, hchars⟩ := h
  rw [hcls, List.mem_cons]
  rintro (hc | hc)
  · exact absurd hc (by decide)
  · exact absurd (hchars ' ' hc) (by decide)

namespace ClassMap

theorem mem_classes_compose {maps : List (Option ClassMap)} {cls : String}
    (h : cls ∈ (compose maps).classes) : ∃ m, some m ∈ maps ∧ cls ∈ m.classes := by
  obtain ⟨entry, hentry, rfl⟩ := List.mem_map.1 h
  rw [entries_compose] at hentry
  obtain ⟨key, -, hkey⟩ := List.mem_filterMap.1 hentry
  obtain ⟨cls, hfound, rfl⟩ := Option.map_eq_some_iff.1 hkey
  obtain ⟨m, hm, hget⟩ := List.exists_of_findSome?_eq_some hfound
  obtain ⟨m?, hmem, rfl⟩ := List.mem_filterMap.1 (List.mem_reverse.1 hm)
  have hin : (key, cls) ∈ m.entries := Table.get?_eq_some_iff.1 hget
  exact ⟨m, hmem, List.mem_map_of_mem hin⟩

/-- Well-formed classes are found again in their list. -/
theorem split_classNames {m : ClassMap} (h : ∀ cls ∈ m.classes, WellFormedClass cls)
    (hne : m.isEmpty = false) : (m.classNames.split ' ').toList.map (·.copy) = m.classes := by
  have hclasses : m.classes ≠ [] := by
    intro hnil
    have hentries : m.table.entries = [] := List.map_eq_nil_iff.1 hnil
    rw [isEmpty, Table.isEmpty, hentries] at hne
    cases hne
  have hsplit := String.toList_split_intercalate fun cls hcls => (h cls hcls).not_mem_blank
  rw [if_neg hclasses] at hsplit
  exact hsplit

end ClassMap

open Engine ClassMap

theorem Engine.wellFormed_of_compile_ok {e : Engine} {d : Declaration} {m : ClassMap}
    (hm : e.options.mode ≠ .noop) (h : (compile d e).result = .ok m) :
    ∀ cls ∈ m.classes, WellFormedClass cls := by
  rw [(compile_eq_walk hm).1] at h
  obtain ⟨-, rfl⟩ := walk_ok h
  intro cls hcls
  obtain ⟨entry, hentry, rfl⟩ := List.mem_map.1 hcls
  obtain ⟨o, -, rfl⟩ := mem_classesOf hentry
  exact classId_wellFormed o.name o.value

/-- A class list can be taken apart again. Whatever engines and declarations the class maps come from,
each of their classes is a `c` with 2 to 14 decimal digits and lower-case letters behind it. If the
composition of the maps that are present is not empty, its attribute value, split at every blank,
gives the classes of the composition, in their order and with repetitions. -/
theorem class_list_splits (maps : List (Option ClassMap))
    (h : ∀ m, some m ∈ maps → ∃ (e : Engine) (d : Declaration),
      e.options.mode ≠ .noop ∧ (compile d e).result = .ok m) :
    (∀ m, some m ∈ maps → ∀ cls ∈ m.classes, WellFormedClass cls) ∧
      ((compose maps).isEmpty = false →
        ((composedNames maps).split ' ').toList.map (·.copy) = (compose maps).classes) := by
  have hclasses : ∀ m, some m ∈ maps → ∀ cls ∈ m.classes, WellFormedClass cls := by
    intro m hmem
    obtain ⟨e, d, hmode, hok⟩ := h m hmem
    exact wellFormed_of_compile_ok hmode hok
  refine ⟨hclasses, split_classNames fun cls hcls => ?_⟩
  obtain ⟨m, hmem, hin⟩ := mem_classes_compose hcls
  exact hclasses m hmem cls hin

theorem class_list_splits_mixed :
    ∃ m n, (compile mixed usedEngine).result = .ok m ∧ (compile blockless usedEngine).result = .ok n ∧
      (∀ cls ∈ m.classes, WellFormedClass cls) ∧ (compose [some m, none, some n]).isEmpty = false ∧
      ((composedNames [some m, none, some n]).split ' ').toList.map (·.copy) =
        (compose [some m, none, some n]).classes := by
  have hmode : usedEngine.options.mode ≠ .noop := by decide
  obtain ⟨m, hm⟩ := compile_mixed
  obtain ⟨n, hn⟩ := compile_blockless
  have hne : (compose [some m, none, some n]).isEmpty = false := by
    rw [compile_ok_eq hmode hm, compile_ok_eq hmode hn]
    decide +kernel
  have hcompiled : ∀ m', some m' ∈ [some m, none, some n] → ∃ (e : Engine) (d : Declaration),
      e.options.mode ≠ .noop ∧ (compile d e).result = .ok m' := by
    intro m' hmem
    simp only [List.mem_cons, Option.some.injEq, reduceCtorEq, List.not_mem_nil, or_false,
      false_or] at hmem
    rcases hmem with rfl | rfl
    · exact ⟨usedEngine, mixed, hmode, hm⟩
    · exact ⟨usedEngine, blockless, hmode, hn⟩
  obtain ⟨hclasses, hsplits⟩ := class_list_splits _ hcompiled
  exact ⟨m, n, hm, hn, hclasses m List.mem_cons_self, hne, hsplits hne⟩

end AtomicCss
