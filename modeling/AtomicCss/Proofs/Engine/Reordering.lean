import AtomicCss.Proofs.Engine.Resuming
import AtomicCss.Proofs.Transform.Reordering

/-!
# The order of properties does not change the classes

An entry of a declaration writes one key of the class map, its name and its state, and no other entry
writes this key (`Orderly.key_inj`). So the map holds under each key what its entry says, whichever
comes first, and with the entries in another order the same is known afterwards (`compile_reordered`).
-/

namespace AtomicCss

/-! ## Keys -/

theorem append_cons_inj_of_not_mem {α : Type} {c : α} {xs ys us vs : List α} (hus : c ∉ us)
    (hvs : c ∉ vs) (h : xs ++ c :: us = ys ++ c :: vs) : xs = ys ∧ us = vs := by
  have hnone : ∀ {us vs ws : List α}, c ∉ us → c :: us = ws ++ c :: vs → ws = [] := by
    intro us vs ws hus h
    cases ws with
    | nil => rfl
    | cons d ws =>
      rw [List.cons_append, List.cons.injEq] at h
      exact absurd (h.2 ▸ List.mem_append_right ws List.mem_cons_self) hus
  rcases List.append_eq_append_iff.1 h with ⟨ws, rfl, hw⟩ | ⟨ws, rfl, hw⟩
  · obtain rfl := hnone hus hw
    exact ⟨(List.append_nil xs).symm, (List.cons.inj hw).2⟩
  · obtain rfl := hnone hvs hw
    exact ⟨List.append_nil ys, (List.cons.inj hw).2.symm⟩

theorem Pseudo.toList_key (s : Pseudo) : ∃ word, s.key.toList = ':' :: word ∧ ':' ∉ word := by
  refine ⟨s.key.toList.tail, ?_⟩
  cases s <;> decide

theorem Pseudo.append_key_inj {base base' : String} {s s' : Pseudo}
    (h : base ++ s.key = base' ++ s'.key) : base = base' ∧ s = s' := by
  obtain ⟨word, hword, hnot⟩ := s.toList_key
  obtain ⟨word', hword', hnot'⟩ := s'.toList_key
  have hlist := congrArg String.toList h
  rw [String.toList_append, String.toList_append, hword, hword'] at hlist
  obtain ⟨hbase, hwords⟩ := append_cons_inj_of_not_mem hnot hnot' hlist
  refine ⟨String.toList_injective hbase, Pseudo.key_injective (String.toList_injective ?_)⟩
  rw [hword, hword', hwords]

theorem Pseudo.colon_mem_append_key (base : String) (s : Pseudo) :
    ':' ∈ (base ++ s.key).toList := by
  obtain ⟨word, hword, -⟩ := s.toList_key
  rw [String.toList_append, hword]
  exact List.mem_append_right _ List.mem_cons_self

/-! ## Entries in both orders -/

section alike

variable {d d' : Declaration}

theorem SameUnder.eq_of_not_block {name : String} {v v' : Value} (h : SameUnder name v v')
    (hblock : Engine.block? name v = none) : v = v' := by
  cases h with
  | same => rfl
  | block hname h =>
    rw [Engine.block?_eq_some_iff.2 ⟨hname, rfl⟩] at hblock
    cases hblock

theorem Alike.mem_of_not_block (h : Alike d d') {entry : String × Value}
    (hentry : entry ∈ d.entries) (hblock : Engine.block? entry.1 entry.2 = none) :
    entry ∈ d'.entries := by
  obtain ⟨v', hv', hsame⟩ := h.get?_eq_some (Table.get?_eq_some_iff.2 hentry)
  rw [← hsame.eq_of_not_block hblock] at hv'
  exact Table.get?_eq_some_iff.1 hv'

theorem Alike.block_mem (h : Alike d d') {s : Pseudo} {b : Declaration}
    (hb : (s.key, .nested b) ∈ d.entries) :
    ∃ b', (s.key, .nested b') ∈ d'.entries ∧ b.entries.Perm b'.entries := by
  obtain ⟨v', hv', hsame⟩ := h.get?_eq_some (Table.get?_eq_some_iff.2 hb)
  cases hsame with
  | same => exact ⟨b, Table.get?_eq_some_iff.1 hv', .refl _⟩
  | block hname hperm => exact ⟨_, Table.get?_eq_some_iff.1 hv', hperm⟩

end alike

/-! ## Class maps -/

namespace ClassMap

theorem get?_ofList (entries : List (String × String)) (key : String) :
    (ofList entries).get? key = (Table.ofList entries).get? key := rfl

theorem same_of_get?_eq {m m' : ClassMap} (h : ∀ key, m.get? key = m'.get? key) :
    m.same m' = true := by
  have hnames : m.table.names.Perm m'.table.names := by
    refine (List.perm_ext_iff_of_nodup m.table.distinct m'.table.distinct).2 fun key => ?_
    rw [← Table.get?_isSome_iff, ← Table.get?_isSome_iff]
    exact iff_of_eq (congrArg (Option.isSome · = true) (h key))
  have hsize : m.table.size = m'.table.size := by
    have hlength := hnames.length_eq
    rwa [← Table.map_fst_entries, ← Table.map_fst_entries, List.length_map, List.length_map]
      at hlength
  rw [same, Table.sameEntries, Bool.and_eq_true, beq_iff_eq, List.all_eq_true]
  refine ⟨hsize, fun entry hentry => ?_⟩
  have hfound : m'.get? entry.1 = some entry.2 :=
    (h entry.1).symm.trans (Table.get?_eq_some_iff.2 hentry)
  rw [show m'.table.get? entry.1 = some entry.2 from hfound, Option.any_some, beq_self_eq_true]

end ClassMap

namespace Engine

/-! ## Declarations without ambiguous names -/

/-- Apart from blocks no name ends in a pseudo-selector, and no block stands in a block. -/
structure Orderly (d : Declaration) : Prop where
  plain : ∀ entry ∈ d.entries, block? entry.1 entry.2 = none →
    ∀ base s, entry.1 ≠ base ++ Pseudo.key s
  blocks : ∀ s b, (Pseudo.key s, Value.nested b) ∈ d.entries → BlockFree b.entries

section orderly

variable {d d' : Declaration}

theorem block_mem_standard_run {s : Pseudo} {v : Value} :
    (s.key, v) ∈ (Pipeline.standard.run d).entries ↔ (s.key, v) ∈ d.entries := by
  have hcolon : ':' ∈ s.key.toList := by
    obtain ⟨word, hword, -⟩ := s.toList_key
    rw [hword]
    exact List.mem_cons_self
  rw [← Table.get?_eq_some_iff, ← Table.get?_eq_some_iff, get?_standard_run_of_colon hcolon]

theorem Orderly.flat (h : Orderly d) : Flat Pipeline.standard d := by
  intro outer b hb inner c hc
  exact h.blocks outer b (block_mem_standard_run.1 hb) inner c (block_mem_standard_run.1 hc)

theorem Orderly.plain_standard_run (h : Orderly d) {entry : String × Value}
    (hentry : entry ∈ (Pipeline.standard.run d).entries) (hblock : block? entry.1 entry.2 = none)
    (base : String) (s : Pseudo) : entry.1 ≠ base ++ s.key := by
  intro hname
  have hcolon : ':' ∈ entry.1.toList := hname ▸ Pseudo.colon_mem_append_key base s
  have hget := Table.get?_eq_some_iff.2 hentry
  rw [get?_standard_run_of_colon hcolon, Table.get?_eq_some_iff] at hget
  exact h.plain entry hget hblock base s hname

/-- No two entries write the same key. -/
theorem Orderly.key_inj (h : Orderly d) {o o' : Occurrence} (ho : Occurs Pipeline.standard d o)
    (ho' : Occurs Pipeline.standard d o') (hkey : o.key = o'.key) : o = o' := by
  obtain ⟨state, name, v⟩ := o
  obtain ⟨state', name', v'⟩ := o'
  obtain ⟨-, ho⟩ := ho
  obtain ⟨-, ho'⟩ := ho'
  replace hkey : name ++ suffix state = name' ++ suffix state' := hkey
  cases state with
  | none =>
    rw [suffix, String.append_empty] at hkey
    cases state' with
    | none =>
      rw [suffix, String.append_empty] at hkey
      subst hkey
      obtain rfl : v = v' := Table.eq_of_mem ho.1 ho'.1
      rfl
    | some s' => exact absurd hkey (h.plain_standard_run ho.1 ho.2 name' s')
  | some s =>
    cases state' with
    | none =>
      rw [suffix, suffix, String.append_empty] at hkey
      exact absurd hkey.symm (h.plain_standard_run ho'.1 ho'.2 name s)
    | some s' =>
      obtain ⟨rfl, rfl⟩ := Pseudo.append_key_inj hkey
      obtain ⟨b, hb, hv⟩ := ho
      obtain ⟨b', hb', hv'⟩ := ho'
      obtain rfl := Value.nested.inj (Table.eq_of_mem hb hb')
      obtain rfl : v = v' := Table.eq_of_mem hv hv'
      rfl

theorem Orderly.occurs (h : Orderly d) (ha : Alike d d') {o : Occurrence}
    (ho : Occurs Pipeline.standard d o) : Occurs Pipeline.standard d' o := by
  obtain ⟨state, name, v⟩ := o
  obtain ⟨hnull, ho⟩ := ho
  refine ⟨hnull, ?_⟩
  cases state with
  | none => exact ⟨ha.standard_run.mem_of_not_block ho.1 ho.2, ho.2⟩
  | some s =>
    obtain ⟨b, hb, hv⟩ := ho
    obtain ⟨b', hb', hperm⟩ := ha.block_mem (block_mem_standard_run.1 hb)
    have hfree : BlockFree (Pipeline.standard.run b).entries := h.flat s b hb
    have hrun := (alike_of_perm hperm).standard_run
    exact ⟨b', block_mem_standard_run.2 hb',
      hrun.mem_of_not_block hv (blockFree_iff.1 hfree (name, v) hv)⟩

theorem Orderly.of_alike (h : Orderly d) (ha : Alike d d') : Orderly d' where
  plain entry hentry hblock :=
    h.plain entry (ha.symm.mem_of_not_block hentry hblock) hblock
  blocks s b' hb' := by
    obtain ⟨b, hb, hperm⟩ := ha.symm.block_mem hb'
    exact fun inner c hc => h.blocks s b hb inner c (hperm.mem_iff.1 hc)

end orderly

/-! ## Compilation -/

theorem mem_assigned {p : Pipeline} {d : Declaration} (hflat : Flat p d) {key cls : String} :
    (key, cls) ∈ assigned p d ↔ ∃ o, Occurs p d o ∧ o.key = key ∧ o.cls = cls := by
  have hnests := not_nests_visits_iff.2 hflat
  rw [← entered_visits hnests, List.mem_map]
  constructor
  · rintro ⟨o, ho, he⟩
    obtain ⟨rfl, rfl⟩ := Prod.mk.inj he
    exact ⟨o, occurs_of_mem_visits (mem_of_mem_entered ho), rfl, rfl⟩
  · rintro ⟨o, ho, rfl, rfl⟩
    exact ⟨o, mem_entered_of_mem hnests (mem_visits_of_occurs hnests ho), rfl⟩

/-- The class map of an orderly declaration holds its keys and classes, in whatever order they are
written. -/
theorem Orderly.get?_ofList_assigned {d : Declaration} (h : Orderly d) {key cls : String} :
    (ClassMap.ofList (assigned Pipeline.standard d)).get? key = some cls ↔
      (key, cls) ∈ assigned Pipeline.standard d := by
  have hone : ∀ key c c', (key, c) ∈ assigned Pipeline.standard d →
      (key, c') ∈ assigned Pipeline.standard d → c = c' := by
    intro key c c' hc hc'
    obtain ⟨o, ho, hkey, rfl⟩ := (mem_assigned h.flat).1 hc
    obtain ⟨o', ho', hkey', rfl⟩ := (mem_assigned h.flat).1 hc'
    rw [h.key_inj ho ho' (hkey.trans hkey'.symm)]
  rw [ClassMap.get?_ofList, Table.get?_ofList_eq_some_iff hone]

theorem Orderly.mem_assigned_iff {d d' : Declaration} (h : Orderly d) (ha : Alike d d')
    {entry : String × String} :
    entry ∈ assigned Pipeline.standard d ↔ entry ∈ assigned Pipeline.standard d' := by
  have h' := h.of_alike ha
  rw [mem_assigned h.flat, mem_assigned h'.flat]
  exact exists_congr fun o => and_congr_left' ⟨h.occurs ha, h'.occurs ha.symm⟩

/-- The order in which an author lists the properties of a declaration does not change its classes,
neither at the top nor inside the blocks. On any engine with the standard pipeline that writes rules
to a synthetic sheet, in whatever state, an orderly declaration and the same in another order both
compile, to class maps with the same class under every key, and the same classes are known
afterwards. Everything that the declaration holds after the transforms has its class in the map. Values
may be of any kind, and a family of a box may occur as shorthand and as longhand: the shorthand counts
more, wherever it stands. -/
theorem compile_reordered (e : Engine) (hm : e.options.mode ≠ .noop)
    (hp : e.options.pipeline = .standard) (hs : e.sheet.isSynthetic = true) {d d' : Declaration}
    (hd : Orderly d) (h : Reordered d d') :
    ∃ m m', (compile d e).result = .ok m ∧ (compile d' e).result = .ok m' ∧
      (∀ key, m.get? key = m'.get? key) ∧ m.same m' = true ∧
      (∀ o, Occurs .standard d o → m.get? o.key = some o.cls) ∧
      ∀ id, id ∈ (compile d e).engine.injected ↔ id ∈ (compile d' e).engine.injected := by
  have hd' := hd.of_alike h.alike
  have hmem : ∀ entry, entry ∈ assigned .standard d ↔ entry ∈ assigned .standard d' :=
    fun entry => hd.mem_assigned_iff h.alike
  have hcompile : ∀ {d}, Orderly d →
      (compile d e).result = .ok (ClassMap.ofList (assigned .standard d)) := by
    intro d hd
    have hok := compile_takesAll (takesAll_of_isSynthetic hs) hm (d := d) (hp ▸ hd.flat)
    rwa [hp] at hok
  have hget : ∀ key, (ClassMap.ofList (assigned .standard d)).get? key =
      (ClassMap.ofList (assigned .standard d')).get? key := by
    intro key
    refine Option.ext fun cls => ?_
    rw [hd.get?_ofList_assigned, hd'.get?_ofList_assigned, hmem]
  refine ⟨_, _, hcompile hd, hcompile hd', hget, ClassMap.same_of_get?_eq hget, ?_, fun id => ?_⟩
  · exact fun o ho => hd.get?_ofList_assigned.2 ((mem_assigned hd.flat).2 ⟨o, ho, rfl, rfl⟩)
  · rw [injected_of_compile_ok hm (hcompile hd), injected_of_compile_ok hm (hcompile hd'), hp,
      OrderedSet.mem_insertAll, OrderedSet.mem_insertAll, List.mem_map, List.mem_map]
    simp only [hmem]

/-- A block with a bare length and an absent shorthand. -/
def hovered : Declaration :=
  .ofNodup [("width", .ofInt 3), ("color", .text "blue"), ("padding", .null)] (by decide)

/-- A shorthand with one of its longhands behind it, and a block between them. -/
def listed : Declaration :=
  .ofNodup [("margin", .text "1px 2px"), ("color", .text "red"), (":hover", .nested hovered),
    ("marginTop", .ofInt 5)] (by decide)

/-- The same back to front. -/
def turned : Declaration :=
  .ofNodup [("marginTop", .ofInt 5), (":hover", .nested (.ofNodup hovered.entries.reverse
    (by decide))), ("color", .text "red"), ("margin", .text "1px 2px")] (by decide)

theorem orderly_listed : Orderly listed where
  plain entry hentry hblock base s hname := by
    have hcolon : ∀ entry ∈ listed.entries, ':' ∈ entry.1.toList →
        (block? entry.1 entry.2).isSome = true := by decide
    have hsome := hcolon entry hentry (hname ▸ Pseudo.colon_mem_append_key base s)
    rw [hblock] at hsome
    cases hsome
  blocks s b hb := by
    obtain ⟨-, rfl⟩ : s.key = ":hover" ∧ b = hovered := by
      simpa [listed, Value.ofInt] using hb
    exact firstBlock?_eq_none_iff.1 (by decide)

theorem reordered_turned : Reordered listed turned :=
  ⟨listed.entries.reverse, (List.reverse_perm _).symm,
    .cons ⟨rfl, .same _⟩ (.cons ⟨rfl, .block (s := .hover) rfl (List.reverse_perm _).symm⟩
      (.cons ⟨rfl, .same _⟩ (.cons ⟨rfl, .same _⟩ .nil)))⟩

theorem compile_reordered_turned :
    let e := (synthetic ⟨.inline, Pipeline.standard⟩).after (.compile hovered)
    Orderly listed ∧ Reordered listed turned ∧ e.options.mode ≠ .noop ∧
      e.options.pipeline = .standard ∧ e.sheet.isSynthetic = true ∧
      ∃ m m', (compile listed e).result = .ok m ∧ (compile turned e).result = .ok m' ∧
        m.same m' = true := by
  intro e
  have hoptions : e.options = ⟨.inline, Pipeline.standard⟩ := after_options _ _
  have hmode : e.options.mode ≠ .noop := by
    rw [hoptions]
    decide
  have hpipeline : e.options.pipeline = .standard := by rw [hoptions]
  have hsheet : e.sheet.isSynthetic = true := by decide +kernel
  obtain ⟨m, m', hm, hm', -, hsame, -, -⟩ :=
    compile_reordered e hmode hpipeline hsheet orderly_listed reordered_turned
  exact ⟨orderly_listed, reordered_turned, hmode, hpipeline, hsheet, m, m', hm, hm', hsame⟩

end Engine

end AtomicCss
