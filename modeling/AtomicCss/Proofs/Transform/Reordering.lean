import AtomicCss.Proofs.Transform.NormalForm

/-!
# Declarations in another order

The standard pipeline asks a declaration only for what stands under certain names. So declarations
in which the same is found under every name are still such after it (`Alike.standard_run`): the
longhands and the units of one are those of the other, wherever they stand. What stands under a name
with a colon, as that of a block, is not touched (`get?_standard_run_of_colon`).
-/

namespace AtomicCss

/-! ## Orders -/

/-- The same value under a name, or the same block with its entries in another order. -/
inductive SameUnder (name : String) : Value → Value → Prop
  | same (v : Value) : SameUnder name v v
  | block {s : Pseudo} {b b' : Declaration} (hname : name = s.key) (h : b.entries.Perm b'.entries) :
      SameUnder name (.nested b) (.nested b')

/-- The same entries in another order, also inside the blocks. -/
def Reordered (d d' : Declaration) : Prop :=
  ∃ entries, d.entries.Perm entries ∧
    List.Forall₂ (fun e e' => e.1 = e'.1 ∧ SameUnder e.1 e.2 e'.2) entries d'.entries

/-- The same is found under every name. -/
def Alike (d d' : Declaration) : Prop :=
  ∀ name, Option.Rel (SameUnder name) (d.get? name) (d'.get? name)

theorem SameUnder.symm {name : String} {v v' : Value} (h : SameUnder name v v') :
    SameUnder name v' v := by
  cases h with
  | same => exact .same v
  | block hname h => exact .block hname h.symm

section alike

variable {d d' : Declaration}

theorem Alike.symm (h : Alike d d') : Alike d' d := by
  intro name
  have hname := h name
  generalize d.get? name = found, d'.get? name = found' at hname
  cases hname with
  | none => exact .none
  | some hv => exact .some hv.symm

theorem Alike.get?_eq_some (h : Alike d d') {name : String} {v : Value}
    (hv : d.get? name = some v) : ∃ v', d'.get? name = some v' ∧ SameUnder name v v' := by
  have hname := h name
  rw [hv] at hname
  generalize d'.get? name = found' at hname
  cases hname with
  | some hv => exact ⟨_, rfl, hv⟩

theorem lookup_rel_of_forall₂ {entries entries' : List (String × Value)}
    (h : List.Forall₂ (fun e e' => e.1 = e'.1 ∧ SameUnder e.1 e.2 e'.2) entries entries')
    (name : String) :
    Option.Rel (SameUnder name) (entries.lookup name) (entries'.lookup name) := by
  induction h with
  | nil => exact .none
  | @cons e e' entries entries' he _ ih =>
    obtain ⟨first, v⟩ := e
    obtain ⟨first', v'⟩ := e'
    obtain ⟨rfl, hv⟩ : first = first' ∧ SameUnder first v v' := he
    by_cases hname : name = first
    · rw [hname, List.lookup_cons_self, List.lookup_cons_self]
      exact .some hv
    · rw [List.lookup_cons, List.lookup_cons, beq_eq_false_iff_ne.2 hname]
      exact ih

theorem Reordered.alike (h : Reordered d d') : Alike d d' := by
  obtain ⟨entries, hperm, hall⟩ := h
  intro name
  rw [Table.get?, Table.lookup_of_perm d.nodup_entries hperm]
  exact lookup_rel_of_forall₂ hall name

theorem alike_of_perm (h : d.entries.Perm d'.entries) : Alike d d' :=
  Reordered.alike ⟨_, h, List.forall₂_same.2 fun e _ => ⟨rfl, .same e.2⟩⟩

end alike

/-! ## Writing and erasing -/

section transforms

variable {d d' : Declaration} (h : Alike d d')

include h

theorem Alike.erase (name : String) : Alike (d.erase name) (d'.erase name) := by
  intro other
  rw [Table.get?_erase, Table.get?_erase]
  split
  · exact .none
  · exact h other

theorem Alike.insert (name : String) (v : Value) : Alike (d.insert name v) (d'.insert name v) := by
  intro other
  rw [Table.get?_insert, Table.get?_insert]
  split
  · exact .some (.same v)
  · exact h other

theorem Alike.insertAll (entries : List (String × Value)) :
    Alike (d.insertAll entries) (d'.insertAll entries) :=
  List.foldl_rel h fun e _ _ _ h => h.insert e.1 e.2

/-- Blocks have no sides, so both shorthands give the same to the sides. -/
theorem Alike.expand (f : BoxFamily) : Alike (f.expand d) (f.expand d') := by
  have hsides : (d.get? f.shorthand).bind BoxFamily.sides? =
      (d'.get? f.shorthand).bind BoxFamily.sides? := by
    have hname := h f.shorthand
    generalize d.get? f.shorthand = found, d'.get? f.shorthand = found' at hname
    cases hname with
    | none => rfl
    | some hv => cases hv <;> rfl
  unfold BoxFamily.expand
  rw [hsides]
  split
  · exact h
  · exact (h.erase f.shorthand).insertAll _

theorem Alike.inferUnit (name unit : String) :
    Alike (inferUnit d name unit) (inferUnit d' name unit) := by
  have hname := h name
  unfold AtomicCss.inferUnit
  generalize d.get? name = found, d'.get? name = found' at hname ⊢
  cases hname with
  | none => exact h
  | @some v v' hv =>
    cases hv with
    | block => exact h
    | same =>
      cases v with
      | number x =>
        show Alike (if _ then _ else _) (if _ then _ else _)
        split
        · exact h.insert name _
        · exact h
      | _ => exact h

theorem Alike.standard_run : Alike (Pipeline.standard.run d) (Pipeline.standard.run d') := by
  rw [AtomicCss.standard_run, AtomicCss.standard_run]
  have hbox : Alike (expandBoxShorthands d) (expandBoxShorthands d') :=
    List.foldl_rel h fun f _ _ _ h => h.expand f
  exact List.foldl_rel hbox fun e _ _ _ h => h.inferUnit e.1 e.2

end transforms

/-! ## Names -/

theorem BoxFamily.get?_expand_of_ne {f : BoxFamily} {name : String} (hshort : name ≠ f.shorthand)
    (hlong : ∀ side, name ≠ f.longhand side) (d : Declaration) :
    (f.expand d).get? name = d.get? name := by
  unfold BoxFamily.expand
  split
  · rfl
  · simp [Table.insertAll, Side.all, Table.get?_insert, Table.get?_erase, hshort, hlong]

theorem BoxFamily.colon_not_mem {f : BoxFamily} (hf : f ∈ BoxFamily.all) :
    ':' ∉ f.shorthand.toList ∧ ∀ side, ':' ∉ (f.longhand side).toList := by
  have hall : ∀ f ∈ BoxFamily.all, ':' ∉ f.shorthand.toList ∧
      ∀ side ∈ Side.all, ':' ∉ (f.longhand side).toList := by decide
  exact ⟨(hall f hf).1, fun side => (hall f hf).2 side side.mem_all⟩

theorem colon_not_mem_length {e : String × String} (he : e ∈ lengthUnits) : ':' ∉ e.1.toList := by
  have hall : ∀ e ∈ lengthUnits, ':' ∉ e.1.toList := by decide
  exact hall e he

/-- Under a name with a colon stands what stood there before. -/
theorem get?_standard_run_of_colon {name : String} (h : ':' ∈ name.toList) (d : Declaration) :
    (Pipeline.standard.run d).get? name = d.get? name := by
  have hne : ∀ other : String, ':' ∉ other.toList → name ≠ other := fun other ho he => ho (he ▸ h)
  rw [standard_run]
  have hbox : (expandBoxShorthands d).get? name = d.get? name :=
    foldl_keeps (Q := fun d' => d'.get? name = d.get? name) (fun f hf d' hd' =>
      (BoxFamily.get?_expand_of_ne (hne _ (BoxFamily.colon_not_mem hf).1)
        (fun side => hne _ ((BoxFamily.colon_not_mem hf).2 side)) d').trans hd') rfl
  exact foldl_keeps (Q := fun d' => d'.get? name = d.get? name) (fun e he d' hd' =>
    (get?_inferUnit d' (hne _ (colon_not_mem_length he)) e.2).trans hd') hbox

end AtomicCss
