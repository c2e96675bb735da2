import Mathlib.Data.List.Induction
import AtomicCss.Declaration
import AtomicCss.Proofs.Table

/-!
# What a declaration holds after its edits

What an edit does to one name is a `Touch`, and the touches of a name in order tell what it holds
after them (`latest?`). Look-up after any history finds just that (`get?_edited`), as one edit
changes both in the same way (`Edit.get?_next`, `latest?_snoc`). With the laws of single edits this
makes a declaration an ordered map over every history (`Declaration.ordered_over_history`).
-/

namespace AtomicCss

namespace Table

variable {α : Type}

/-! ## What a name holds -/

/-- What an edit does to one name. -/
inductive Touch (α : Type)
  | written (value : α)
  | overwritten (value : α)
  | taken

/-- The value that a touch leaves, if it leaves one. -/
def Touch.value? : Touch α → Option α
  | written value => some value
  | overwritten value => some value
  | taken => none

def Touch.isWrite : Touch α → Bool
  | written _ => true
  | _ => false

/-- What an edit does to a name; of several entries under the name the last one counts. -/
def Edit.touch? (name : String) : Edit α → Option (Touch α)
  | put other value => if other = name then some (.written value) else none
  | take other => if other = name then some .taken else none
  | overwrite other value => if other = name then some (.overwritten value) else none
  | putAll entries => (entries.reverse.lookup name).map .written

/-- What has been done to a name since it was last taken, the latest first. -/
def recent (name : String) (history : List (Edit α)) : List (Touch α) :=
  (history.filterMap (Edit.touch? name)).reverse.takeWhile fun touch => touch.value?.isSome

/-- The value of the latest writing or overwriting of a name since it was last taken. A name that
has not been written since then is not there to be overwritten. -/
def latest? (name : String) (history : List (Edit α)) : Option α :=
  if (recent name history).any Touch.isWrite then
    (recent name history).head?.bind Touch.value?
  else none

/-- What a name holds after a touch. -/
def Touch.result : Touch α → Option α → Option α
  | written value, _ => some value
  | overwritten value, held => held.map fun _ => value
  | taken, _ => none

theorem recent_snoc (name : String) (history : List (Edit α)) (edit : Edit α) :
    recent name (history ++ [edit]) =
      match edit.touch? name with
      | none => recent name history
      | some touch => if touch.value?.isSome then touch :: recent name history else [] := by
  rw [recent, List.filterMap_append, List.filterMap_cons, List.filterMap_nil]
  cases edit.touch? name with
  | none => rw [List.append_nil, recent]
  | some touch =>
    rw [List.reverse_append, List.reverse_singleton, List.singleton_append, List.takeWhile_cons,
      recent]

/-- A name that has been written since it was last taken holds a value. -/
theorem latest?_of_recent {name : String} {history : List (Edit α)}
    (h : (recent name history).any Touch.isWrite = true) : (latest? name history).isSome = true := by
  rw [latest?, if_pos h]
  cases hrecent : recent name history with
  | nil =>
    rw [hrecent] at h
    cases h
  | cons touch rest =>
    have hall : (recent name history).all fun touch => touch.value?.isSome := List.all_takeWhile
    rw [hrecent, List.all_cons, Bool.and_eq_true] at hall
    exact hall.1

theorem latest?_snoc (name : String) (history : List (Edit α)) (edit : Edit α) :
    latest? name (history ++ [edit]) =
      (edit.touch? name).elim (latest? name history)
        fun touch => touch.result (latest? name history) := by
  have hsnoc := recent_snoc name history edit
  rw [latest?, hsnoc]
  cases edit.touch? name with
  | none => rfl
  | some touch =>
    cases touch with
    | written value => rfl
    | taken => rfl
    | overwritten value =>
      show (if (recent name history).any Touch.isWrite then some value else none) = _
      by_cases h : (recent name history).any Touch.isWrite = true
      · obtain ⟨held, hheld⟩ := Option.isSome_iff_exists.1 (latest?_of_recent h)
        rw [if_pos h, hheld]
        rfl
      · rw [if_neg h, latest?, if_neg h]
        rfl

theorem Touch.result_if (touch : Touch α) (other name : String) (held : Option α) :
    (if other = name then some touch else none).elim held (fun touch => touch.result held) =
      if name = other then touch.result held else held := by
  by_cases h : other = name
  · rw [if_pos h, if_pos h.symm]
    rfl
  · rw [if_neg h, if_neg (Ne.symm h)]
    rfl

theorem Edit.get?_next (edit : Edit α) (t : Table α) (name : String) :
    (edit.next t).get? name =
      (edit.touch? name).elim (t.get? name) fun touch => touch.result (t.get? name) := by
  cases edit with
  | put other value =>
    rw [next, get?_insert, touch?, Touch.result_if]
    rfl
  | take other =>
    rw [next, get?_erase, touch?, Touch.result_if]
    rfl
  | overwrite other value =>
    rw [next, get?_update, touch?, Touch.result_if]
    rfl
  | putAll entries =>
    rw [next, get?_insertAll, touch?]
    cases entries.reverse.lookup name with
    | none => rfl
    | some value => rfl

/-- After a history that begins with nothing, look-up finds the latest value of a name. -/
theorem get?_edited (history : List (Edit α)) (name : String) :
    (empty.edited history).get? name = latest? name history := by
  -- From the end, as an edit acts on what the whole history before it has left.
  induction history using List.reverseRecOn with
  | nil => rfl
  | append_singleton history edit ih =>
    have hlast : empty.edited (history ++ [edit]) = edit.next (empty.edited history) := by
      rw [edited_append, edited_cons]
      rfl
    rw [hlast, edit.get?_next, ih, latest?_snoc]

end Table

/-! ## Declarations -/

open Table

/-- A declaration is an ordered map over every history, in whatever way it is built and whatever
edits it has gone through. Its names are distinct, and look-up finds the latest value of a name since
it was last removed. Every edit answers what look-up finds before it, keeps the order of the names
that it leaves present, and puts a new name last, also one that has just been removed. All ways of
building give the same entries in the same order: every name at its first place, with its last
value. -/
theorem Declaration.ordered_over_history (way : Building) (entries : List (String × Value))
    (history : List (Edit Value)) :
    let d : Declaration := (way.table entries).edited history
    d.names.Nodup ∧
    (∀ name, d.get? name = latest? name (.putAll entries :: history)) ∧
    (∀ name value, (d.put name value).1 = d.get? name ∧ (d.take name).1 = d.get? name ∧
      (d.overwrite name value).1 = d.get? name) ∧
    (∀ (edit : Edit Value) (a b : String), a ∈ d.names → b ∈ d.names →
      a ∈ (edit.apply d).2.names → b ∈ (edit.apply d).2.names →
      ((edit.apply d).2.Precedes a b ↔ d.Precedes a b)) ∧
    (∀ name value, name ∉ d.names → (d.put name value).2.entries = d.entries ++ [(name, value)]) ∧
    (∀ name value, ((d.take name).2.put name value).2.entries =
      (d.take name).2.entries ++ [(name, value)]) ∧
    (way.table entries).entries = (entries.map Prod.fst).eraseDups.filterMap (fun name =>
      (entries.reverse.lookup name).map (name, ·)) ∧
    ∀ other : Building, (other.table entries).entries = (way.table entries).entries := by
  intro d
  refine ⟨d.distinct, fun name => ?_, fun name value => ⟨?_, ?_, ?_⟩, fun edit a b ha hb ha' hb' => ?_,
    fun name value hname => entries_put_of_not_mem hname value, fun name value => ?_, ?_,
    fun other => ?_⟩
  · rw [← get?_edited, ← way.edited_eq]
  · rw [put_eq]
  · rw [take_eq]
  · rw [overwrite_eq]
  · rw [edit.apply_eq] at ha' hb' ⊢
    exact edit.precedes_next_iff ha hb ha' hb'
  · have htaken : (d.take name).2 = d.erase name := congrArg Prod.snd (take_eq d name)
    have hgone : name ∉ (d.erase name).names := by
      rw [names_erase]
      simp
    rw [htaken]
    exact entries_put_of_not_mem hgone value
  · rw [way.table_eq, entries_ofList]
  · rw [other.table_eq, way.table_eq]

/-- A name that is removed, missed by an overwriting and written again. -/
def rewritten : List (Edit Value) :=
  [.take "color", .overwrite "color" (.text "green"),
    .putAll [("width", .text "2px"), ("color", .text "teal"), ("color", .text "navy")],
    .overwrite "margin" (.text "3px")]

theorem Declaration.ordered_over_history_rewritten :
    let d : Declaration := (Building.collecting.table
      [("color", .text "red"), ("margin", .text "1px")]).edited rewritten
    d.names = ["margin", "width", "color"] ∧ "height" ∉ d.names ∧
      (d.get? "color").bind Value.text? = some "navy" ∧
      (d.put "height" (.text "1em")).2.entries = d.entries ++ [("height", .text "1em")] ∧
      (((Edit.take "width").apply d).2.Precedes "margin" "color" ↔
        d.Precedes "margin" "color") := by
  intro d
  obtain ⟨-, hget, -, horder, hlast, -⟩ := Declaration.ordered_over_history .collecting
    [("color", .text "red"), ("margin", .text "1px")] rewritten
  have hnew : "height" ∉ d.names := by decide
  refine ⟨by decide, hnew, ?_, hlast _ _ hnew, horder (.take "width") _ _ ?_ ?_ ?_ ?_⟩
  · rw [hget]
    decide
  all_goals decide

end AtomicCss
