import AtomicCss.ClassMap
import AtomicCss.Declaration.Json
import AtomicCss.Proofs.Json.Nesting

/-!
# Declarations as they are read

A `Draft` is what can be written of a value without numbers: at every level a list of entries whose
names may repeat. The declaration it stands for (`Draft.value`) is the table in which its entries
are inserted in order, and this is what its text is read as, up to the limit on open brackets
(`Draft.parse_render`). A declaration without numbers has itself for a draft, so it is read back
from its own JSON (`Value.Numberless.parse_json`).
-/

namespace AtomicCss

open Json

/-- A value as it is written, numbers left out: nothing, a text, or entries under names that may
repeat. -/
inductive Draft
  | null
  | text (s : String)
  | nested (entries : List (String × Draft))

namespace Draft

mutual

/-- The draft as JSON. -/
def toJson : Draft → Json
  | null => .null
  | text s => .string s
  | nested entries => .object (membersOf entries)

/-- The entries of a draft as members. -/
def membersOf : List (String × Draft) → List (String × Json)
  | [] => []
  | (name, draft) :: rest => (name, draft.toJson) :: membersOf rest

end

mutual

/-- The value that is written: entries are inserted in order, at every level. -/
def value : Draft → Value
  | null => .null
  | text s => .text s
  | nested entries => .nested (Table.ofList (valuesOf entries))

/-- The values of entries, under the names as they are written. -/
def valuesOf : List (String × Draft) → List (String × Value)
  | [] => []
  | (name, draft) :: rest => (name, draft.value) :: valuesOf rest

end

theorem membersOf_eq_map (entries : List (String × Draft)) :
    membersOf entries = entries.map fun e => (e.1, e.2.toJson) := by
  induction entries with
  | nil => rfl
  | cons e rest ih => rw [membersOf, ih, List.map_cons]

theorem valuesOf_eq_map (entries : List (String × Draft)) :
    valuesOf entries = entries.map fun e => (e.1, e.2.value) := by
  induction entries with
  | nil => rfl
  | cons e rest ih => rw [valuesOf, ih, List.map_cons]

mutual

theorem plain_toJson : ∀ draft : Draft, Plain draft.toJson
  | null => .null
  | text s => .string s
  | nested entries => .object (plain_membersOf entries)

theorem plain_membersOf : ∀ entries : List (String × Draft), ∀ m ∈ membersOf entries, Plain m.2
  | [] => fun _ h => absurd h List.not_mem_nil
  | (_, draft) :: rest =>
    List.forall_mem_cons.2 ⟨plain_toJson draft, plain_membersOf rest⟩

end

mutual

/-- The JSON of a draft stands for the value that is written. -/
theorem ofJson?_toJson : ∀ draft : Draft, Value.ofJson? draft.toJson = some draft.value
  | null => rfl
  | text _ => rfl
  | nested entries => by
    rw [toJson, Value.ofJson?, ofMembers?_membersOf entries]
    rfl

theorem ofMembers?_membersOf : ∀ entries : List (String × Draft),
    Value.ofMembers? (membersOf entries) = some (valuesOf entries)
  | [] => rfl
  | (_, draft) :: rest => by
    rw [membersOf, Value.ofMembers?, ofJson?_toJson draft, ofMembers?_membersOf rest]
    rfl

end

/-! ## Reading -/

/-- A draft is read as its value if its brackets, with those that are open already, are not more
than the limit. -/
theorem gives_read (draft : Draft) {steps opened : Nat}
    (hsteps : draft.toJson.render.toList.length < steps) (hopened : opened ≤ depthLimit) :
    Gives (Value.read steps opened) draft.toJson.render.toList
      (okIf (opened + draft.toJson.depth ≤ depthLimit) draft.value) := by
  intro before behind hbefore hbehind
  have hread := draft.plain_toJson.gives_readValue hsteps hopened before behind hbefore hbehind
  unfold Value.read
  rw [hread]
  by_cases hfits : opened + draft.toJson.depth ≤ depthLimit
  · rw [okIf_pos hfits, okIf_pos hfits]
    simp only [Except.map, bind, Except.bind, draft.ofJson?_toJson]
    rfl
  · rw [okIf_neg hfits, okIf_neg hfits]
    rfl

theorem depth_nested_le_iff {entries : List (String × Draft)} {n : Nat} :
    (nested entries).toJson.depth ≤ n + 1 ↔ ∀ e ∈ entries, e.2.toJson.depth ≤ n := by
  rw [toJson, depth, Nat.add_le_add_iff_right, depthMembers_le_iff, membersOf_eq_map]
  exact List.forall_mem_map

theorem foldl_insert_value (entries : List (String × Draft)) (d : Declaration) :
    entries.foldl (fun d e => d.insert e.1 e.2.value) d = d.insertAll (valuesOf entries) := by
  rw [valuesOf_eq_map, Table.insertAll, List.foldl_map]

theorem parse_render (entries : List (String × Draft)) :
    Declaration.parse (nested entries).toJson.render =
      okIf ((nested entries).toJson.depth ≤ depthLimit) (Table.ofList (valuesOf entries)) := by
  have htext : (nested entries).toJson.render.toList =
      objectText [] (entries.map fun e => compactMember e.1 e.2.toJson.render.toList) := by
    rw [toJson, toList_render_object, membersOf_eq_map, List.map_map]
    rfl
  have hread := parse_compactObject (fun draft => draft.toJson.render.toList) value
    (fun draft => 1 + draft.toJson.depth ≤ depthLimit) (fun steps => Value.read steps 1)
    Table.insert htext (fun e _ steps hsteps => e.2.gives_read hsteps (by decide))
    (Table.empty : Declaration)
  have hdepth : (∀ e ∈ entries, 1 + e.2.toJson.depth ≤ depthLimit) ↔
      (nested entries).toJson.depth ≤ depthLimit := by
    have hlimit : depthLimit = 126 + 1 := rfl
    rw [hlimit, depth_nested_le_iff]
    exact forall₂_congr fun e _ => by omega
  rw [foldl_insert_value, okIf_congr hdepth] at hread
  exact hread

end Draft

/-! ## Declarations without numbers -/

/-- A value in which no number stands, at any level. -/
inductive Value.Numberless : Value → Prop
  | null : Numberless .null
  | text (s : String) : Numberless (.text s)
  | nested {d : Declaration} (h : ∀ e ∈ d.entries, Numberless e.2) : Numberless (.nested d)

namespace Value.Numberless

theorem exists_drafts {entries : List (String × Value)}
    (h : ∀ e ∈ entries, ∃ draft : Draft, draft.toJson = e.2.toJson ∧ draft.value = e.2) :
    ∃ drafts, Draft.membersOf drafts = (entries.map fun e => (e.1, e.2.toJson)) ∧
      Draft.valuesOf drafts = entries := by
  induction entries with
  | nil => exact ⟨[], rfl, rfl⟩
  | cons e rest ih =>
    obtain ⟨⟨draft, hjson, hvalue⟩, hrest⟩ := List.forall_mem_cons.1 h
    obtain ⟨drafts, hmembers, hvalues⟩ := ih hrest
    refine ⟨(e.1, draft) :: drafts, ?_, ?_⟩
    · rw [Draft.membersOf, hjson, hmembers, List.map_cons]
    · rw [Draft.valuesOf, hvalue, hvalues]

theorem exists_draft {v : Value} (h : v.Numberless) :
    ∃ draft : Draft, draft.toJson = v.toJson ∧ draft.value = v := by
  induction h with
  | null => exact ⟨.null, rfl, rfl⟩
  | text s => exact ⟨.text s, rfl, rfl⟩
  | @nested d _ ih =>
    obtain ⟨drafts, hmembers, hvalues⟩ := exists_drafts ih
    refine ⟨.nested drafts, ?_, ?_⟩
    · rw [Draft.toJson, hmembers, toJson_nested]
    · rw [Draft.value, hvalues, Table.ofList_entries]

theorem parse_json {d : Declaration} (h : (Value.nested d).Numberless)
    (hdepth : (Value.nested d).toJson.depth ≤ depthLimit) : Declaration.parse d.json = .ok d := by
  cases h with
  | nested hentries =>
    obtain ⟨drafts, hmembers, hvalues⟩ := exists_drafts fun e he => (hentries e he).exists_draft
    have hjson : (Draft.nested drafts).toJson = (Value.nested d).toJson := by
      rw [Draft.toJson, hmembers, toJson_nested]
    have hread := Draft.parse_render drafts
    rw [hjson, okIf_pos hdepth, hvalues, Table.ofList_entries] at hread
    exact hread

end Value.Numberless

/-! ## Class maps -/

namespace ClassMap

theorem table_foldl_insert (pairs : List (String × String)) (m : ClassMap) :
    (pairs.foldl (fun m p => m.insert p.1 p.2) m).table = m.table.insertAll pairs := by
  induction pairs generalizing m with
  | nil => rfl
  | cons p rest ih => exact ih (m.insert p.1 p.2)

theorem parse_render (pairs : List (String × String)) :
    parse (Json.object (pairs.map fun p => (p.1, .string p.2))).render = .ok (ofList pairs) := by
  have htext : (Json.object (pairs.map fun p => (p.1, .string p.2))).render.toList =
      objectText [] (pairs.map fun p => compactMember p.1 (quotedBy escapeChar p.2)) := by
    rw [toList_render_object, List.map_map]
    refine congrArg (objectText []) (List.map_congr_left fun p _ => ?_)
    exact congrArg (compactMember p.1) (toList_quote p.2)
  have hread := parse_compactObject (quotedBy escapeChar) (fun s => s) (fun _ => True)
    (fun _ => stringValue) insert htext
    (fun p _ _ _ => (spells_escapeChar.stringText p.2).gives) empty
  have hmap : pairs.foldl (fun m p => m.insert p.1 p.2) empty = ofList pairs :=
    ext_table (table_foldl_insert pairs empty)
  rw [okIf_pos fun _ _ => trivial, hmap] at hread
  exact hread

end ClassMap

/-! ## Reading and writing -/

/-- What is written without numbers is read as if its members were inserted in order, at every
level: a name keeps its first place and takes its last value. More than 127 brackets inside one
another are refused. So a declaration without numbers is read back as it is, and an object of
strings is read as the class map collected from its members. -/
theorem reading_inserts_in_order :
    (∀ entries : List (String × Draft),
      Declaration.parse (Draft.nested entries).toJson.render =
        if (Draft.nested entries).toJson.depth ≤ 127 then
          .ok (Table.ofList (Draft.valuesOf entries))
        else .error .malformed) ∧
    (∀ entries : List (String × Value),
      (Table.ofList entries).names = (entries.map Prod.fst).eraseDups ∧
        ∀ name, (Table.ofList entries).get? name = entries.reverse.lookup name) ∧
    (∀ d : Declaration, (Value.nested d).Numberless → (Value.nested d).toJson.depth ≤ 127 →
      Declaration.parse d.json = .ok d) ∧
    ∀ pairs : List (String × String),
      ClassMap.parse (Json.object (pairs.map fun p => (p.1, .string p.2))).render =
        .ok (ClassMap.ofList pairs) :=
  ⟨Draft.parse_render, fun entries => ⟨Table.names_ofList entries, Table.get?_ofList entries⟩,
    fun _ h hdepth => h.parse_json hdepth, ClassMap.parse_render⟩

/-- Entries with a number of declarations inside one another. -/
def Draft.tower : Nat → List (String × Draft)
  | 0 => []
  | n + 1 => [("a", .nested (tower n))]

theorem Draft.depth_tower (n : Nat) : (Draft.nested (Draft.tower n)).toJson.depth = n + 1 := by
  induction n with
  | zero => rfl
  | succ n ih =>
    show max (Draft.nested (Draft.tower n)).toJson.depth 0 + 1 = _
    rw [ih, Nat.max_zero]

/-- A declaration with a quote, a null and a declaration of its own. -/
def Declaration.quoted : Declaration :=
  .ofNodup [("content", .text "\""), (":hover", .nested (.ofNodup [("content", .null)] (by decide)))]
    (by decide)

theorem numberless_quoted : (Value.nested Declaration.quoted).Numberless := by
  refine .nested fun e he => ?_
  rcases List.mem_pair.1 he with rfl | rfl
  · exact .text _
  · refine .nested fun e he => ?_
    obtain rfl := List.mem_singleton.1 he
    exact .null

theorem reading_inserts_in_order_at_the_limit :
    Declaration.parse (Draft.nested (Draft.tower 126)).toJson.render =
      .ok (Table.ofList (Draft.valuesOf (Draft.tower 126))) ∧
    Declaration.parse (Draft.nested (Draft.tower 127)).toJson.render = .error .malformed ∧
    (Value.nested Declaration.quoted).Numberless ∧
    (Value.nested Declaration.quoted).toJson.depth ≤ 127 ∧
    Declaration.parse Declaration.quoted.json = .ok Declaration.quoted := by
  have hdepth : (Value.nested Declaration.quoted).toJson.depth ≤ 127 := by decide
  have hread := reading_inserts_in_order.2.2.1 _ numberless_quoted hdepth
  refine ⟨?_, ?_, numberless_quoted, hdepth, hread⟩
  · rw [reading_inserts_in_order.1, Draft.depth_tower]
    rfl
  · rw [reading_inserts_in_order.1, Draft.depth_tower]
    rfl

end AtomicCss
