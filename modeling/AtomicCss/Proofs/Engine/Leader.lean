import AtomicCss.Proofs.Engine.Command

/-!
# Which rule a class gets

The identifier of a class is made from a property and a value, its selector also from the state. So
entries that differ only in the state share a class, and the class gets the rule of the entry that is
met first. An entry of an unknown class is written behind all other rules as long as of every rule the
class is known (`Backed`). `Written os e` says that the engine has met the entries `os` and that its
sheet has taken the rule of the first of each class (`leaders`). It is kept by every step of a
compilation, and so it holds after every run of compilations on a fresh synthetic sheet
(`written_run`). The rules of the sheet and the identifiers then stand side by side
(`Written.side_by_side`).
-/

namespace AtomicCss

/-- The rule stands in the sheet. -/
def Sheet.Holds : Sheet → String → Prop
  | .synthetic rules, rule => rule ∈ rules
  | .host _, _ => False

instance (s : Sheet) (rule : String) : Decidable (s.Holds rule) :=
  match s with
  | .synthetic rules => inferInstanceAs (Decidable (rule ∈ rules))
  | .host _ => inferInstanceAs (Decidable False)

namespace Engine

/-! ## First entries -/

/-- Takes an entry unless there is one of its class. -/
def enter (ls : List Occurrence) (o : Occurrence) : List Occurrence :=
  if o.cls ∈ ls.map Occurrence.cls then ls else ls ++ [o]

/-- The first entry of every class. -/
def leaders (os : List Occurrence) : List Occurrence := os.foldl enter []

theorem leaders_snoc (os : List Occurrence) (o : Occurrence) :
    leaders (os ++ [o]) = enter (leaders os) o := by
  simp [leaders]

theorem leaders_snoc_of_met {os : List Occurrence} {o : Occurrence}
    (h : o.cls ∈ (leaders os).map Occurrence.cls) : leaders (os ++ [o]) = leaders os := by
  rw [leaders_snoc, enter, if_pos h]

theorem leaders_snoc_of_new {os : List Occurrence} {o : Occurrence}
    (h : o.cls ∉ (leaders os).map Occurrence.cls) : leaders (os ++ [o]) = leaders os ++ [o] := by
  rw [leaders_snoc, enter, if_neg h]

theorem mem_cls_leaders {os : List Occurrence} {id : String} :
    id ∈ (leaders os).map Occurrence.cls ↔ ∃ o ∈ os, o.cls = id := by
  induction os using List.reverseRecOn with
  | nil => simp [leaders]
  | append_singleton os o ih =>
    have hsplit : (∃ q ∈ os ++ [o], q.cls = id) ↔ (∃ q ∈ os, q.cls = id) ∨ o.cls = id := by
      simp [or_and_right, exists_or]
    rw [hsplit, ← ih]
    by_cases h : o.cls ∈ (leaders os).map Occurrence.cls
    · rw [leaders_snoc_of_met h]
      constructor
      · exact .inl
      · rintro (h' | rfl)
        · exact h'
        · exact h
    · rw [leaders_snoc_of_new h, List.map_append, List.mem_append, List.map_singleton,
        List.mem_singleton]
      exact or_congr_right eq_comm

theorem mem_leaders_iff {os : List Occurrence} {o : Occurrence} :
    o ∈ leaders os ↔ os.find? (fun q => q.cls = o.cls) = some o := by
  induction os using List.reverseRecOn with
  | nil => simp [leaders]
  | append_singleton os x ih =>
    rw [List.find?_append]
    by_cases hx : x.cls ∈ (leaders os).map Occurrence.cls
    · -- The class of `x` has been met, so `x` changes neither side.
      rw [leaders_snoc_of_met hx, ih]
      cases hf : os.find? (fun q => q.cls = o.cls) with
      | some y => rw [Option.some_or]
      | none =>
        obtain ⟨y, hy, hyx⟩ := mem_cls_leaders.1 hx
        have hne : x.cls ≠ o.cls := by
          intro h
          have := List.find?_eq_none.1 hf y hy
          simp only [hyx, h, decide_true, not_true_eq_false] at this
        rw [Option.none_or, List.find?_singleton, decide_eq_false hne]
        rfl
    · rw [leaders_snoc_of_new hx, List.mem_append, ih, List.mem_singleton]
      cases hf : os.find? (fun q => q.cls = o.cls) with
      | none =>
        rw [Option.none_or, List.find?_singleton]
        by_cases h : x.cls = o.cls
        · rw [decide_eq_true h]
          simp only [reduceCtorEq, false_or, if_true, Option.some.injEq]
          exact eq_comm
        · rw [decide_eq_false h]
          simp only [reduceCtorEq, false_or, Bool.false_eq_true, if_false, iff_false]
          intro he
          exact h (he ▸ rfl)
      | some y =>
        have hy : y.cls = o.cls := by simpa using List.find?_some hf
        have hne : o ≠ x := by
          intro he
          exact hx (mem_cls_leaders.2 ⟨y, List.mem_of_find?_eq_some hf, he ▸ hy⟩)
        rw [Option.some_or]
        exact or_iff_left hne

/-! ## Compilation on a synthetic sheet -/

/-- The sheet holds these rules, and of each one the class is known. -/
structure Backed (rules : OrderedSet) (e : Engine) : Prop where
  sheet : e.sheet = .synthetic rules
  known : ∀ rule ∈ rules, ∃ o : Occurrence, o.rule = rule ∧ o.cls ∈ e.injected

theorem backed_empty {e : Engine} (h : e.sheet = Sheet.empty) : Backed OrderedSet.empty e :=
  ⟨h, fun rule hrule => absurd hrule (OrderedSet.not_mem_empty rule)⟩

section backed

variable {rules : OrderedSet} {e : Engine} (h : Backed rules e)

include h

theorem Backed.inject_fresh {o : Occurrence} (hk : o.cls ∉ e.injected) :
    (inject (suffix o.state) o.name o.value e).result = .ok o.cls ∧
      (inject (suffix o.state) o.name o.value e).engine.injected = e.injected.insert o.cls ∧
      Backed (rules.insert o.rule) (inject (suffix o.state) o.name o.value e).engine ∧
      (rules.insert o.rule).items = rules.items ++ [o.rule] := by
  have hanswer : e.answer o.rule = none := by rw [answer, h.sheet]; rfl
  obtain ⟨hr, he⟩ := inject_taken hk hanswer
  have hnew : o.rule ∉ rules := by
    intro hmem
    obtain ⟨q, hrule, hq⟩ := h.known o.rule hmem
    exact hk ((Occurrence.rule_inj hrule).1 ▸ hq)
  refine ⟨hr, by rw [he]; rfl, ?_, OrderedSet.items_insert_of_not_mem hnew⟩
  rw [he]
  refine ⟨by rw [sending, h.sheet]; rfl, fun rule hrule => ?_⟩
  rcases OrderedSet.mem_insert.1 hrule with hrule | rfl
  · obtain ⟨q, hq, hcls⟩ := h.known rule hrule
    exact ⟨q, hq, OrderedSet.mem_insert.2 (.inl hcls)⟩
  · exact ⟨o, rfl, OrderedSet.mem_insert.2 (.inr rfl)⟩

end backed

/-- The engine has met the entries: of each class it holds the identifier and its sheet the rule of
the first entry, in the same order. -/
structure Written (os : List Occurrence) (e : Engine) : Prop where
  injected : e.injected.items = (leaders os).map Occurrence.cls
  rules : ∃ rules, e.sheet = .synthetic rules ∧ rules.items = (leaders os).map Occurrence.rule

theorem written_synthetic (options : Options) : Written [] (synthetic options) :=
  ⟨rfl, OrderedSet.empty, rfl, rfl⟩

/-- One entry: its class is the result, and it is written if it is the first of its class. -/
theorem Written.inject {os : List Occurrence} {e : Engine} (h : Written os e) (o : Occurrence) :
    (inject (suffix o.state) o.name o.value e).result = .ok o.cls ∧
      Written (os ++ [o]) (inject (suffix o.state) o.name o.value e).engine := by
  have hmem : ∀ q : Occurrence, q.cls ∈ e.injected ↔ q.cls ∈ (leaders os).map Occurrence.cls := by
    intro q
    rw [OrderedSet.mem_def, h.injected]
  obtain ⟨rules, hsheet, hitems⟩ := h.rules
  by_cases hk : o.cls ∈ e.injected
  · rw [inject_known hk]
    refine ⟨rfl, ?_, rules, hsheet, ?_⟩
    · rw [leaders_snoc_of_met ((hmem o).1 hk)]
      exact h.injected
    · rw [leaders_snoc_of_met ((hmem o).1 hk)]
      exact hitems
  · have hbacked : Backed rules e := by
      refine ⟨hsheet, fun rule hrule => ?_⟩
      rw [OrderedSet.mem_def, hitems] at hrule
      obtain ⟨q, hq, rfl⟩ := List.mem_map.1 hrule
      exact ⟨q, rfl, (hmem q).2 (List.mem_map_of_mem hq)⟩
    obtain ⟨hr, hinjected, hwritten, hbehind⟩ := hbacked.inject_fresh hk
    have hlead := leaders_snoc_of_new (mt (hmem o).2 hk)
    refine ⟨hr, ?_, rules.insert o.rule, hwritten.sheet, ?_⟩
    · rw [hinjected, OrderedSet.items_insert_of_not_mem hk, hlead, List.map_append, h.injected]
      rfl
    · rw [hbehind, hlead, List.map_append, hitems]
      rfl

/-- A walk meets its entries up to the first block inside a block, at which alone it fails. -/
theorem Written.walk {os : List Occurrence} {e : Engine} (h : Written os e) (vs : List Visit)
    (classes : ClassMap) :
    Written (os ++ entered vs) (walk vs classes e).engine ∧
      (¬ Nests vs → ∃ m, (walk vs classes e).result = .ok m) := by
  induction vs generalizing os classes e with
  | nil =>
    rw [entered, List.append_nil]
    exact ⟨h, fun _ => ⟨classes, rfl⟩⟩
  | cons v rest ih =>
    cases v with
    | nesting outer inner =>
      rw [entered, List.append_nil]
      exact ⟨h, fun hn => absurd (nests_nesting outer inner rest) hn⟩
    | entry o =>
      obtain ⟨hr, hw⟩ := h.inject o
      obtain ⟨hw', hr'⟩ := ih hw (classes.insert o.key o.cls)
      rw [Engine.walk, Action.bind_apply_of_ok hr, entered, List.append_cons]
      exact ⟨hw', fun hn => hr' (mt nests_entry.2 hn)⟩

section compile

variable {os : List Occurrence} {e : Engine} (h : Written os e) (hm : e.options.mode ≠ .noop)

include h hm

theorem Written.compile (d : Declaration) :
    Written (os ++ entered (visits e.options.pipeline d)) (compile d e).engine ∧
      (¬ Nests (visits e.options.pipeline d) ↔ ∃ m, (compile d e).result = .ok m) := by
  rw [(compile_eq_walk hm).1, (compile_eq_walk hm).2]
  obtain ⟨hw, hr⟩ := h.walk (visits e.options.pipeline d) ClassMap.empty
  refine ⟨hw, hr, ?_⟩
  rintro ⟨m, hok⟩
  exact (walk_ok hok).1

theorem Written.compileAll (namespaces : List (String × Declaration)) :
    Written (os ++ entered (namespaces.flatMap fun n => visits e.options.pipeline n.2))
      (compileAll namespaces e).engine := by
  induction namespaces generalizing os e with
  | nil =>
    rw [List.flatMap_nil, entered, List.append_nil]
    exact h
  | cons n rest ih =>
    obtain ⟨hw, hr⟩ := h.compile hm n.2
    rw [Engine.compileAll, List.flatMap_cons]
    cases hx : (Engine.compile n.2 e).result with
    | error failure =>
      have hn : Nests (visits e.options.pipeline n.2) := by
        by_contra hn
        obtain ⟨m, hok⟩ := hr.1 hn
        rw [hx] at hok
        cases hok
      rw [Action.bind_apply_of_error hx, entered_append_of_nests hn]
      exact hw
    | ok m =>
      have ho := compile_options n.2 e
      have hrest := ih hw (by rwa [ho])
      rw [ho, List.append_assoc, ← entered_append (hr.2 ⟨m, hx⟩)] at hrest
      rw [Action.bind_apply_of_ok hx]
      simp only [bind_pure_comp, Action.map_engine]
      exact hrest

end compile

end Engine

/-! ## Runs -/

/-- The entries that a command meets if the sheet refuses nothing. -/
def Command.met (p : Pipeline) : Command → List Engine.Occurrence
  | compile d => Engine.entered (Engine.visits p d)
  | create namespaces => Engine.entered (namespaces.flatMap fun n => Engine.visits p n.2)
  | _ => []

namespace Engine

/-- The entries that a run meets if the sheet refuses nothing. -/
def history (p : Pipeline) (cs : List Command) : List Occurrence := cs.flatMap (·.met p)

theorem Written.after {os : List Occurrence} {e : Engine} (h : Written os e)
    (hm : e.options.mode ≠ .noop) {c : Command} (hc : c.compiles = true) :
    Written (os ++ c.met e.options.pipeline) (e.after c) := by
  cases c with
  | compile d =>
    rw [after_compile]
    exact (h.compile hm d).1
  | create namespaces =>
    rw [after_create]
    exact h.compileAll hm namespaces
  | _ => cases hc

theorem Written.afterAll {os : List Occurrence} {e : Engine} (h : Written os e)
    (hm : e.options.mode ≠ .noop) {cs : List Command} (hc : ∀ c ∈ cs, c.compiles = true) :
    Written (os ++ history e.options.pipeline cs) (e.afterAll cs) := by
  induction cs generalizing os e with
  | nil =>
    rw [history, List.flatMap_nil, List.append_nil]
    exact h
  | cons c rest ih =>
    have hw := h.after hm (hc c List.mem_cons_self)
    have ho := after_options e c
    have hrest := ih hw (by rwa [ho]) fun c hc' => hc c (List.mem_cons_of_mem _ hc')
    rw [ho, List.append_assoc] at hrest
    exact hrest

/-- After every run of compilations on a fresh sheet, the sheet holds of every class the rule of the
entry that was met first. -/
theorem written_run (options : Options) (hm : options.mode ≠ .noop) {cs : List Command}
    (hc : ∀ c ∈ cs, c.compiles = true) :
    Written (history options.pipeline cs) ((synthetic options).afterAll cs) :=
  (written_synthetic options).afterAll hm hc

/-! ## Rules and identifiers side by side -/

theorem mem_of_mem_leaders {os : List Occurrence} {o : Occurrence} (h : o ∈ leaders os) : o ∈ os :=
  List.mem_of_find?_eq_some (mem_leaders_iff.1 h)

theorem Occurrence.rule_text (o : Occurrence) :
    o.rule = "." ++ o.cls ++ suffix o.state ++ " \x7b " ++ PropertyName.css o.name ++ ": " ++
      o.value.render ++ "; \x7d" := by
  have hend : "; \x7d" = ";" ++ " \x7d" := rfl
  rw [rule, Rule.ofClass, Rule.entry, hend]
  simp only [String.append_assoc]

theorem Written.side_by_side {os : List Occurrence} {e : Engine} (h : Written os e) :
    ∃ rules, e.sheet = .synthetic rules ∧ rules.items.length = e.injectedIds.length ∧
      ∀ (i : Nat) (rule id : String), rules.items[i]? = some rule → e.injectedIds[i]? = some id →
        ∃ o ∈ os, o.rule = rule ∧ o.cls = id := by
  obtain ⟨rules, hsheet, hitems⟩ := h.rules
  refine ⟨rules, hsheet, ?_, fun i rule id hrule hid => ?_⟩
  · rw [hitems, injectedIds, h.injected, List.length_map, List.length_map]
  · rw [hitems, List.getElem?_map] at hrule
    rw [injectedIds, h.injected, List.getElem?_map] at hid
    obtain ⟨o, ho, rfl⟩ := Option.map_eq_some_iff.1 hrule
    rw [ho] at hid
    exact ⟨o, mem_of_mem_leaders (List.mem_of_getElem? ho), rfl, Option.some.inj hid⟩

/-- After every run of compilations on a fresh sheet, failed ones included, a capture has as many
rules as identifiers, and the rule in each place is that of the identifier in this place: its selector
is the class, possibly in one state, and its entry is one of a property and a value with this
identifier. -/
theorem rules_line_up (options : Options) (hm : options.mode ≠ .noop) (cs : List Command)
    (hc : ∀ c ∈ cs, c.compiles = true) :
    let e := (synthetic options).afterAll cs
    ∃ rules, e.sheet = .synthetic rules ∧
      e.snapshot = ⟨"\n".intercalate rules.items, e.injectedIds⟩ ∧
      rules.items.length = e.injectedIds.length ∧
      ∀ (i : Nat) (rule id : String), rules.items[i]? = some rule → e.injectedIds[i]? = some id →
        ∃ o ∈ history options.pipeline cs, id = classId o.name o.value ∧
          rule = "." ++ id ++ suffix o.state ++ " \x7b " ++ PropertyName.css o.name ++ ": " ++
            o.value.render ++ "; \x7d" := by
  intro e
  obtain ⟨rules, hsheet, hlength, hplaces⟩ := (written_run options hm hc).side_by_side
  refine ⟨rules, hsheet, ?_, hlength, fun i rule id hrule hid => ?_⟩
  · rw [snapshot, hsheet]
    rfl
  · obtain ⟨o, ho, rfl, rfl⟩ := hplaces i rule id hrule hid
    exact ⟨o, ho, rfl, o.rule_text⟩

/-- A compilation that ends at a block inside a block, and one that meets a class again. -/
def abortedFirst : List Command :=
  [.compile (Table.ofList [("color", .text "red"),
      (":hover", .nested (Table.ofList [("width", .text "1px"), (":focus", .nested .empty)]))]),
    .create [("a", Table.ofList [("width", .text "1px"), ("lineHeight", .text "2")])]]

theorem abortedFirst_lines_up :
    let e := (synthetic Options.standard).afterAll abortedFirst
    ((synthetic Options.standard).answers abortedFirst).map (·.isOk) = [false, true] ∧
    ∃ rules, e.sheet = .synthetic rules ∧ rules.items.length = 3 ∧
      ∀ rule, rules.items[2]? = some rule →
        ∃ o ∈ history Pipeline.empty abortedFirst,
          classId "lineHeight" (.text "2") = classId o.name o.value ∧
          rule = "." ++ classId "lineHeight" (.text "2") ++ suffix o.state ++ " \x7b " ++
            PropertyName.css o.name ++ ": " ++ o.value.render ++ "; \x7d" := by
  intro e
  obtain ⟨rules, hsheet, -, hlength, hplaces⟩ :=
    rules_line_up Options.standard (by decide) abortedFirst (by decide)
  have hids : e.injectedIds =
      [classId "color" (.text "red"), classId "width" (.text "1px"),
        classId "lineHeight" (.text "2")] := by decide
  refine ⟨by decide, rules, hsheet, ?_, fun rule hrule => hplaces 2 rule _ hrule ?_⟩
  · rw [hlength]
    exact congrArg List.length hids
  · exact congrArg (·[2]?) hids

/-! ## The state under which a pair is written -/

/-- The entries have the same property and values with the same text. -/
def Occurrence.SamePair (o q : Occurrence) : Prop :=
  o.name = q.name ∧ o.value.render = q.value.render

instance (o q : Occurrence) : Decidable (o.SamePair q) :=
  inferInstanceAs (Decidable (_ ∧ _))

/-- Entries share a class only if they have the same property and value. -/
def CollisionFree (os : List Occurrence) : Prop :=
  ∀ o ∈ os, ∀ q ∈ os, o.cls = q.cls → o.SamePair q

theorem Occurrence.SamePair.cls_eq {o q : Occurrence} (h : o.SamePair q) : o.cls = q.cls := by
  rw [cls, cls, classId, classId, h.1, h.2]

theorem Occurrence.SamePair.rule_eq {o q : Occurrence} (h : o.SamePair q) :
    ({ q with state := o.state } : Occurrence).rule = o.rule := by
  show Rule.ofClass q.cls (suffix o.state) q.name q.value = Rule.ofClass o.cls _ o.name o.value
  rw [h.cls_eq, Rule.ofClass, Rule.ofClass, Rule.entry, Rule.entry, h.1, h.2]

theorem Written.holds_iff {os : List Occurrence} {e : Engine} (h : Written os e) {rule : String} :
    e.sheet.Holds rule ↔ ∃ q ∈ leaders os, q.rule = rule := by
  obtain ⟨rules, hsheet, hitems⟩ := h.rules
  rw [hsheet]
  show rule ∈ rules ↔ _
  rw [OrderedSet.mem_def, hitems, List.mem_map]

/-- Of all the rules for a property with a value the sheet holds the one for the state in which the
pair was met first, and no other. -/
theorem Written.holds_state_iff {os : List Occurrence} {e : Engine} (h : Written os e)
    (hfree : CollisionFree os) {o : Occurrence} (ho : o ∈ os) :
    ∃ first, os.find? (fun q => q.SamePair o) = some first ∧
      ∀ state, e.sheet.Holds ({ o with state } : Occurrence).rule ↔ state = first.state := by
  have hsome : (os.find? fun q => q.SamePair o).isSome = true :=
    List.find?_isSome.2 ⟨o, ho, decide_eq_true ⟨rfl, rfl⟩⟩
  obtain ⟨first, hfirst⟩ := Option.isSome_iff_exists.1 hsome
  have hpair : first.SamePair o := by simpa using List.find?_some hfirst
  have hclass : ∀ q : Occurrence, q.cls = o.cls →
      os.find? (fun x => x.cls = q.cls) = os.find? (fun x => x.SamePair o) := by
    intro q hq
    refine List.find?_congr fun x hx => decide_eq_decide.2 ?_
    rw [hq]
    exact ⟨hfree x hx o ho, Occurrence.SamePair.cls_eq⟩
  refine ⟨first, hfirst, fun state => ?_⟩
  rw [h.holds_iff]
  constructor
  · rintro ⟨q, hq, hrule⟩
    obtain ⟨hcls, hstate⟩ := Occurrence.rule_inj hrule
    have hlead := mem_leaders_iff.1 hq
    rw [hclass q hcls, hfirst] at hlead
    rw [Option.some.inj hlead]
    exact hstate.symm
  · rintro rfl
    have hlead : first ∈ leaders os := by
      rw [mem_leaders_iff, hclass first hpair.cls_eq, hfirst]
    exact ⟨first, hlead, hpair.rule_eq.symm⟩

/-- What is returned for a declaration, and what the sheet holds for it. Every key of the returned
map is that of an entry of the declaration, with its class. The rule of an entry's property and value
stands in the sheet for the state under which the run met the pair first, be it in this declaration
or in an earlier one, and for no other state. -/
theorem compile_holds_iff_first (options : Options) (hm : options.mode ≠ .noop)
    (earlier later : List Command) (d : Declaration) (m : ClassMap)
    (hc : ∀ c ∈ earlier ++ later, c.compiles = true)
    (hfree : CollisionFree (history options.pipeline (earlier ++ .compile d :: later)))
    (hok : (compile d ((synthetic options).afterAll earlier)).result = .ok m) :
    (∀ o, Occurs options.pipeline d o →
      ∃ first, (history options.pipeline (earlier ++ .compile d :: later)).find?
          (fun q => q.SamePair o) = some first ∧
        ∀ state, ((synthetic options).afterAll (earlier ++ .compile d :: later)).sheet.Holds
          ({ o with state } : Occurrence).rule ↔ state = first.state) ∧
    ∀ entry ∈ m.entries, ∃ o, Occurs options.pipeline d o ∧ (o.key, o.cls) = entry := by
  have hall : ∀ c ∈ earlier ++ .compile d :: later, c.compiles = true := by
    intro c hmem
    rcases List.mem_append.1 hmem with h | h
    · exact hc c (List.mem_append_left _ h)
    · rcases List.mem_cons.1 h with rfl | h
      · rfl
      · exact hc c (List.mem_append_right _ h)
  have hw := written_run options hm hall
  have hopts : ((synthetic options).afterAll earlier).options = options :=
    afterAll_options (synthetic options) earlier
  rw [(compile_eq_walk (by rwa [hopts])).1, hopts] at hok
  obtain ⟨hn, hmap⟩ := walk_ok hok
  refine ⟨fun o ho => hw.holds_state_iff hfree ?_, fun entry hentry => ?_⟩
  · refine List.mem_flatMap.2 ⟨.compile d, by simp, ?_⟩
    exact mem_entered_of_mem hn (mem_visits_of_occurs hn ho)
  · rw [hmap] at hentry
    obtain ⟨o, ho, he⟩ := mem_classesOf hentry
    exact ⟨o, occurs_of_mem_visits (mem_of_mem_entered ho), he⟩

/-! ## One pair in two states -/

/-- A property that has the same value by itself and under the pointer. -/
def twoStates : Declaration :=
  Table.ofList [("color", .text "red"), (":hover", .nested (Table.ofList [("color", .text "red")]))]

theorem pairs_twoStates :
    ((history Pipeline.empty [.compile twoStates]).map fun o => (o.name, o.value.render)) =
      [("color", "red"), ("color", "red")] := by decide

theorem collisionFree_twoStates : CollisionFree (history Pipeline.empty [.compile twoStates]) := by
  have hpair : ∀ o ∈ history Pipeline.empty [.compile twoStates],
      (o.name, o.value.render) = ("color", "red") := by
    intro o ho
    have hmem := List.mem_map_of_mem (f := fun o : Occurrence => (o.name, o.value.render)) ho
    rw [pairs_twoStates] at hmem
    simpa using hmem
  intro o ho q hq _
  have h := (hpair o ho).trans (hpair q hq).symm
  exact ⟨congrArg Prod.fst h, congrArg Prod.snd h⟩

theorem occurs_twoStates : Occurs Pipeline.empty twoStates ⟨some .hover, "color", .text "red"⟩ := by
  refine ⟨rfl, Table.ofList [("color", .text "red")], ?_, ?_⟩
  · exact List.mem_cons_of_mem _ List.mem_cons_self
  · exact List.mem_cons_self

theorem compile_twoStates :
    ∃ m, (compile twoStates (synthetic Options.standard)).result = .ok m := by
  apply Action.exists_of_isOk
  decide

theorem twoStates_holds_first :
    ((synthetic Options.standard).afterAll [.compile twoStates]).sheet.Holds
        (Occurrence.rule ⟨none, "color", .text "red"⟩) ∧
      ¬ ((synthetic Options.standard).afterAll [.compile twoStates]).sheet.Holds
        (Occurrence.rule ⟨some .hover, "color", .text "red"⟩) := by
  obtain ⟨m, hok⟩ := compile_twoStates
  obtain ⟨hrules, -⟩ := compile_holds_iff_first Options.standard (by decide) [] [] twoStates m
    (by simp) collisionFree_twoStates hok
  obtain ⟨first, hfirst, hiff⟩ := hrules _ occurs_twoStates
  have hstate : ((history Pipeline.empty [.compile twoStates]).find? fun q =>
      q.SamePair ⟨some .hover, "color", .text "red"⟩).map (·.state) = some none := by decide
  have hnone : first.state = none := by
    rw [show ((history Pipeline.empty [.compile twoStates]).find? fun q =>
      q.SamePair ⟨some .hover, "color", .text "red"⟩) = some first from hfirst] at hstate
    exact Option.some.inj hstate
  rw [hnone] at hiff
  exact ⟨(hiff none).2 rfl, fun h => Option.some_ne_none _ ((hiff (some .hover)).1 h)⟩

/-- Not every entry that compilation gives a class has a rule of its own. -/
theorem not_every_entry_has_rule :
    ¬ ∀ (options : Options) (cs : List Command) (d : Declaration) (m : ClassMap),
      options.mode ≠ .noop → (∀ c ∈ cs, c.compiles = true) →
      CollisionFree (history options.pipeline (cs ++ [.compile d])) →
      (compile d ((synthetic options).afterAll cs)).result = .ok m →
      ∀ o, Occurs options.pipeline d o →
        ((synthetic options).afterAll (cs ++ [.compile d])).sheet.Holds o.rule := by
  intro h
  obtain ⟨m, hok⟩ := compile_twoStates
  have hheld := h Options.standard [] twoStates m (by decide) (by simp) collisionFree_twoStates hok
    _ occurs_twoStates
  have hnot : ¬ ((synthetic Options.standard).afterAll [.compile twoStates]).sheet.Holds
      (Occurrence.rule ⟨some .hover, "color", .text "red"⟩) := by decide
  exact hnot hheld

end Engine

end AtomicCss
