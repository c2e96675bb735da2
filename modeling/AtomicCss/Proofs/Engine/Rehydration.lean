import AtomicCss.Proofs.Capture.RoundTrip
import AtomicCss.Proofs.Engine.Ledger
import AtomicCss.Proofs.Engine.Result

/-!
# Rehydrated engines write nothing again

What a server has compiled without failure is known to it: every class is in its capture. An engine
that is told of the capture walks over the same declarations without writing (`walk_known`), so its
state does not change and the same holds of the next declaration, in whatever order they come.
-/

namespace AtomicCss

namespace Engine

/-! ## Known classes -/

/-- No block stands inside a block, and the engine holds every class that is met. -/
structure Known (vs : List Visit) (e : Engine) : Prop where
  flat : ¬ Nests vs
  held : ∀ o ∈ entered vs, o.cls ∈ e.injected

theorem Known.tail {o : Occurrence} {vs : List Visit} {e : Engine} (h : Known (.entry o :: vs) e) :
    Known vs e where
  flat := mt nests_entry.2 h.flat
  held q hq := h.held q (List.mem_cons_of_mem o hq)

/-- A walk over known classes gives the class map, changes nothing and sends nothing. -/
theorem walk_known {vs : List Visit} {e : Engine} (h : Known vs e) (classes : ClassMap) :
    (walk vs classes e).result = .ok (classesOf classes (entered vs)) ∧
      (walk vs classes e).engine = e ∧ Action.Sends (walk vs classes) e [] := by
  induction vs generalizing classes with
  | nil => exact ⟨rfl, rfl, .done classes e⟩
  | cons v rest ih =>
    cases v with
    | nesting outer inner => exact absurd (nests_nesting outer inner rest) h.flat
    | entry o =>
      have ho : o.cls ∈ e.injected := h.held o List.mem_cons_self
      have hi := inject_known (s := suffix o.state) ho
      have hr : (inject (suffix o.state) o.name o.value e).result = .ok o.cls := by rw [hi]; rfl
      have he : (inject (suffix o.state) o.name o.value e).engine = e := by rw [hi]
      obtain ⟨hr', he', hs'⟩ := ih h.tail (classes.insert o.key o.cls)
      have hs : Action.Sends (inject (suffix o.state) o.name o.value) e [] := .inject_known ho
      refine ⟨?_, ?_, hs.after_blind hr ?_⟩
      · rw [walk, Action.bind_apply_of_ok hr, he]
        exact hr'
      · rw [walk, Action.bind_apply_of_ok hr, he]
        exact he'
      · rw [he]
        exact hs'

/-! ## What a server knows -/

theorem known_of_walk_ok {vs : List Visit} {classes m : ClassMap} {e : Engine}
    (h : (walk vs classes e).result = .ok m) : Known vs (walk vs classes e).engine := by
  refine ⟨(walk_ok h).1, fun o ho => ?_⟩
  rw [injected_of_walk_ok h, OrderedSet.mem_insertAll]
  exact .inr (List.mem_map_of_mem ho)

/-- The run over the declarations has compiled `d` to `m`, at some point. -/
def Returned (e : Engine) (ds : List Declaration) (d : Declaration) (m : ClassMap) : Prop :=
  ∃ earlier later, ds = earlier ++ d :: later ∧
    (compile d (e.afterAll (earlier.map .compile))).result = .ok m

/-- What a run has compiled is known when the run is over, and the class map is the one that the
declaration's entries fill. -/
theorem Returned.known {e : Engine} (hm : e.options.mode ≠ .noop) {ds : List Declaration}
    {d : Declaration} {m : ClassMap} (h : Returned e ds d m) :
    Known (visits e.options.pipeline d) (e.afterAll (ds.map .compile)) ∧
      m = classesOf ClassMap.empty (entered (visits e.options.pipeline d)) := by
  obtain ⟨earlier, later, rfl, hok⟩ := h
  have hopts := afterAll_options e (earlier.map .compile)
  have heq := compile_eq_walk (d := d) (e := e.afterAll (earlier.map .compile)) (by rwa [hopts])
  rw [hopts] at heq
  rw [heq.1] at hok
  have hknown := known_of_walk_ok hok
  refine ⟨⟨hknown.flat, fun o ho => ?_⟩, (walk_ok hok).2⟩
  have hheld := hknown.held o ho
  rw [← heq.2, ← after_compile] at hheld
  rw [List.map_append, afterAll_append, List.map_cons, afterAll_cons]
  exact ((accounts_run _ _).classes.mem_iff _).2 (.inl hheld)

/-! ## Replaying -/

theorem after_compile_known {e : Engine} (hm : e.options.mode ≠ .noop) {d : Declaration}
    (h : Known (visits e.options.pipeline d) e) :
    ((Command.compile d).action e).result =
        .ok (.classes (classesOf ClassMap.empty (entered (visits e.options.pipeline d)))) ∧
      e.after (.compile d) = e ∧ e.sendings (.compile d) = [] := by
  obtain ⟨hr, he, hs⟩ := walk_known h ClassMap.empty
  have heq := compile_eq_walk (d := d) hm
  refine ⟨?_, ?_, ?_⟩
  · rw [Command.action, Action.map_result, heq.1, hr]
    rfl
  · rw [after_compile, heq.2, he]
  · rw [sendings_compile (sends_compile hm hs), List.map_nil]

/-- Known declarations can be compiled in any order, as often as one likes. -/
theorem replay_known {e : Engine} (hm : e.options.mode ≠ .noop)
    {replay : List (Declaration × ClassMap)}
    (h : ∀ p ∈ replay, Known (visits e.options.pipeline p.1) e ∧
      p.2 = classesOf ClassMap.empty (entered (visits e.options.pipeline p.1))) :
    e.answers (replay.map fun p => .compile p.1) = replay.map (fun p => .ok (.classes p.2)) ∧
      e.afterAll (replay.map fun p => .compile p.1) = e ∧
      e.log (replay.map fun p => .compile p.1) = [] := by
  induction replay with
  | nil => exact ⟨rfl, rfl, rfl⟩
  | cons p rest ih =>
    obtain ⟨hk, hp⟩ := h p List.mem_cons_self
    obtain ⟨hr, he, hs⟩ := after_compile_known hm hk
    obtain ⟨ihr, ihe, ihs⟩ := ih fun q hq => h q (List.mem_cons_of_mem p hq)
    refine ⟨?_, ?_, ?_⟩
    · rw [List.map_cons, List.map_cons, answers, trace, List.map_cons, he, hr, hp]
      exact congrArg _ ihr
    · rw [List.map_cons, afterAll_cons, he, ihe]
    · rw [List.map_cons, log_cons, he, hs, ihs, List.append_nil]

end Engine

/-! ## From a server to a page -/

/-- How a capture comes to the engine that is told of it. -/
inductive Transport
  | direct
  | json
  | script

/-- What arrives of a capture. -/
def Transport.deliver : Transport → Capture → Except Json.Failure Capture
  | direct, c => .ok c
  | json, c => Capture.parse c.json
  | script, c => Capture.parsePayload (Capture.elementContent c.hydrationScript)

theorem Transport.deliver_ids (way : Transport) (c : Capture) :
    ∃ c', way.deliver c = .ok c' ∧ c'.ids = c.ids := by
  cases way with
  | direct => exact ⟨c, rfl, rfl⟩
  | json => exact ⟨c, Capture.parse_json c, rfl⟩
  | script =>
    refine ⟨⟨"", c.ids⟩, ?_, rfl⟩
    rw [deliver, Capture.elementContent_hydrationScript, Capture.parsePayload_payload]

namespace Engine

theorem after_rehydrate (e : Engine) (c : Capture) :
    e.after (.rehydrate c) = { e with injected := e.injected.insertAll c.ids } := rfl

theorem sendings_rehydrate (e : Engine) (c : Capture) : e.sendings (.rehydrate c) = [] := by
  have h : (Command.rehydrate c).action.Sends e [] := .of_blind rfl (fun _ => rfl) fun _ => rfl
  rw [sendings, h.sent_eq, List.map_nil]

/-- Rehydration suppresses every insertion of what the server has compiled, and changes no result. The
server may have compiled anything before and may have failed in between, the client may be in any
state on any sheet, and the capture may have come to it in any of the three ways. What the server
compiled then compiles to the same class maps in any order, nothing is sent to the client's sheet,
and the identifiers of a client that held none are those of the capture from then on. -/
theorem rehydrated_replay (server client : Engine) (hm : server.options.mode ≠ .noop)
    (ho : client.options = server.options) (ds : List Declaration) (way : Transport) :
    ∃ c, way.deliver (server.afterAll (ds.map .compile)).snapshot = .ok c ∧
      ∀ replay : List (Declaration × ClassMap), (∀ p ∈ replay, Returned server ds p.1 p.2) →
        (client.after (.rehydrate c)).answers (replay.map fun p => .compile p.1) =
            replay.map (fun p => .ok (.classes p.2)) ∧
          client.log (.rehydrate c :: replay.map fun p => .compile p.1) = [] ∧
          (client.afterAll (.rehydrate c :: replay.map fun p => .compile p.1)).sheet =
            client.sheet ∧
          (client.injectedIds = [] →
            (client.afterAll (.rehydrate c :: replay.map fun p => .compile p.1)).injectedIds =
              (server.afterAll (ds.map .compile)).snapshot.ids) := by
  obtain ⟨c, hc, hids⟩ := way.deliver_ids (server.afterAll (ds.map .compile)).snapshot
  refine ⟨c, hc, fun replay hreplay => ?_⟩
  have hopts : (client.after (.rehydrate c)).options = server.options := ho
  have hheld : ∀ id, id ∈ (server.afterAll (ds.map .compile)).injected →
      id ∈ (client.after (.rehydrate c)).injected := by
    intro id hid
    have hmem : id ∈ c.ids := hids ▸ hid
    exact OrderedSet.mem_insertAll.2 (.inr hmem)
  have hknown : ∀ p ∈ replay,
      Known (visits (client.after (.rehydrate c)).options.pipeline p.1)
        (client.after (.rehydrate c)) ∧
      p.2 = classesOf ClassMap.empty
        (entered (visits (client.after (.rehydrate c)).options.pipeline p.1)) := by
    intro p hp
    obtain ⟨hk, hmap⟩ := (hreplay p hp).known hm
    rw [hopts]
    exact ⟨⟨hk.flat, fun o hmet => hheld _ (hk.held o hmet)⟩, hmap⟩
  obtain ⟨hans, hafter, hlog⟩ := replay_known (by rwa [hopts]) hknown
  refine ⟨hans, ?_, ?_, fun hfresh => ?_⟩
  · rw [log_cons, sendings_rehydrate, hlog, List.append_nil]
  · rw [afterAll_cons, hafter, after_rehydrate]
  · have hnodup : (client.injected.items ++ c.ids).Nodup := by
      rw [show client.injected.items = [] from hfresh, List.nil_append, hids]
      exact (server.afterAll (ds.map .compile)).injected.nodup
    rw [afterAll_cons, hafter, after_rehydrate]
    show (client.injected.insertAll c.ids).items = _
    rw [OrderedSet.items_insertAll_of_nodup hnodup, hids,
      show client.injected.items = [] from hfresh, List.nil_append]

/-- One entry. -/
def colour : Declaration := Table.ofList [("color", .text "red")]

/-- A sink that takes nothing. -/
def closedSink : Host := .ofVerdict fun _ => some (.unavailable "closed")

theorem compile_colour : ∃ m, (compile colour (synthetic Options.standard)).result = .ok m := by
  apply Action.exists_of_isOk
  decide

theorem rehydrated_replay_colour :
    ∃ c m, Transport.script.deliver
        ((synthetic Options.standard).afterAll [.compile colour]).snapshot = .ok c ∧
      (compile colour (synthetic Options.standard)).result = .ok m ∧
      ((new Options.standard (.host closedSink)).after (.rehydrate c)).answers [.compile colour] =
        [.ok (.classes m)] ∧
      (new Options.standard (.host closedSink)).log [.rehydrate c, .compile colour] = [] := by
  obtain ⟨m, hok⟩ := compile_colour
  obtain ⟨c, hc, h⟩ := rehydrated_replay (synthetic Options.standard)
    (new Options.standard (.host closedSink)) (by decide) rfl [colour] .script
  have hreturned : ∀ p ∈ [(colour, m)],
      Returned (synthetic Options.standard) [colour] p.1 p.2 := by
    intro p hp
    rw [List.mem_singleton.1 hp]
    exact ⟨[], [], rfl, hok⟩
  obtain ⟨hans, hlog, -, -⟩ := h [(colour, m)] hreturned
  exact ⟨c, m, hc, hok, hans, hlog⟩

end Engine

end AtomicCss
