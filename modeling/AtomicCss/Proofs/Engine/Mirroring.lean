import AtomicCss.Proofs.Engine.Ledger

/-!
# A synthetic sheet and a sink that takes everything

A synthetic sheet drops a text that it holds, a host's sink sees every insertion. An engine cannot
tell them apart: on a synthetic sheet, whatever it holds at first, and on a sink that takes
everything, a run gives the same answers and the same identifiers, and the sheet ends with what it
held and what the sink has taken, each text at its first occurrence (`synthetic_mirrors_host`).

`Mirrors held e f` relates the two engines. It is kept by every command that does not read the sheet
(`Mirrors.after`), and so by every run of such commands (`Mirrors.run`).
-/

namespace AtomicCss.Engine

theorem sends_of_ne_capture {c : Command} (hc : c ≠ .capture) (e : Engine) :
    ∃ l, c.action.Sends e l := by
  cases c with
  | compile d => exact (accounted_action (.inl rfl) e).sends
  | create namespaces => exact (accounted_action (.inl rfl) e).sends
  | injectGlobal rule => exact (accounted_action (.inr rfl) e).sends
  | injectTheme selector theme => exact (accounted_action (.inr rfl) e).sends
  | injectKeyframes k => exact ⟨_, (Action.Sends.injectKeyframes k e).map Answer.name⟩
  | seed ids => exact ⟨[], .of_blind rfl (fun _ => rfl) fun _ => rfl⟩
  | rehydrate c => exact ⟨[], .of_blind rfl (fun _ => rfl) fun _ => rfl⟩
  | capture => exact absurd rfl hc
  | inlineStyle d => exact ⟨[], .of_blind rfl (fun _ => rfl) fun _ => rfl⟩

/-- The engines differ only in what they write to: `f` writes to a sink that takes everything, `e` to
a synthetic sheet that held `held` and has been given what the sink was. -/
def Mirrors (held : List String) (e f : Engine) : Prop :=
  ∃ sink, f = e.on sink ∧ (Sheet.host sink).TakesAll ∧
    (∀ a ∈ sink.attempts, a.refusal = none) ∧
    e.sheet = .synthetic (.ofList (held ++ sink.attempts.map (·.rule)))

section mirrors

variable {held : List String} {e f : Engine}

theorem mirrors_new (options : Options) (held : List String) :
    Mirrors held (new options (.synthetic (.ofList held))) (new options (.host .accepting)) := by
  refine ⟨.accepting, rfl, fun _ _ _ => rfl, by simp [Host.accepting], ?_⟩
  show Sheet.synthetic (.ofList held) = .synthetic (.ofList (held ++ []))
  rw [List.append_nil]

theorem Mirrors.injectedIds (h : Mirrors held e f) : f.injectedIds = e.injectedIds := by
  obtain ⟨sink, rfl, -⟩ := h
  rfl

/-- One command: the answers are the same and the engines go on mirroring each other. -/
theorem Mirrors.after (h : Mirrors held e f) {c : Command} (hc : c ≠ .capture) :
    (c.action f).result = (c.action e).result ∧ Mirrors held (e.after c) (f.after c) := by
  obtain ⟨sink, rfl, htakes, haccepted, hsheet⟩ := h
  obtain ⟨l, hs⟩ := sends_of_ne_capture hc e
  have halike : e.sheet.Alike sink := hsheet ▸ (Sheet.takesAll_host _).1 htakes
  obtain ⟨sink', hresult, hengine, halike', hattempts⟩ := hs.watched sink halike
  have htook := hs.took
  rw [hsheet] at htook
  obtain ⟨hafter, hl⟩ := Sheet.took_synthetic htook
  refine ⟨hresult, sink', hengine, ?_, ?_, ?_⟩
  · rw [hafter] at halike'
    exact (Sheet.takesAll_host _).2 halike'
  · intro a ha
    rw [hattempts] at ha
    exact (List.mem_append.1 ha).elim (haccepted a) (hl a)
  · rw [hattempts, List.map_append, ← List.append_assoc, OrderedSet.ofList_append]
    exact hafter

theorem Mirrors.run (h : Mirrors held e f) {cs : List Command} (hc : ∀ c ∈ cs, c ≠ .capture) :
    f.answers cs = e.answers cs ∧ Mirrors held (e.afterAll cs) (f.afterAll cs) := by
  induction cs generalizing e f with
  | nil => exact ⟨rfl, h⟩
  | cons c rest ih =>
    obtain ⟨hresult, hafter⟩ := h.after (hc c List.mem_cons_self)
    obtain ⟨hanswers, hrun⟩ := ih hafter fun c hmem => hc c (List.mem_cons_of_mem _ hmem)
    rw [answers_cons, answers_cons, hresult, hanswers]
    exact ⟨rfl, hrun⟩

/-- The sheet holds what it held and what the sink has taken, each text at its first occurrence. -/
theorem Mirrors.sheets (h : Mirrors held e f) :
    ∃ sink, f.sheet = .host sink ∧
      e.sheet = .synthetic (.ofList (held ++ sink.accepted.map Prod.fst)) := by
  obtain ⟨sink, rfl, -, haccepted, hsheet⟩ := h
  have hall : sink.attempts.filter (fun a => a.refusal.isNone) = sink.attempts :=
    List.filter_eq_self.2 fun a ha => by rw [haccepted a ha]; rfl
  refine ⟨sink, rfl, ?_⟩
  rw [hsheet, Host.accepted, hall, List.map_map]
  rfl

end mirrors

/-- A run that takes no capture goes the same way on a synthetic sheet, whatever it holds at first,
and on a sink that takes and records everything. The answers are the same, failures included, and the
identifiers are the same after every command. The rules of the synthetic sheet are those it held and
those recorded, each text at its first occurrence. So the run adds nothing to a sheet that holds what
was recorded. -/
theorem synthetic_mirrors_host (options : Options) (held : List String) (cs : List Command)
    (hc : ∀ c ∈ cs, c ≠ .capture) :
    let e := new options (.synthetic (.ofList held))
    let f := new options (.host .accepting)
    e.answers cs = f.answers cs ∧
    (∀ n, (e.afterAll (cs.take n)).injectedIds = (f.afterAll (cs.take n)).injectedIds) ∧
    ∃ rules sink, (e.afterAll cs).sheet = .synthetic rules ∧ (f.afterAll cs).sheet = .host sink ∧
      rules.items = (held ++ sink.accepted.map Prod.fst).eraseDups ∧
      ∀ full : OrderedSet, (∀ rule ∈ sink.accepted.map Prod.fst, rule ∈ full) →
        ((new options (.synthetic full)).afterAll cs).sheet = .synthetic full := by
  intro e f
  obtain ⟨hanswers, hrun⟩ := (mirrors_new options held).run hc
  obtain ⟨sink, hsink, hsheet⟩ := hrun.sheets
  refine ⟨hanswers.symm, fun n => ?_, _, sink, hsheet, hsink, OrderedSet.items_ofList _, ?_⟩
  · have htake : ∀ c ∈ cs.take n, c ≠ .capture := fun c hmem => hc c (List.mem_of_mem_take hmem)
    exact ((mirrors_new options held).run htake).2.injectedIds.symm
  · -- The sink meets the same run whatever the sheet it is compared with holds at first.
    intro full hfull
    obtain ⟨-, hrun'⟩ := (mirrors_new options full.items).run hc
    obtain ⟨sink', hsink', hsheet'⟩ := hrun'.sheets
    cases hsink.symm.trans hsink'
    rw [OrderedSet.ofList_append, OrderedSet.ofList_items] at hsheet'
    rw [hsheet', OrderedSet.insertAll_of_forall_mem hfull]

/-- A rule that is written as a global one and then as that of a class. -/
def writtenTwice : List Command :=
  [.injectGlobal (Occurrence.rule ⟨none, "color", .text "red"⟩),
    .compile (Table.ofList [("color", .text "red")])]

theorem writtenTwice_mirrored :
    ∃ rules sink,
      ((new Options.standard (.synthetic (.ofList ["@layer a;"]))).afterAll writtenTwice).sheet =
        .synthetic rules ∧
      ((new Options.standard (.host .accepting)).afterAll writtenTwice).sheet = .host sink ∧
      rules.items = ("@layer a;" :: sink.accepted.map Prod.fst).eraseDups ∧
      rules.size = 2 := by
  obtain ⟨-, -, rules, sink, hrules, hsink, hitems, -⟩ :=
    synthetic_mirrors_host Options.standard ["@layer a;"] writtenTwice (by simp [writtenTwice])
  have hsize : (((new Options.standard (.synthetic (.ofList ["@layer a;"]))).afterAll
      writtenTwice).sheet.rules?.map OrderedSet.size) = some 2 := by decide
  rw [hrules] at hsize
  exact ⟨rules, sink, hrules, hsink, hitems, Option.some.inj hsize⟩

end AtomicCss.Engine
