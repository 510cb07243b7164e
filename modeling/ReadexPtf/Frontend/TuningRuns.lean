import ReadexPtf.Frontend.ScenarioPool

/-! The run of a tuning plugin through the state machine of the frontend, as far as the
scenario pools take part in it. The plugin answers its hooks as it likes: how many scenarios
it creates, which of them it moves on and when, and how each experiment is run. -/
namespace ReadexPtf.Frontend
open Autotune (Scenario TuningSpecification)

structure ScenarioPoolSet where
  csp : ScenarioPool
  psp : ScenarioPool
  esp : ScenarioPool
  fsp : ScenarioPool

namespace ScenarioPoolSet

def init : ScenarioPoolSet := ⟨.clear, .clear, .clear, .clear⟩

def contents (pools : ScenarioPoolSet) : List Scenario :=
  pools.csp.contents ++ (pools.psp.contents ++ (pools.esp.contents ++ pools.fsp.contents))

/-- `esp->pop()` and `fsp->push()` of one scenario. -/
def finishOne (pools : ScenarioPoolSet) : Outcome (Scenario × ScenarioPoolSet) := do
  let (scenario, esp) ← pools.esp.pop
  return (scenario, { pools with esp := esp, fsp := pools.fsp.push scenario })

/-- The scenarios of the request are all that wait in the experiment pool. -/
def createStrategyRequest (pools : ScenarioPoolSet) : Outcome (List Scenario × ScenarioPoolSet) :=
  Outcome.whileLoop (fun loop => !loop.2.esp.empty)
    (fun loop => do
      let (scenario, pools) ← loop.2.finishOne
      return (loop.1 ++ [scenario], pools))
    pools.esp.size ([], pools)

theorem finishOne_ok {pools pools' : ScenarioPoolSet} {scenario : Scenario}
    (hids : (pools.contents.map Scenario.id).Nodup)
    (h : pools.finishOne = .ok (scenario, pools')) :
    pools'.csp = pools.csp ∧ pools'.psp = pools.psp ∧
      pools.esp.contents.Perm (scenario :: pools'.esp.contents) ∧
      Moved 1 pools.esp pools.fsp pools'.esp pools'.fsp := by
  rw [finishOne, Outcome.bind_eq_ok] at h
  obtain ⟨⟨first, esp⟩, hpop, hpush⟩ := h
  cases hpush
  have hperm := ScenarioPool.pop_ok hpop
  have hlate : ((pools.esp.contents ++ pools.fsp.contents).map Scenario.id).Nodup :=
    hids.sublist (((List.sublist_append_right _ _).trans
      (List.sublist_append_right _ _)).map _)
  exact ⟨rfl, rfl, hperm, .one hlate hperm⟩

theorem finishOne_returns {pools : ScenarioPoolSet} (h : pools.esp.empty = false) :
    ∃ scenario pools', pools.finishOne = .ok (scenario, pools') := by
  obtain ⟨scenario, esp, hpop⟩ := ScenarioPool.pop_returns h
  exact ⟨scenario, _, by rw [finishOne, hpop]; rfl⟩

/-- Moves from the experiment pool to the finished one leave the contents of all pools together. -/
theorem contents_finished {count : Nat} {pools pools' : ScenarioPoolSet}
    (hcsp : pools'.csp = pools.csp) (hpsp : pools'.psp = pools.psp)
    (hmoved : Moved count pools.esp pools.fsp pools'.esp pools'.fsp) :
    pools'.contents.Perm pools.contents := by
  rw [contents, contents, hcsp, hpsp]
  exact (hmoved.perm.append_left _).append_left _

theorem contents_defined {count : Nat} {pools pools' : ScenarioPoolSet}
    (hcsp : pools'.csp = pools.csp) (hfsp : pools'.fsp = pools.fsp)
    (hmoved : Moved count pools.psp pools.esp pools'.psp pools'.esp) :
    pools'.contents.Perm pools.contents := by
  have hmiddle := (hmoved.perm.append_right pools.fsp.contents).append_left pools.csp.contents
  simpa only [contents, hcsp, hfsp, List.append_assoc] using hmiddle

theorem contents_prepared {count : Nat} {pools pools' : ScenarioPoolSet}
    (hesp : pools'.esp = pools.esp) (hfsp : pools'.fsp = pools.fsp)
    (hmoved : Moved count pools.csp pools.psp pools'.csp pools'.psp) :
    pools'.contents.Perm pools.contents := by
  have hfirst := hmoved.perm.append_right (pools.esp.contents ++ pools.fsp.contents)
  simpa only [contents, hesp, hfsp, List.append_assoc] using hfirst

/-- What a request does to the pools: nothing waits any longer, and the request has it all. -/
structure Requested (pools : ScenarioPoolSet) (made : List Scenario × ScenarioPoolSet) : Prop where
  csp : made.2.csp = pools.csp
  psp : made.2.psp = pools.psp
  esp : made.2.esp.contents = []
  fsp : Moved pools.esp.size pools.esp pools.fsp made.2.esp made.2.fsp
  scenarios : made.1.Perm pools.esp.contents

theorem createStrategyRequest_ok {pools : ScenarioPoolSet}
    (hids : (pools.contents.map Scenario.id).Nodup) :
    ∃ made, pools.createStrategyRequest = .ok made ∧ pools.Requested made := by
  suffices h : ∀ (size : Nat) (before : List Scenario) (pools : ScenarioPoolSet),
      (pools.contents.map Scenario.id).Nodup → pools.esp.size = size →
      ∃ made, Outcome.whileLoop (fun loop : List Scenario × ScenarioPoolSet => !loop.2.esp.empty)
        (fun loop => do
          let (scenario, pools) ← loop.2.finishOne
          return (loop.1 ++ [scenario], pools))
        size (before, pools) = .ok made ∧
        made.2.csp = pools.csp ∧ made.2.psp = pools.psp ∧ made.2.esp.contents = [] ∧
        Moved size pools.esp pools.fsp made.2.esp made.2.fsp ∧
        made.1.Perm (before ++ pools.esp.contents) by
    obtain ⟨made, hrun, hcsp, hpsp, hesp, hfsp, hscenarios⟩ := h _ [] pools hids rfl
    exact ⟨made, hrun, hcsp, hpsp, hesp, hfsp, hscenarios⟩
  intro size
  induction size with
  | zero =>
    intro before pools _ hsize
    have hnil : pools.esp.contents = [] :=
      List.eq_nil_of_length_eq_zero (pools.esp.length_contents.trans hsize)
    refine ⟨(before, pools), ?_, rfl, rfl, hnil, .refl _ _, ?_⟩
    · rw [Outcome.whileLoop, if_neg]
      simp [ScenarioPool.empty_iff.mpr hnil]
    · rw [hnil, List.append_nil]
  | succ size ih =>
    intro before pools hids hsize
    have hwaits : pools.esp.empty = false := by
      refine Bool.eq_false_iff.mpr fun hempty => ?_
      have hlength := pools.esp.length_contents
      rw [ScenarioPool.empty_iff.mp hempty, List.length_nil] at hlength
      omega
    obtain ⟨scenario, pools₁, hone⟩ := finishOne_returns hwaits
    obtain ⟨hcsp, hpsp, hpop, hmoved⟩ := finishOne_ok hids hone
    have hids₁ : (pools₁.contents.map Scenario.id).Nodup :=
      ((contents_finished hcsp hpsp hmoved).map _).nodup_iff.mpr hids
    have hsize₁ : pools₁.esp.size = size := by
      have hlength := hpop.length_eq
      rw [List.length_cons, ScenarioPool.length_contents, ScenarioPool.length_contents] at hlength
      omega
    obtain ⟨made, hrun, hcsp', hpsp', hesp', hfsp', hscenarios⟩ :=
      ih (before ++ [scenario]) pools₁ hids₁ hsize₁
    refine ⟨made, ?_, hcsp'.trans hcsp, hpsp'.trans hpsp, hesp', ?_, hscenarios.trans ?_⟩
    · rw [Outcome.whileLoop, if_pos (by simp [hwaits]), hone]
      exact hrun
    · rw [Nat.add_comm]
      exact hmoved.trans hfsp'
    · rw [List.append_assoc]
      exact (hpop.symm.append_left before)

end ScenarioPoolSet

/-- The events of the state machine, and the loop conditions that ask the plugin. -/
inductive Location where
  | startTuningStep
  | createScenarios
  | prepareScenarios
  | defineExperiment
  | considerRestart
  | runPhaseExperiments
  | searchFinished
  | tuningFinished
  | createTuningAdvice
  deriving DecidableEq, Repr

/-- What a plugin empties before the search that follows. -/
inductive Clear where
  | unfinished
  | all
  | allAndIds
  deriving DecidableEq, Repr

/-- The events with what the plugin and the application answer. -/
inductive Event where
  | startTuningStep
  | createScenarios (created : List (List TuningSpecification))
  | prepareScenarios (pops : List Pop)
  | defineExperiment (pops : List Pop)
  | considerRestart (isInstrumented : Bool)
  | runPhaseExperiments (needRestart : Bool)
  | searchFinished (answer : Bool)
  | tuningFinished (answer : Bool)
  | clearPools (which : Clear)

namespace Event

/-- The search step ends with this event. -/
def endsSearchStep : Event → Bool
  | .searchFinished _ => true
  | _ => false

/-- How many scenarios wait for an experiment, and how the next one is run. -/
structure Waiting where
  count : Nat
  isInstrumented : Bool
  deriving DecidableEq, Repr

/-- A run of the instrumented application takes all scenarios that wait, one of the
application without instrumentation takes one. -/
def waiting (w : Waiting) : Event → Waiting
  | .defineExperiment pops => { w with count := w.count + pops.length }
  | .considerRestart isInstrumented =>
    ⟨if isInstrumented then w.count else w.count - 1, isInstrumented⟩
  | .runPhaseExperiments _ => { w with count := if w.isInstrumented then 0 else w.count }
  | _ => w

def Met (w : Waiting) : Event → Prop
  | .considerRestart isInstrumented => isInstrumented = false → 0 < w.count
  | .searchFinished _ => w.count = 0
  | _ => True

end Event

structure TuningRun where
  next : Location
  pools : ScenarioPoolSet
  /-- `Scenario::scenario_id`. -/
  scenarioId : Nat
  isInstrumented : Bool
  /-- The flag of `run_tuning_plugin` is always assigned together with it. -/
  scenariosExecuted : Bool
  /-- The scenarios of `prepared_strategy_request`. -/
  prepared : List Scenario
  /-- All scenarios since the pools were last emptied; the code does not keep them. -/
  created : List Scenario

namespace TuningRun
open Event (Waiting)

def start : TuningRun := ⟨.startTuningStep, .init, 0, true, true, [], []⟩

/-- `new Scenario( ts )` and `csp->push`. -/
def createScenario (run : TuningRun) (ts : List TuningSpecification) : TuningRun :=
  { run with
    pools := { run.pools with csp := run.pools.csp.push ⟨run.scenarioId, ts⟩ }
    scenarioId := run.scenarioId + 1
    created := run.created ++ [⟨run.scenarioId, ts⟩] }

/-- Where the two loops over the pools go on. -/
def afterExperiment (pools : ScenarioPoolSet) : Location :=
  if !pools.psp.empty then .defineExperiment
  else if !pools.csp.empty then .prepareScenarios
  else .searchFinished

def createScenarios (run : TuningRun) (created : List (List TuningSpecification)) : TuningRun :=
  let run := created.foldl createScenario run
  { run with next := if !run.pools.csp.empty then .prepareScenarios else .searchFinished }

def prepareScenarios (run : TuningRun) (pops : List Pop) : Outcome TuningRun := do
  let (csp, psp) ← moveScenarios run.pools.csp run.pools.psp pops
  return { run with next := .defineExperiment, pools := { run.pools with csp := csp, psp := psp } }

def defineExperiment (run : TuningRun) (pops : List Pop) : Outcome TuningRun := do
  let (psp, esp) ← moveScenarios run.pools.psp run.pools.esp pops
  return { run with next := .considerRestart, pools := { run.pools with psp := psp, esp := esp } }

/-- An application that is not instrumented runs here, with one scenario. -/
def considerRestart (run : TuningRun) (isInstrumented : Bool) : Outcome TuningRun := do
  let run := { run with next := .runPhaseExperiments, isInstrumented := isInstrumented }
  if isInstrumented then return run
  let (_, pools) ← run.pools.finishOne
  return { run with pools := pools }

/-- The request is made once, and pushed again as long as the application has to be restarted. -/
def preparedRequest (run : TuningRun) : Outcome (List Scenario × ScenarioPoolSet) :=
  if run.scenariosExecuted then run.pools.createStrategyRequest
  else .ok (run.prepared, run.pools)

def runPhaseExperiments (run : TuningRun) (needRestart : Bool) : Outcome TuningRun := do
  if run.isInstrumented then
    let (prepared, pools) ← run.preparedRequest
    return { run with
      pools := pools
      prepared := prepared
      scenariosExecuted := !needRestart
      next := if needRestart then .runPhaseExperiments else afterExperiment pools }
  else return { run with
    next := if run.scenariosExecuted then afterExperiment run.pools else .runPhaseExperiments }

def clearPools (run : TuningRun) : Clear → TuningRun
  | .unfinished => { run with pools := { run.pools with csp := .clear, psp := .clear, esp := .clear } }
  | .all => { run with pools := .init, created := [] }
  | .allAndIds => { run with pools := .init, created := [], scenarioId := 0 }

def step (run : TuningRun) : Event → Outcome TuningRun
  | .startTuningStep => .ok { run with next := .createScenarios }
  | .createScenarios created => .ok (run.createScenarios created)
  | .prepareScenarios pops => run.prepareScenarios pops
  | .defineExperiment pops => run.defineExperiment pops
  | .considerRestart isInstrumented => run.considerRestart isInstrumented
  | .runPhaseExperiments needRestart => run.runPhaseExperiments needRestart
  | .searchFinished answer =>
    .ok { run with next := if answer then .tuningFinished else .createScenarios }
  | .tuningFinished answer =>
    .ok { run with next := if answer then .createTuningAdvice else .startTuningStep }
  | .clearPools which => .ok (run.clearPools which)

/-- The loops of the frontend post the event here, and the plugin moves scenarios that are there.
The pools are emptied by the hooks between two searches. -/
def Enabled (run : TuningRun) : Event → Prop
  | .startTuningStep => run.next = .startTuningStep
  | .createScenarios _ => run.next = .createScenarios
  | .prepareScenarios pops => run.next = .prepareScenarios ∧
    ∃ moved, moveScenarios run.pools.csp run.pools.psp pops = .ok moved
  | .defineExperiment pops => run.next = .defineExperiment ∧
    ∃ moved, moveScenarios run.pools.psp run.pools.esp pops = .ok moved
  | .considerRestart _ => run.next = .considerRestart
  | .runPhaseExperiments _ => run.next = .runPhaseExperiments
  | .searchFinished _ => run.next = .searchFinished
  | .tuningFinished _ => run.next = .tuningFinished
  | .clearPools _ => run.next ∈ [.startTuningStep, .createScenarios, .tuningFinished]

/-- A run of the loops of `run_tuning_plugin` from here on, as far as it is defined. -/
def Legal : TuningRun → List Event → Prop
  | _, [] => True
  | run, event :: events => run.Enabled event ∧
    ∀ run', run.step event = .ok run' → Legal run' events

/-- Every scenario that was created is in one pool, and nothing else is in any. -/
structure Conserved (run : TuningRun) : Prop where
  once : run.pools.contents.Nodup
  mem_iff : ∀ scenario, scenario ∈ run.pools.contents ↔ scenario ∈ run.created

/-- A scenario stays in its pool or is in the next one. -/
structure Forward (run run' : TuningRun) : Prop where
  created : ∀ scenario ∈ run.pools.csp.contents,
    scenario ∈ run'.pools.csp.contents ∨ scenario ∈ run'.pools.psp.contents
  prepared : ∀ scenario ∈ run.pools.psp.contents,
    scenario ∈ run'.pools.psp.contents ∨ scenario ∈ run'.pools.esp.contents
  experiment : ∀ scenario ∈ run.pools.esp.contents,
    scenario ∈ run'.pools.esp.contents ∨ scenario ∈ run'.pools.fsp.contents
  finished : ∀ scenario ∈ run.pools.fsp.contents,
    scenario ∈ run'.created → scenario ∈ run'.pools.fsp.contents
  fresh : ∀ scenario ∈ run'.created, scenario ∈ run.created ∨
    scenario ∈ run'.pools.csp.contents

/-- The scenarios are conserved along a run: in each state, by each step, and all of them are
finished when a search step ends. -/
def Conserves : TuningRun → List Event → Prop
  | run, [] => run.Conserved
  | run, event :: events => run.Conserved ∧
    (event.endsSearchStep = true → ∀ scenario ∈ run.created, scenario ∈ run.pools.fsp.contents) ∧
    ∃ run', run.step event = .ok run' ∧ run.Forward run' ∧ Conserves run' events

/-- Counting along the run, no experiment without instrumentation finds no scenario, and none
waits when a search step ends. -/
def Balanced : Waiting → List Event → Prop
  | _, [] => True
  | waiting, event :: events => event.Met waiting ∧ Balanced (event.waiting waiting) events

/-- The pools hold the created scenarios, and each has an id of its own. -/
structure Pooled (run : TuningRun) : Prop where
  contents : run.pools.contents.Perm run.created
  ids : (run.created.map Scenario.id).Nodup
  fresh : ∀ scenario ∈ run.created, scenario.id < run.scenarioId

theorem Pooled.nodup_ids {run : TuningRun} (h : run.Pooled) :
    (run.pools.contents.map Scenario.id).Nodup :=
  (h.contents.map _).nodup_iff.mpr h.ids

theorem Pooled.conserved {run : TuningRun} (h : run.Pooled) : run.Conserved :=
  ⟨h.nodup_ids.of_map _, fun _ => h.contents.mem_iff⟩

theorem Pooled.of_perm {run run' : TuningRun} (h : run.Pooled)
    (hpools : run'.pools.contents.Perm run.pools.contents) (hcreated : run'.created = run.created)
    (hid : run'.scenarioId = run.scenarioId) : run'.Pooled :=
  ⟨hcreated ▸ hpools.trans h.contents, hcreated ▸ h.ids, by rw [hcreated, hid]; exact h.fresh⟩

/-- What the location says about pools and flags. -/
structure Settled (run : TuningRun) : Prop where
  searched : run.next ∈ [.startTuningStep, .createScenarios, .tuningFinished, .createTuningAdvice] →
    run.pools.csp.contents = [] ∧ run.pools.psp.contents = [] ∧ run.pools.esp.contents = []
  searching : run.next = .searchFinished →
    run.pools.csp.contents = [] ∧ run.pools.psp.contents = []
  restarted : run.scenariosExecuted = false →
    run.next = .runPhaseExperiments ∧ run.isInstrumented = true ∧ run.pools.esp.contents = []

/-- The invariant of a run, with the count of the scenarios that wait. -/
structure Tracked (waiting : Waiting) (run : TuningRun) : Prop where
  pooled : run.Pooled
  settled : run.Settled
  count : run.pools.esp.size = waiting.count
  isInstrumented : run.isInstrumented = waiting.isInstrumented

theorem tracked_start : start.Tracked ⟨0, true⟩ where
  pooled := ⟨.refl _, by simp [start], by simp [start]⟩
  settled := ⟨fun _ => ⟨rfl, rfl, rfl⟩, fun h => absurd h (by decide), fun h => absurd h (by decide)⟩
  count := rfl
  isInstrumented := rfl

/-- The pools after scenarios have been created. -/
structure Created (run run' : TuningRun) : Prop where
  pooled : run'.Pooled
  psp : run'.pools.psp = run.pools.psp
  esp : run'.pools.esp = run.pools.esp
  fsp : run'.pools.fsp = run.pools.fsp
  csp : run.pools.csp.contents ⊆ run'.pools.csp.contents
  created : ∀ scenario ∈ run'.created, scenario ∈ run.created ∨
    scenario ∈ run'.pools.csp.contents
  flags : run'.scenariosExecuted = run.scenariosExecuted ∧ run'.isInstrumented = run.isInstrumented

theorem created_createScenario {run : TuningRun} (h : run.Pooled)
    (ts : List TuningSpecification) : run.Created (run.createScenario ts) := by
  have hnew : ∀ scenario ∈ run.pools.csp.contents, scenario.id < run.scenarioId := by
    intro scenario hmem
    exact h.fresh scenario (h.contents.subset (List.mem_append_left _ hmem))
  have hpush : ((run.createScenario ts).pools.csp.contents).Perm
      (⟨run.scenarioId, ts⟩ :: run.pools.csp.contents) := by
    apply ScenarioPool.push_perm
    intro hmem
    obtain ⟨scenario, hscenario, hid⟩ := List.mem_map.mp hmem
    exact (hnew scenario hscenario).ne hid
  have hcreated : (run.createScenario ts).created = run.created ++ [⟨run.scenarioId, ts⟩] := rfl
  refine ⟨⟨?_, ?_, ?_⟩, rfl, rfl, rfl, ?_, ?_, rfl, rfl⟩
  · rw [hcreated]
    calc List.Perm (run.createScenario ts).pools.contents
          (⟨run.scenarioId, ts⟩ :: run.pools.contents) := hpush.append_right _
      List.Perm _ (⟨run.scenarioId, ts⟩ :: run.created) := h.contents.cons _
      List.Perm _ (run.created ++ [⟨run.scenarioId, ts⟩]) := (List.perm_append_singleton _ _).symm
  · rw [hcreated, List.map_append, List.map_singleton]
    refine List.nodup_append.mpr ⟨h.ids, List.nodup_singleton _, ?_⟩
    intro id hid other hother
    obtain ⟨scenario, hscenario, hkey⟩ := List.mem_map.mp hid
    rw [List.mem_singleton.mp hother, ← hkey]
    exact (h.fresh scenario hscenario).ne
  · intro scenario hmem
    rw [hcreated] at hmem
    change scenario.id < run.scenarioId + 1
    cases List.mem_append.mp hmem with
    | inl hold => exact Nat.lt_succ_of_lt (h.fresh scenario hold)
    | inr hself =>
      rw [List.mem_singleton.mp hself]
      exact Nat.lt_succ_self _
  · exact fun _ hmem => hpush.symm.subset (List.mem_cons_of_mem _ hmem)
  · intro scenario hmem
    rw [hcreated] at hmem
    refine (List.mem_append.mp hmem).imp_right fun hself => ?_
    rw [List.mem_singleton.mp hself]
    exact hpush.symm.subset List.mem_cons_self

theorem Created.refl {run : TuningRun} (h : run.Pooled) : run.Created run :=
  ⟨h, rfl, rfl, rfl, List.Subset.refl _, fun _ => .inl, rfl, rfl⟩

theorem Created.trans {run run₁ run₂ : TuningRun} (h : run.Created run₁)
    (h' : run₁.Created run₂) : run.Created run₂ where
  pooled := h'.pooled
  psp := h'.psp.trans h.psp
  esp := h'.esp.trans h.esp
  fsp := h'.fsp.trans h.fsp
  csp := fun _ hs => h'.csp (h.csp hs)
  created := fun scenario hs => (h'.created scenario hs).elim
    (fun hmid => (h.created scenario hmid).imp_right fun hcsp => h'.csp hcsp) .inr
  flags := ⟨h'.flags.1.trans h.flags.1, h'.flags.2.trans h.flags.2⟩

theorem created_foldl (created : List (List TuningSpecification)) :
    ∀ {run : TuningRun}, run.Pooled → run.Created (created.foldl createScenario run) := by
  induction created with
  | nil => exact fun h => .refl h
  | cons ts created ih =>
    intro run h
    have hone := created_createScenario h ts
    exact hone.trans (ih hone.pooled)

/-- A step that leaves pools and history alone is no move. -/
theorem Forward.of_same {run run' : TuningRun} (hpools : run'.pools = run.pools)
    (hcreated : run'.created = run.created) : run.Forward run' where
  created := fun _ hs => .inl (hpools ▸ hs)
  prepared := fun _ hs => .inl (hpools ▸ hs)
  experiment := fun _ hs => .inl (hpools ▸ hs)
  finished := fun _ hs _ => hpools ▸ hs
  fresh := fun _ hs => .inl (hcreated ▸ hs)

theorem Tracked.createScenarios {waiting : Waiting} {run : TuningRun} (h : run.Tracked waiting)
    (hnext : run.next = .createScenarios) (created : List (List TuningSpecification)) :
    run.Forward (run.createScenarios created) ∧ (run.createScenarios created).Tracked waiting := by
  have hcreated := created_foldl created h.pooled
  have hempty := h.settled.searched (by simp [hnext])
  unfold TuningRun.createScenarios
  revert hcreated
  generalize created.foldl createScenario run = run₁
  intro hcreated
  refine ⟨⟨?_, ?_, ?_, ?_, ?_⟩, ⟨?_, ?_, ?_, ?_⟩⟩
  · exact fun _ hs => .inl (hcreated.csp hs)
  · exact fun _ hs => .inl (by rw [hcreated.psp]; exact hs)
  · exact fun _ hs => .inl (by rw [hcreated.esp]; exact hs)
  · exact fun _ hs _ => by rw [hcreated.fsp]; exact hs
  · exact hcreated.created
  · exact ⟨hcreated.pooled.contents, hcreated.pooled.ids, hcreated.pooled.fresh⟩
  · refine ⟨?_, ?_, ?_⟩
    · intro hmem
      dsimp only at hmem
      split_ifs at hmem <;> simp at hmem
    · intro hsearching
      dsimp only at hsearching ⊢
      have hcsp : run₁.pools.csp.empty = true := by
        by_contra hne
        simp [hne] at hsearching
      exact ⟨ScenarioPool.empty_iff.mp hcsp, hcreated.psp ▸ hempty.2.1⟩
    · intro hexecuted
      have hrestarted := (h.settled.restarted (hcreated.flags.1 ▸ hexecuted)).1
      exact absurd (hnext.symm.trans hrestarted) (by decide)
  · rw [show run₁.pools.esp = run.pools.esp from hcreated.esp]
    exact h.count
  · exact hcreated.flags.2.trans h.isInstrumented

theorem Tracked.prepareScenarios {waiting : Waiting} {run : TuningRun} (h : run.Tracked waiting)
    (hnext : run.next = .prepareScenarios) {csp psp : ScenarioPool} {pops : List Pop}
    (hmoves : moveScenarios run.pools.csp run.pools.psp pops = .ok (csp, psp)) :
    ∃ run', run.prepareScenarios pops = .ok run' ∧ run.Forward run' ∧ run'.Tracked waiting := by
  have hids : ((run.pools.csp.contents ++ run.pools.psp.contents).map Scenario.id).Nodup := by
    refine h.pooled.nodup_ids.sublist (List.Sublist.map _ ?_)
    exact (List.sublist_append_left _ _).append_left _
  have hmoved := moveScenarios_ok hids hmoves
  refine ⟨_, by rw [TuningRun.prepareScenarios, hmoves]; rfl, ⟨?_, ?_, ?_, ?_, ?_⟩, ⟨?_, ?_, ?_, ?_⟩⟩
  · exact hmoved.mem
  · exact fun _ hs => .inl (hmoved.stays hs)
  · exact fun _ hs => .inl hs
  · exact fun _ hs _ => hs
  · exact fun _ hs => .inl hs
  · exact h.pooled.of_perm (ScenarioPoolSet.contents_prepared rfl rfl hmoved) rfl rfl
  · refine ⟨fun hmem => absurd hmem (by simp), fun hnot => absurd hnot (by simp), fun hexecuted => ?_⟩
    exact absurd (hnext.symm.trans (h.settled.restarted hexecuted).1) (by decide)
  · exact h.count
  · exact h.isInstrumented

theorem Tracked.defineExperiment {waiting : Waiting} {run : TuningRun} (h : run.Tracked waiting)
    (hnext : run.next = .defineExperiment) {psp esp : ScenarioPool} {pops : List Pop}
    (hmoves : moveScenarios run.pools.psp run.pools.esp pops = .ok (psp, esp)) :
    ∃ run', run.defineExperiment pops = .ok run' ∧ run.Forward run' ∧
      run'.Tracked { waiting with count := waiting.count + pops.length } := by
  have hids : ((run.pools.psp.contents ++ run.pools.esp.contents).map Scenario.id).Nodup := by
    refine h.pooled.nodup_ids.sublist (List.Sublist.map _ ?_)
    refine List.Sublist.trans ?_ (List.sublist_append_right _ _)
    exact (List.sublist_append_left _ _).append_left _
  have hmoved := moveScenarios_ok hids hmoves
  refine ⟨_, by rw [TuningRun.defineExperiment, hmoves]; rfl, ⟨?_, ?_, ?_, ?_, ?_⟩, ⟨?_, ?_, ?_, ?_⟩⟩
  · exact fun _ hs => .inl hs
  · exact hmoved.mem
  · exact fun _ hs => .inl (hmoved.stays hs)
  · exact fun _ hs _ => hs
  · exact fun _ hs => .inl hs
  · exact h.pooled.of_perm (ScenarioPoolSet.contents_defined rfl rfl hmoved) rfl rfl
  · refine ⟨fun hmem => absurd hmem (by simp), fun hnot => absurd hnot (by simp), fun hexecuted => ?_⟩
    exact absurd (hnext.symm.trans (h.settled.restarted hexecuted).1) (by decide)
  · exact hmoved.size.trans (congrArg (· + pops.length) h.count)
  · exact h.isInstrumented

theorem Tracked.considerRestart {waiting : Waiting} {run : TuningRun} (h : run.Tracked waiting)
    (hnext : run.next = .considerRestart) {isInstrumented : Bool}
    (hmet : isInstrumented = false → 0 < waiting.count) :
    ∃ run', run.considerRestart isInstrumented = .ok run' ∧ run.Forward run' ∧ run'.Tracked
      ⟨if isInstrumented then waiting.count else waiting.count - 1, isInstrumented⟩ := by
  have hexecuted : run.scenariosExecuted ≠ false := fun hexecuted =>
    absurd (hnext.symm.trans (h.settled.restarted hexecuted).1) (by decide)
  cases isInstrumented with
  | true =>
    refine ⟨_, rfl, .of_same rfl rfl, ⟨h.pooled.of_perm (.refl _) rfl rfl, ?_, h.count, rfl⟩⟩
    exact ⟨fun hmem => absurd hmem (by simp), fun hnot => absurd hnot (by simp),
      fun hnot => absurd hnot hexecuted⟩
  | false =>
    have hwaits : run.pools.esp.empty = false := by
      refine Bool.eq_false_iff.mpr fun hempty => ?_
      have hlength := run.pools.esp.length_contents
      rw [ScenarioPool.empty_iff.mp hempty, List.length_nil, h.count] at hlength
      exact (hmet rfl).ne hlength
    obtain ⟨scenario, pools, hone⟩ := ScenarioPoolSet.finishOne_returns hwaits
    obtain ⟨hcsp, hpsp, hpop, hmoved⟩ := ScenarioPoolSet.finishOne_ok h.pooled.nodup_ids hone
    have hcontents := ScenarioPoolSet.contents_finished hcsp hpsp hmoved
    refine ⟨{ run with next := .runPhaseExperiments, isInstrumented := false, pools := pools }, ?_,
      ⟨?_, ?_, ?_, ?_, ?_⟩, ⟨?_, ?_, ?_, rfl⟩⟩
    · simp [TuningRun.considerRestart, hone]
    · exact fun _ hs => .inl (hcsp ▸ hs)
    · exact fun _ hs => .inl (hpsp ▸ hs)
    · exact hmoved.mem
    · exact fun _ hs _ => hmoved.stays hs
    · exact fun _ hs => .inl hs
    · exact h.pooled.of_perm hcontents rfl rfl
    · exact ⟨fun hmem => absurd hmem (by simp), fun hnot => absurd hnot (by simp),
        fun hnot => absurd hnot hexecuted⟩
    · have hlength := hpop.length_eq
      rw [List.length_cons, ScenarioPool.length_contents, ScenarioPool.length_contents,
        h.count] at hlength
      change pools.esp.size = waiting.count - 1
      omega

/-- The loops go on to the end of the search step only with the first two pools empty. -/
theorem afterExperiment_searched {pools : ScenarioPoolSet} :
    afterExperiment pools ∉
      [Location.startTuningStep, .createScenarios, .tuningFinished, .createTuningAdvice] ∧
    (afterExperiment pools = .searchFinished →
      pools.csp.contents = [] ∧ pools.psp.contents = []) := by
  unfold afterExperiment
  cases hpsp : pools.psp.empty with
  | false => simp
  | true =>
    cases hcsp : pools.csp.empty with
    | false => simp
    | true => simp [ScenarioPool.empty_iff.mp hpsp, ScenarioPool.empty_iff.mp hcsp]

/-- The pools after the phase, and where the loops go on. -/
theorem settled_afterPhase {run : TuningRun} {needRestart : Bool}
    (hexecuted : run.scenariosExecuted = !needRestart)
    (hnext : run.next = if needRestart then .runPhaseExperiments else afterExperiment run.pools)
    (hesp : needRestart = true → run.isInstrumented = true ∧ run.pools.esp.contents = []) :
    run.Settled := by
  have hafter := @afterExperiment_searched run.pools
  cases needRestart with
  | true =>
    simp only [if_true] at hnext
    exact ⟨fun hmem => absurd (hnext ▸ hmem) (by decide),
      fun hnot => absurd (hnext.symm.trans hnot) (by decide), fun _ => ⟨hnext, hesp rfl⟩⟩
  | false =>
    simp only [Bool.false_eq_true, if_false] at hnext
    exact ⟨fun hmem => absurd (hnext ▸ hmem) hafter.1, fun hat => hafter.2 (hnext.symm.trans hat),
      fun hnot => absurd (hexecuted.symm.trans hnot) (by decide)⟩

theorem Tracked.runPhaseExperiments {waiting : Waiting} {run : TuningRun}
    (h : run.Tracked waiting) (needRestart : Bool) :
    ∃ run', run.runPhaseExperiments needRestart = .ok run' ∧ run.Forward run' ∧ run'.Tracked
      { waiting with count := if waiting.isInstrumented then 0 else waiting.count } := by
  rw [← h.isInstrumented]
  cases hinstrumented : run.isInstrumented with
  | false =>
    have hexecuted : run.scenariosExecuted = true := by
      by_contra hne
      have hrestarted := (h.settled.restarted (Bool.eq_false_iff.mpr hne)).2.1
      exact Bool.false_ne_true (hinstrumented.symm.trans hrestarted)
    refine ⟨{ run with next := afterExperiment run.pools }, ?_, .of_same rfl rfl,
      ⟨h.pooled.of_perm (.refl _) rfl rfl, ?_, h.count, hinstrumented⟩⟩
    · simp [TuningRun.runPhaseExperiments, hinstrumented, hexecuted]
    · exact @settled_afterPhase _ false hexecuted rfl (by simp)
  | true =>
    -- Either the request is made now, or it was made before the restart.
    obtain ⟨prepared, pools, hrequest, hcsp, hpsp, hesp, count, hmoved⟩ :
        ∃ prepared pools, run.preparedRequest = .ok (prepared, pools) ∧
          pools.csp = run.pools.csp ∧ pools.psp = run.pools.psp ∧ pools.esp.contents = [] ∧
          ∃ count, Moved count run.pools.esp run.pools.fsp pools.esp pools.fsp := by
      rw [preparedRequest]
      cases hexecuted : run.scenariosExecuted with
      | true =>
        obtain ⟨made, hmade, hrequested⟩ :=
          ScenarioPoolSet.createStrategyRequest_ok h.pooled.nodup_ids
        exact ⟨made.1, made.2, hmade, hrequested.csp, hrequested.psp, hrequested.esp, _,
          hrequested.fsp⟩
      | false =>
        exact ⟨run.prepared, run.pools, rfl, rfl, rfl, (h.settled.restarted hexecuted).2.2, 0,
          .refl _ _⟩
    refine ⟨{ run with
      pools := pools
      prepared := prepared
      scenariosExecuted := !needRestart
      next := if needRestart then .runPhaseExperiments else afterExperiment pools }, ?_,
      ⟨?_, ?_, ?_, ?_, ?_⟩, ⟨?_, ?_, ?_, hinstrumented⟩⟩
    · rw [TuningRun.runPhaseExperiments, if_pos hinstrumented, hrequest]
      rfl
    · exact fun _ hs => .inl (hcsp ▸ hs)
    · exact fun _ hs => .inl (hpsp ▸ hs)
    · exact hmoved.mem
    · exact fun _ hs _ => hmoved.stays hs
    · exact fun _ hs => .inl hs
    · exact h.pooled.of_perm (ScenarioPoolSet.contents_finished hcsp hpsp hmoved) rfl rfl
    · exact settled_afterPhase rfl rfl fun _ => ⟨hinstrumented, hesp⟩
    · change pools.esp.size = 0
      rw [← ScenarioPool.length_contents, hesp, List.length_nil]

/-- Between two searches the pools are emptied, and the history with them. -/
theorem Tracked.clearPools {waiting : Waiting} {run : TuningRun} (h : run.Tracked waiting)
    (hnext : run.next ∈ [.startTuningStep, .createScenarios, .tuningFinished]) (which : Clear) :
    run.Forward (run.clearPools which) ∧ (run.clearPools which).Tracked waiting := by
  obtain ⟨hcsp, hpsp, hesp⟩ := h.settled.searched (List.mem_append_left [_] hnext)
  have hcount : (0 : Nat) = waiting.count := by
    rw [← h.count, ← ScenarioPool.length_contents, hesp, List.length_nil]
  have hsettled : ∀ run' : TuningRun, run'.next = run.next →
      run'.scenariosExecuted = run.scenariosExecuted → run'.isInstrumented = run.isInstrumented →
      run'.pools.csp = .clear → run'.pools.psp = .clear → run'.pools.esp = .clear →
      run'.Settled := by
    intro run' hnext' hexecuted hinstrumented hcsp' hpsp' hesp'
    rw [← ScenarioPool.contents_clear] at hcsp hpsp hesp
    refine ⟨fun _ => ?_, fun _ => ?_, fun hnot => ?_⟩
    · rw [hcsp', hpsp', hesp']
      exact ⟨rfl, rfl, rfl⟩
    · rw [hcsp', hpsp']
      exact ⟨rfl, rfl⟩
    · have hrestarted := h.settled.restarted (hexecuted.symm.trans hnot)
      rw [hnext', hinstrumented, hesp']
      exact ⟨hrestarted.1, hrestarted.2.1, rfl⟩
  have hforward : ∀ run' : TuningRun, run'.created ⊆ run.created →
      (run'.created ≠ [] → run'.pools.fsp = run.pools.fsp) → run.Forward run' := by
    intro run' hcreated hfsp
    refine ⟨?_, ?_, ?_, ?_, fun _ hs => .inl (hcreated hs)⟩
    · exact fun _ hs => absurd (hcsp ▸ hs) List.not_mem_nil
    · exact fun _ hs => absurd (hpsp ▸ hs) List.not_mem_nil
    · exact fun _ hs => absurd (hesp ▸ hs) List.not_mem_nil
    · exact fun _ hs hin => (hfsp (List.ne_nil_of_mem hin)) ▸ hs
  cases which with
  | unfinished =>
    refine ⟨hforward _ (List.Subset.refl _) fun _ => rfl, ⟨?_, hsettled _ rfl rfl rfl rfl rfl rfl,
      hcount, h.isInstrumented⟩⟩
    refine h.pooled.of_perm ?_ rfl rfl
    change List.Perm run.pools.fsp.contents run.pools.contents
    rw [ScenarioPoolSet.contents, hcsp, hpsp, hesp]
    exact .refl _
  | all =>
    refine ⟨hforward _ (List.nil_subset _) fun hne => absurd rfl hne, ⟨⟨.refl _, List.nodup_nil,
      fun _ hs => absurd hs List.not_mem_nil⟩, hsettled _ rfl rfl rfl rfl rfl rfl, hcount,
      h.isInstrumented⟩⟩
  | allAndIds =>
    refine ⟨hforward _ (List.nil_subset _) fun hne => absurd rfl hne, ⟨⟨.refl _, List.nodup_nil,
      fun _ hs => absurd hs List.not_mem_nil⟩, hsettled _ rfl rfl rfl rfl rfl rfl, hcount,
      h.isInstrumented⟩⟩

theorem Tracked.esp_eq_nil {waiting : Waiting} {run : TuningRun} (h : run.Tracked waiting)
    (hcount : waiting.count = 0) : run.pools.esp.contents = [] :=
  List.eq_nil_of_length_eq_zero (run.pools.esp.length_contents.trans (h.count.trans hcount))

theorem Tracked.searchFinished {waiting : Waiting} {run : TuningRun} (h : run.Tracked waiting)
    (hnext : run.next = .searchFinished) (hcount : waiting.count = 0) (answer : Bool) :
    ({ run with next := if answer then .tuningFinished else .createScenarios } :
      TuningRun).Tracked waiting := by
  obtain ⟨hcsp, hpsp⟩ := h.settled.searching hnext
  refine ⟨h.pooled.of_perm (.refl _) rfl rfl, ⟨fun _ => ⟨hcsp, hpsp, h.esp_eq_nil hcount⟩,
    fun _ => ⟨hcsp, hpsp⟩, fun hnot => ?_⟩, h.count, h.isInstrumented⟩
  exact absurd (hnext.symm.trans (h.settled.restarted hnot).1) (by decide)

/-- From one location between the searches to another. -/
theorem Tracked.goOn {waiting : Waiting} {run : TuningRun} (h : run.Tracked waiting)
    (hnext : run.next ∈ [.startTuningStep, .createScenarios, .tuningFinished, .createTuningAdvice])
    (location : Location) : ({ run with next := location } : TuningRun).Tracked waiting := by
  have hempty := h.settled.searched hnext
  refine ⟨h.pooled.of_perm (.refl _) rfl rfl, ⟨fun _ => hempty, fun _ => ⟨hempty.1, hempty.2.1⟩,
    fun hnot => ?_⟩, h.count, h.isInstrumented⟩
  rw [(h.settled.restarted hnot).1] at hnext
  exact absurd hnext (by decide)

/-- An event whose demand on the count is met moves the scenarios on and keeps the invariant. -/
theorem Tracked.step {waiting : Waiting} {run : TuningRun} (h : run.Tracked waiting)
    {event : Event} (henabled : run.Enabled event) (hmet : event.Met waiting) :
    ∃ run', run.step event = .ok run' ∧ run.Forward run' ∧
      run'.Tracked (event.waiting waiting) := by
  cases event with
  | startTuningStep =>
    exact ⟨_, rfl, .of_same rfl rfl, h.goOn (by simp [show run.next = _ from henabled]) _⟩
  | createScenarios created => exact ⟨_, rfl, h.createScenarios henabled created⟩
  | prepareScenarios pops =>
    obtain ⟨hnext, ⟨csp, psp⟩, hmoves⟩ := henabled
    exact h.prepareScenarios hnext hmoves
  | defineExperiment pops =>
    obtain ⟨hnext, ⟨psp, esp⟩, hmoves⟩ := henabled
    exact h.defineExperiment hnext hmoves
  | considerRestart isInstrumented => exact h.considerRestart henabled hmet
  | runPhaseExperiments needRestart => exact h.runPhaseExperiments needRestart
  | searchFinished answer =>
    exact ⟨_, rfl, .of_same rfl rfl, h.searchFinished henabled hmet answer⟩
  | tuningFinished answer =>
    exact ⟨_, rfl, .of_same rfl rfl, h.goOn (by simp [show run.next = _ from henabled]) _⟩
  | clearPools which => exact ⟨_, rfl, h.clearPools henabled which⟩

/-- Where the demand is not met, a pop fails or a scenario is left behind. -/
theorem Tracked.met {waiting : Waiting} {run : TuningRun} (h : run.Tracked waiting)
    {event : Event} (hfinished : event.endsSearchStep = true →
      ∀ scenario ∈ run.created, scenario ∈ run.pools.fsp.contents)
    {run' : TuningRun} (hstep : run.step event = .ok run') : event.Met waiting := by
  cases event with
  | considerRestart isInstrumented =>
    rintro rfl
    by_contra hnone
    have hentries : run.pools.esp.scenarios.entries = [] :=
      List.eq_nil_of_length_eq_zero (h.count.trans (Nat.eq_zero_of_not_pos hnone))
    have hundefined : run.pools.finishOne = .undefined := by
      rw [ScenarioPoolSet.finishOne, ScenarioPool.pop, hentries]
      rfl
    simp [TuningRun.step, TuningRun.considerRestart, hundefined] at hstep
  | searchFinished answer =>
    change waiting.count = 0
    rw [← h.count, ← ScenarioPool.length_contents, List.length_eq_zero_iff]
    -- A scenario that waits would be in two pools.
    refine List.eq_nil_iff_forall_not_mem.mpr fun scenario hwaits => ?_
    have hcreated := h.pooled.contents.subset (List.mem_append_right _
      (List.mem_append_right _ (List.mem_append_left run.pools.fsp.contents hwaits)))
    have honce := h.pooled.conserved.once
    have hlate := (List.nodup_append.mp (List.nodup_append.mp honce).2.1).2.1
    exact (List.nodup_append.mp hlate).2.2 scenario hwaits scenario (hfinished rfl _ hcreated) rfl
  | startTuningStep => trivial
  | createScenarios created => trivial
  | prepareScenarios pops => trivial
  | defineExperiment pops => trivial
  | runPhaseExperiments needRestart => trivial
  | tuningFinished answer => trivial
  | clearPools which => trivial

/-- With nothing left to wait all scenarios are finished. -/
theorem Tracked.finished {waiting : Waiting} {run : TuningRun} (h : run.Tracked waiting)
    (hnext : run.next = .searchFinished) (hcount : waiting.count = 0) :
    ∀ scenario ∈ run.created, scenario ∈ run.pools.fsp.contents := by
  intro scenario hmem
  obtain ⟨hcsp, hpsp⟩ := h.settled.searching hnext
  have hpooled := h.pooled.contents.symm.subset hmem
  rwa [ScenarioPoolSet.contents, hcsp, hpsp, h.esp_eq_nil hcount] at hpooled

/-- Induction on the events: the count of the scenarios that wait carries it. -/
theorem Tracked.conserves_iff : ∀ {events : List Event} {waiting : Waiting} {run : TuningRun},
    run.Tracked waiting → run.Legal events → (run.Conserves events ↔ Balanced waiting events) := by
  intro events
  induction events with
  | nil => exact fun h _ => iff_of_true h.pooled.conserved trivial
  | cons event events ih =>
    intro waiting run h hlegal
    constructor
    · intro hconserves
      obtain ⟨_, hfinished, run', hstep, _, hrest⟩ := hconserves
      have hmet := h.met hfinished hstep
      obtain ⟨run'', hstep', _, htracked⟩ := h.step hlegal.1 hmet
      have hsame : run' = run'' := Outcome.ok.inj (hstep.symm.trans hstep')
      exact ⟨hmet, (ih htracked (hlegal.2 _ hstep')).mp (hsame ▸ hrest)⟩
    · intro hbalanced
      obtain ⟨run', hstep, hforward, htracked⟩ := h.step hlegal.1 hbalanced.1
      refine ⟨h.pooled.conserved, fun hends => ?_, run', hstep, hforward,
        (ih htracked (hlegal.2 run' hstep)).mpr hbalanced.2⟩
      cases event with
      | searchFinished answer => exact h.finished hlegal.1 hbalanced.1
      | _ => cases hends

/-- A run conserves the scenarios exactly when the experiments take all that wait for them. -/
theorem tuningRun_conserves {events : List Event} (hlegal : start.Legal events) :
    start.Conserves events ↔ Balanced ⟨0, true⟩ events :=
  tracked_start.conserves_iff hlegal

/-- Two scenarios go into one experiment of an application without instrumentation. -/
def twoUninstrumented : List Event :=
  [.startTuningStep, .createScenarios [[], []], .prepareScenarios [.lowest, .lowest],
    .defineExperiment [.lowest, .lowest], .considerRestart false, .runPhaseExperiments false,
    .searchFinished true]

theorem legal_twoUninstrumented : start.Legal twoUninstrumented := by
  refine ⟨rfl, fun _ h => ?_⟩
  cases h
  refine ⟨rfl, fun _ h => ?_⟩
  cases h
  refine ⟨⟨rfl, _, rfl⟩, fun _ h => ?_⟩
  cases h
  refine ⟨⟨rfl, _, rfl⟩, fun _ h => ?_⟩
  cases h
  refine ⟨rfl, fun _ h => ?_⟩
  cases h
  refine ⟨rfl, fun _ h => ?_⟩
  cases h
  exact ⟨rfl, fun _ _ => trivial⟩

theorem not_tuningRun_conserves :
    ¬ ∀ events : List Event, start.Legal events → start.Conserves events := by
  intro hall
  have hbalanced := (tracked_start.conserves_iff legal_twoUninstrumented).mp
    (hall _ legal_twoUninstrumented)
  simp [twoUninstrumented, Balanced, Event.Met, Event.waiting] at hbalanced

theorem tuningRun_conserves_restarted :
    start.Conserves [.startTuningStep, .createScenarios [[], []],
      .prepareScenarios [.lowest, .byId 1], .defineExperiment [.byId 1, .lowest],
      .considerRestart true, .runPhaseExperiments true, .runPhaseExperiments false,
      .searchFinished true] := by
  refine (tuningRun_conserves ?_).mpr ?_
  · refine ⟨rfl, fun _ h => ?_⟩
    cases h
    refine ⟨rfl, fun _ h => ?_⟩
    cases h
    refine ⟨⟨rfl, _, rfl⟩, fun _ h => ?_⟩
    cases h
    refine ⟨⟨rfl, _, rfl⟩, fun _ h => ?_⟩
    cases h
    refine ⟨rfl, fun _ h => ?_⟩
    cases h
    refine ⟨rfl, fun _ h => ?_⟩
    cases h
    refine ⟨rfl, fun _ h => ?_⟩
    cases h
    exact ⟨rfl, fun _ _ => trivial⟩
  · simp [Balanced, Event.Met, Event.waiting]

end TuningRun
end ReadexPtf.Frontend
