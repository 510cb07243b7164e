import ReadexPtf.Frontend.TuningRuns
import ReadexPtf.MpiParameters.Plugin
import Mathlib

/-! Preparation and execution of the scenarios: each call of the plugin skips the scenarios
whose commands were run before and prepares the next one, which is run on its own. -/
namespace ReadexPtf.MpiParameters
open ReadexPtf.Agents Frontend Autotune
variable {V : Type} (plugin : MPIParametersPlugin (V := V))

structure State (V : Type) where
  pools : ScenarioPoolSet
  srp : ScenarioResultsPool V
  /-- The scenarios that were prepared under the check sums of their commands. -/
  checkSumVector : OrdMap ℤ ℕ
  appflags : String

section Prepare

structure Preparation (V : Type) where
  state : State V
  scenario : Scenario
  values : Variant
  command : String
  dontPushScenario : Bool

/-- The result of the earlier scenario is pushed for this one, and the next one is taken. -/
def skipScenario (earlier : ℕ) (prep : Preparation V) : Outcome (Preparation V) := do
  let oldMetaProp ← frontResult prep.state.srp earlier
  let newMetaProp ← copyResult plugin oldMetaProp prep.scenario
  let srp ← pushResult prep.state.srp newMetaProp
  let next ← prep.state.pools.csp.pop
  let values ← frontValues next.1
  return { prep with
    state := { prep.state with
      pools := { prep.state.pools with
        fsp := prep.state.pools.fsp.push prep.scenario
        csp := next.2 }
      srp := srp }
    scenario := next.1
    values := values
    command := "" }

/-- The last scenario is run even if its command was run before. -/
def prepareCommand (result : String × ℤ) (prep : Preparation V) : Outcome (Preparation V) :=
  match prep.state.checkSumVector.get? result.2 with
  | some earlier =>
    if prep.state.pools.csp.empty then
      .ok { prep with command := result.1, dontPushScenario := false }
    else skipScenario plugin earlier prep
  | none => .ok { prep with
      state := { prep.state with
        checkSumVector := prep.state.checkSumVector.insertNew result.2 prep.scenario.id }
      command := result.1
      dontPushScenario := false }

def prepareNext (prep : Preparation V) : Outcome (Preparation V) := do
  let result ← commandOf plugin prep.values
  prepareCommand plugin result prep

/-- The scenario is pushed, and its command is the flags of the next experiment. -/
def Preparation.push (prep : Preparation V) : State V :=
  { prep.state with
    pools := { prep.state.pools with psp := prep.state.pools.psp.push prep.scenario }
    appflags := prep.state.appflags ++ prep.command }

def prepareScenarios (state : State V) : Outcome (State V) :=
  if state.pools.csp.empty then .ok state
  else do
    let next ← state.pools.csp.pop
    let values ← frontValues next.1
    let prep ← Outcome.whileLoop Preparation.dontPushScenario (prepareNext plugin)
      (next.2.size + 1)
      { state := { state with pools := { state.pools with csp := next.2 }, appflags := "" }
        scenario := next.1
        values := values
        command := ""
        dontPushScenario := true }
    return prep.push

end Prepare

section Experiment
-- What running a scenario with the flags on the command line yields.
variable (result : Scenario → String → MetaProperty V)

def defineExperiment (state : State V) : Outcome (State V) :=
  if state.pools.psp.empty then .ok state
  else do
    let next ← state.pools.psp.pop
    if next.1.ts.length ≠ 1 then .throws "0"
    else return { state with
      pools := { state.pools with psp := next.2, esp := state.pools.esp.push next.1 } }

/-- The flags are cleared once they are on the command line. -/
def runExperiment (state : State V) : Outcome (State V) := do
  let next ← state.pools.finishOne
  let srp ← pushResult state.srp (result next.1 state.appflags)
  return { state with pools := next.2, srp := srp, appflags := "" }

def experiment (state : State V) : Outcome (State V) := do
  let state ← prepareScenarios plugin state
  let state ← defineExperiment state
  runExperiment result state

/-- The experiments for the scenarios that the search created. -/
def searchRound (state : State V) (created : ScenarioPool) : Outcome (State V) :=
  Outcome.whileLoop (fun state => !state.pools.csp.empty) (experiment plugin result) created.size
    { state with pools := { state.pools with csp := created } }

def State.start : State V := ⟨.init, .empty, .empty, ""⟩

def search (rounds : List ScenarioPool) : Outcome (State V) :=
  rounds.foldlM (searchRound plugin result) .start

end Experiment

/-! One scenario after the other, without the pools that the scenarios pass through. -/
section OneByOne
variable (result : Scenario → String → MetaProperty V)

structure Books (V : Type) where
  fsp : ScenarioPool
  srp : ScenarioResultsPool V
  checkSumVector : OrdMap ℤ ℕ

def Books.start : Books V := ⟨.clear, .empty, .empty⟩

/-- Between the experiments only the pool of created scenarios is in use. -/
def Books.state (books : Books V) (csp : ScenarioPool) : State V where
  pools := ⟨csp, .clear, .clear, books.fsp⟩
  srp := books.srp
  checkSumVector := books.checkSumVector
  appflags := ""

def Books.copy (books : Books V) (scenario : Scenario) (earlier : ℕ) : Outcome (Books V) := do
  let oldMetaProp ← frontResult books.srp earlier
  let newMetaProp ← copyResult plugin oldMetaProp scenario
  let srp ← pushResult books.srp newMetaProp
  return { books with fsp := books.fsp.push scenario, srp := srp }

def Books.execute (books : Books V) (scenario : Scenario) (command : String) :
    Outcome (Books V) :=
  if scenario.ts.length ≠ 1 then .throws "0"
  else do
    let srp ← pushResult books.srp (result scenario command)
    return { books with fsp := books.fsp.push scenario, srp := srp }

def Books.serveCommand (books : Books V) (scenario : Scenario) (last : Bool)
    (prepared : String × ℤ) : Outcome (Books V) :=
  match books.checkSumVector.get? prepared.2 with
  | some earlier =>
    if last then books.execute result scenario prepared.1 else books.copy plugin scenario earlier
  | none =>
    { books with checkSumVector := books.checkSumVector.insertNew prepared.2 scenario.id }.execute
      result scenario prepared.1

def Books.serve (books : Books V) (scenario : Scenario) (last : Bool) : Outcome (Books V) := do
  let values ← frontValues scenario
  let prepared ← commandOf plugin values
  books.serveCommand plugin result scenario last prepared

def Books.serveAll : Books V → List Scenario → Outcome (Books V)
  | books, [] => .ok books
  | books, scenario :: rest => do
    let books ← books.serve plugin result scenario rest.isEmpty
    books.serveAll rest

variable {plugin} {result}

/-- A scenario that was prepared is run by itself. -/
theorem execute_prepared (books : Books V) (csp : ScenarioPool) (scenario : Scenario)
    (values : Variant) (command : String) :
    (defineExperiment (Preparation.push ⟨books.state csp, scenario, values, command, false⟩) >>=
        runExperiment result) =
      books.execute result scenario command >>= fun books => .ok (books.state csp) := by
  have hpush : Preparation.push ⟨books.state csp, scenario, values, command, false⟩ =
      { books.state csp with
        pools := ⟨csp, ScenarioPool.clear.push scenario, .clear, books.fsp⟩
        appflags := command } := by
    rw [Preparation.push]
    simp only [Books.state, String.empty_append]
  have hfull : (ScenarioPool.clear.push scenario).empty = false := rfl
  rw [hpush, defineExperiment]
  dsimp only
  rw [hfull, if_neg Bool.false_ne_true, ScenarioPool.pop_push_clear, Outcome.ok_bind,
    Books.execute]
  split_ifs with hone
  · rfl
  · rw [Outcome.pure_eq, Outcome.ok_bind, runExperiment, ScenarioPoolSet.finishOne]
    dsimp only
    rw [ScenarioPool.pop_push_clear]
    simp only [Outcome.ok_bind, Outcome.pure_eq, bind_assoc]
    rfl

def Books.preparation (books : Books V) (csp : ScenarioPool) (scenario : Scenario)
    (values : Variant) : Preparation V :=
  ⟨books.state csp, scenario, values, "", true⟩

/-- What is done with the scenario that the loop of the preparation leaves, and after it. -/
def goOn (plugin : MPIParametersPlugin (V := V)) (result : Scenario → String → MetaProperty V)
    (experiments : ℕ) (prep : Preparation V) : Outcome (State V) := do
  let state ← defineExperiment prep.push
  let state ← runExperiment result state
  Outcome.whileLoop (fun state => !state.pools.csp.empty) (experiment plugin result) experiments
    state

/-- From the moment the scenario was taken from the pool that holds `rest`. -/
def PreparesOneByOne (plugin : MPIParametersPlugin (V := V))
    (result : Scenario → String → MetaProperty V) (rest : List Scenario) : Prop :=
  ∀ (scenario : Scenario) (books : Books V) (csp : ScenarioPool) (values : Variant)
    (fuel experiments : ℕ), frontValues scenario = .ok values → csp.contents = rest →
    rest.length < fuel → rest.length ≤ experiments →
    (Outcome.whileLoop Preparation.dontPushScenario (prepareNext plugin) fuel
        (books.preparation csp scenario values) >>= goOn plugin result experiments) =
      books.serveAll plugin result (scenario :: rest) >>= fun books => .ok (books.state .clear)

def RunsOneByOne (plugin : MPIParametersPlugin (V := V))
    (result : Scenario → String → MetaProperty V) (rest : List Scenario) : Prop :=
  ∀ (books : Books V) (csp : ScenarioPool) (experiments : ℕ), csp.contents = rest →
    rest.length ≤ experiments →
    Outcome.whileLoop (fun state => !state.pools.csp.empty) (experiment plugin result) experiments
        (books.state csp) =
      books.serveAll plugin result rest >>= fun books => .ok (books.state .clear)

theorem runsOneByOne_nil : RunsOneByOne plugin result [] := by
  intro books csp experiments hcsp _
  have hclear : csp = .clear := ScenarioPool.ext_contents hcsp
  subst hclear
  cases experiments <;> rfl

/-- Running the scenario, and what is done with the scenarios after it. -/
theorem execute_goOn {rest : List Scenario} (h : RunsOneByOne plugin result rest)
    {csp : ScenarioPool} (hcsp : csp.contents = rest) {experiments : ℕ}
    (hexperiments : rest.length ≤ experiments) (books : Books V) (scenario : Scenario)
    (values : Variant) (command : String) :
    goOn plugin result experiments ⟨books.state csp, scenario, values, command, false⟩ =
      books.execute result scenario command >>= fun books =>
        books.serveAll plugin result rest >>= fun books => .ok (books.state .clear) := by
  rw [goOn, ← bind_assoc, execute_prepared, bind_assoc]
  congr 1
  funext books
  rw [Outcome.ok_bind, h books csp experiments hcsp hexperiments]

/-- The loop ends with a scenario that is prepared. -/
theorem whileLoop_prepared (fuel : ℕ) (prep : Preparation V) (h : prep.dontPushScenario = false) :
    Outcome.whileLoop Preparation.dontPushScenario (prepareNext plugin) fuel prep = .ok prep := by
  cases fuel <;> rw [Outcome.whileLoop, h, if_neg Bool.false_ne_true]

/-- The result is copied, and the loop goes on with the next scenario. -/
theorem skipScenario_eq {csp csp' : ScenarioPool} {next : Scenario}
    (hpop : csp.pop = .ok (next, csp')) (books : Books V) (scenario : Scenario)
    (values : Variant) (earlier : ℕ) :
    skipScenario plugin earlier (books.preparation csp scenario values) =
      books.copy plugin scenario earlier >>= fun books =>
        frontValues next >>= fun values => .ok (books.preparation csp' next values) := by
  have hcsp : (books.preparation csp scenario values).state.pools.csp = csp := rfl
  rw [skipScenario, Books.copy, hcsp, hpop]
  simp only [bind_assoc, Outcome.ok_bind, Outcome.pure_eq]
  rfl

theorem prepareFrom {rest : List Scenario} (h : PreparesOneByOne plugin result rest)
    {csp : ScenarioPool} (hcsp : csp.contents = rest) {fuel experiments : ℕ}
    (hfuel : rest.length < fuel) (hexperiments : rest.length ≤ experiments) (books : Books V)
    (scenario : Scenario) :
    (frontValues scenario >>= fun values =>
      Outcome.whileLoop Preparation.dontPushScenario (prepareNext plugin) fuel
        (books.preparation csp scenario values) >>= goOn plugin result experiments) =
      books.serveAll plugin result (scenario :: rest) >>= fun books => .ok (books.state .clear) := by
  cases hvalues : frontValues scenario with
  | ok values => exact h scenario books csp values fuel experiments hvalues hcsp hfuel hexperiments
  | throws m => rw [Books.serveAll, Books.serve, hvalues]; rfl
  | aborts => rw [Books.serveAll, Books.serve, hvalues]; rfl
  | undefined => rw [Books.serveAll, Books.serve, hvalues]; rfl

theorem runsOneByOne_cons {scenario : Scenario} {rest : List Scenario}
    (h : PreparesOneByOne plugin result rest) : RunsOneByOne plugin result (scenario :: rest) := by
  intro books csp experiments hcsp hexperiments
  have hfull : csp.empty = false :=
    Bool.eq_false_iff.mpr fun h => by rw [ScenarioPool.empty_iff, hcsp] at h; cases h
  obtain ⟨csp', hpop, hrest⟩ := ScenarioPool.pop_of_contents hcsp
  cases experiments with
  | zero => cases hexperiments
  | succ experiments =>
    have hlength : rest.length ≤ experiments := Nat.succ_le_succ_iff.mp hexperiments
    have hsize : rest.length < csp'.size + 1 := by
      rw [← ScenarioPool.length_contents, hrest]
      exact Nat.lt_succ_self _
    rw [Outcome.whileLoop, if_pos (by rw [Books.state, hfull]; rfl), experiment, prepareScenarios]
    have hcsp' : (books.state csp).pools.csp = csp := rfl
    rw [hcsp', hfull, if_neg Bool.false_ne_true, hpop, Outcome.ok_bind]
    simp only [bind_assoc]
    exact prepareFrom h hrest hsize hlength books scenario

theorem preparesOneByOne {rest : List Scenario} (h : RunsOneByOne plugin result rest)
    (htail : ∀ next others, rest = next :: others → PreparesOneByOne plugin result others) :
    PreparesOneByOne plugin result rest := by
  intro scenario books csp values fuel experiments hvalues hcsp hfuel hexperiments
  cases fuel with
  | zero => cases hfuel
  | succ fuel =>
    have hloop : (books.preparation csp scenario values).dontPushScenario = true := rfl
    have hpreparation : (books.preparation csp scenario values).values = values := rfl
    have hknown : (books.preparation csp scenario values).state.checkSumVector =
      books.checkSumVector := rfl
    rw [Outcome.whileLoop, if_pos hloop, prepareNext, Books.serveAll, Books.serve, hvalues,
      Outcome.ok_bind, hpreparation]
    cases hcommand : commandOf plugin values with
    | throws m => rfl
    | aborts => rfl
    | undefined => rfl
    | ok prepared =>
      rw [Outcome.ok_bind, Outcome.ok_bind, prepareCommand, Books.serveCommand, hknown]
      cases hearlier : books.checkSumVector.get? prepared.2 with
      | none =>
        rw [Outcome.ok_bind, whileLoop_prepared _ _ rfl, Outcome.ok_bind, bind_assoc]
        exact execute_goOn h hcsp hexperiments
          { books with checkSumVector := books.checkSumVector.insertNew prepared.2 scenario.id }
          scenario values prepared.1
      | some earlier =>
        dsimp only
        have hcsp' : (books.preparation csp scenario values).state.pools.csp = csp := rfl
        rw [hcsp']
        cases rest with
        | nil =>
          have hempty : csp.empty = true := ScenarioPool.empty_iff.mpr hcsp
          rw [hempty, if_pos rfl, Outcome.ok_bind, whileLoop_prepared _ _ rfl, Outcome.ok_bind,
            bind_assoc]
          exact execute_goOn h hcsp hexperiments books scenario values prepared.1
        | cons next others =>
          have hfull : csp.empty = false :=
            Bool.eq_false_iff.mpr fun h => by rw [ScenarioPool.empty_iff, hcsp] at h; cases h
          obtain ⟨csp', hpop, hothers⟩ := ScenarioPool.pop_of_contents hcsp
          rw [hfull, if_neg Bool.false_ne_true, skipScenario_eq hpop]
          simp only [bind_assoc, Outcome.ok_bind]
          change _ = books.copy plugin scenario earlier >>= _
          congr 1
          funext books
          exact prepareFrom (htail next others rfl) hothers (Nat.lt_of_succ_lt_succ hfuel)
            (Nat.le_of_succ_le hexperiments) books next

/-- The pools that the scenarios pass through make no difference. -/
theorem runsOneByOne (rest : List Scenario) : RunsOneByOne plugin result rest := by
  have hboth : PreparesOneByOne plugin result rest ∧ RunsOneByOne plugin result rest := by
    induction rest with
    | nil => exact ⟨preparesOneByOne runsOneByOne_nil (by simp), runsOneByOne_nil⟩
    | cons scenario rest ih =>
      have hruns : RunsOneByOne plugin result (scenario :: rest) := runsOneByOne_cons ih.1
      refine ⟨preparesOneByOne hruns ?_, hruns⟩
      rintro next others heq
      cases heq
      exact ih.1
  exact hboth.2

/-- A round of the search serves the scenarios in the order of their ids. -/
theorem searchRound_eq (books : Books V) (created : ScenarioPool) :
    searchRound plugin result (books.state .clear) created =
      books.serveAll plugin result created.contents >>= fun books => .ok (books.state .clear) :=
  runsOneByOne created.contents books created created.size rfl created.length_contents.le

theorem search_eq (rounds : List ScenarioPool) :
    search plugin result rounds =
      rounds.foldlM (fun books created => Books.serveAll plugin result books created.contents)
        .start >>= fun books => .ok (books.state .clear) := by
  have hgeneral : ∀ (rounds : List ScenarioPool) (books : Books V),
      rounds.foldlM (searchRound plugin result) (books.state .clear) =
        rounds.foldlM (fun books created => Books.serveAll plugin result books created.contents)
          books >>= fun books => .ok (books.state .clear) := by
    intro rounds
    induction rounds with
    | nil => exact fun _ => rfl
    | cons created rounds ih =>
      intro books
      rw [List.foldlM_cons, List.foldlM_cons, searchRound_eq, bind_assoc, bind_assoc]
      congr 1
      funext books
      exact ih books
  exact hgeneral rounds .start

end OneByOne

end ReadexPtf.MpiParameters
