import ReadexPtf.Frontend.AnalysisResultsPool
import ReadexPtf.Frontend.PoolOperations
import ReadexPtf.Intraphase.ExtraInfo
import ReadexPtf.Rts.Node
import Mathlib

/-! The results that the intraphase plugin stores in the call tree when the hardware parameters
are tuned: those of the phase at the root and those of the rts's of the significant regions. -/
namespace ReadexPtf.Intraphase
open Agents ScenarioResults
open Autotune (Scenario Variant)
open Rtstree (Rts)

/-- The addresses of the nodes. -/
inductive Calltree where
  | node (address : ℕ) (children : List Calltree)

section Traversals
variable (rts : ℕ → Rts)

/-- A region is a pointer. -/
def IsValidRtsOf (searchReg : Option ℕ) (address : ℕ) : Prop :=
  (rts address).isValidRts ∧ (rts address).reg = searchReg
instance (searchReg : Option ℕ) (address : ℕ) : Decidable (IsValidRtsOf rts searchReg address) :=
  inferInstanceAs (Decidable (_ ∧ _))

mutual

def getValidRtsOfRegion (searchReg : Option ℕ) : Calltree → List ℕ → List ℕ
  | .node address children, rtsList =>
    getValidRtsOfChildren searchReg children
      (if IsValidRtsOf rts searchReg address then rtsList ++ [address] else rtsList)

def getValidRtsOfChildren (searchReg : Option ℕ) : List Calltree → List ℕ → List ℕ
  | [], rtsList => rtsList
  | child :: children, rtsList =>
    getValidRtsOfChildren searchReg children (getValidRtsOfRegion searchReg child rtsList)

end

end Traversals

structure Objective where
  name : String
  objective : List (MetaProperty ℚ) → ℚ

structure TuningResult where
  objectiveValue : ℚ
  tuningParameterValueMapping : Variant
  objectives : OrdMap String ℚ
  extraInfo : OrdMap String ℚ

/-- The results of the plugin at each node. -/
abbrev Results := ℕ → OrdMap ConfigType TuningResult

/-- `insert` leaves a result that is there. -/
def insertPluginResult (results : Results) (rts : ℕ) (config : ConfigType)
    (result : TuningResult) : Results :=
  Function.update results rts ((results rts).insertNew config result)

/-- What the plugin has when the tuning step is finished: the offset of the ids, the finished
scenarios, the results, the parameters, which are known by their addresses, the objectives, of
which there is at least one, the scenarios that the search found, and the call tree. -/
structure HardwareStep where
  scenarioNoAtp : ℕ
  fsp : Frontend.ScenarioMap
  srp : ScenarioResultsPool ℚ
  arp : AnalysisResults.Pushes ℚ
  tuningParameters : List ℕ
  name : ℕ → String
  objective : Objective
  moreObjectives : List Objective
  optimumSc : ℤ
  worstSc : ℤ
  calltreeRoot : Calltree
  rts : ℕ → Rts
  phaseRegion : Option ℕ
  sigRegions : List (Option ℕ)

/-- What is kept of the objectives of the phase. -/
structure PhaseResult where
  objectiveValue : ℚ
  objectives : OrdMap String ℚ

/-- The variables of the loop over the scenarios for a rts. -/
structure Scan where
  optScenario : ℤ
  optimum : ℚ
  worstObjValue : ℚ
  staticObjValue : ℚ

def Calltree.address : Calltree → ℕ
  | .node address _ => address

/-- A node of the tree. -/
inductive Calltree.Has : Calltree → ℕ → Prop
  | root (address : ℕ) (children : List Calltree) : Has (.node address children) address
  | child (address a : ℕ) (children : List Calltree) (child : Calltree)
      (hchild : child ∈ children) (hhas : Has child a) : Has (.node address children) a

/-- The parameters of a scenario with their values. -/
def parametersOf (scenario : Scenario) : List (ℕ × ℤ) :=
  scenario.ts.flatMap fun ts => ts.variant.entries

namespace HardwareStep
variable (step : HardwareStep)

def scenarioIds : List ℤ :=
  (List.range step.fsp.size).map fun i : ℕ => (step.scenarioNoAtp : ℤ) + i

/-- The value of the first parameter with the name of `tp`. -/
def firstNamed (tp : ℕ) (scenario : Scenario) : Option ℤ :=
  ((parametersOf scenario).find? fun tpValue =>
    step.name tpValue.1 = step.name tp).map Prod.snd

def getTuningValue (scenarioId : ℤ) (tp : ℕ) : Outcome ℤ := do
  let sc ← Outcome.found (step.fsp.get? scenarioId).join
  return (step.firstNamed tp sc).getD (-1)

def insertTuningValue (scenarioId : ℤ) (configuration : Variant) (tp : ℕ) : Outcome Variant := do
  let value ← step.getTuningValue scenarioId tp
  return if value ≠ -1 then configuration.insertNew tp value else configuration

def configurationOf (scenarioId : ℤ) : Outcome Variant :=
  step.tuningParameters.foldlM (step.insertTuningValue scenarioId) .empty

/-- All objectives by their names. -/
def objectivesOf (properties : List (MetaProperty ℚ)) : OrdMap String ℚ :=
  (step.objective :: step.moreObjectives).foldl
    (fun obj o => obj.insertNew o.name (o.objective properties)) .empty

/-- What `getPropertiesForScenarioIDandEntity` returns, whatever it was called with before. -/
def propertiesOf (scenarioId : ℤ) (r : ℕ) : List (MetaProperty ℚ) :=
  step.arp.asked scenarioId (step.rts r).callpathstring

def objectiveOf (scenarioId : ℤ) (r : ℕ) : ℚ :=
  step.objective.objective (step.propertiesOf scenarioId r)

def validRtsOf (region : Option ℕ) : List ℕ :=
  getValidRtsOfRegion step.rts region step.calltreeRoot []

/-- The objectives are computed from the results before the scenario is written to. -/
def addResult (scenarioId : ℤ) : Outcome Unit := do
  let _ ← step.srp.getScenarioResultsByID scenarioId
  let _ ← Outcome.found (step.fsp.get? scenarioId).join
  return ()

/-- One round of the loop that lists the results of the phase. -/
def keepPhase (kept : PhaseResult × PhaseResult) (scenarioId : ℤ) :
    Outcome (PhaseResult × PhaseResult) := do
  let properties ← step.srp.getScenarioResultsByID scenarioId
  let result : PhaseResult :=
    ⟨step.objective.objective properties, step.objectivesOf properties⟩
  return (if scenarioId = step.optimumSc then result else kept.1,
    if scenarioId = step.worstSc then result else kept.2)

def scanRound (r : ℕ) (scan : Scan) (scenarioId : ℤ) : Scan :=
  let objValue := step.objectiveOf scenarioId r
  let better := (scan.optScenario = -1 ∨ scan.optimum > objValue) ∧ objValue ≠ 0
  { optScenario := if better then scenarioId else scan.optScenario
    optimum := if better then objValue else scan.optimum
    worstObjValue := if scenarioId = step.worstSc then objValue else scan.worstObjValue
    staticObjValue := if scenarioId = step.optimumSc then objValue else scan.staticObjValue }

def scan (r : ℕ) : Scan := step.scenarioIds.foldl (step.scanRound r) ⟨-1, 0, 0, 0⟩

/-- Whether the best configurations of a rts are determined. -/
def Determined (r : ℕ) : Prop :=
  step.optimumSc ≠ -1 ∧ (step.scan r).optScenario ≠ -1 ∧ (step.scan r).worstObjValue ≠ 0
instance (r : ℕ) : Decidable (step.Determined r) := inferInstanceAs (Decidable (_ ∧ _))

def sigRts : List ℕ := step.sigRegions.flatMap step.validRtsOf

section Stores
variable (atof : String → ℚ)

/-- What the root gets for one of the scenarios of the phase. -/
def storePhase (memory : ConfigType → Sums) (phase : ConfigType → PhaseResult)
    (configuration : ConfigType → Variant) (results : Results) (round : ConfigType × ℤ) :
    Outcome Results := do
  let properties ← step.srp.getScenarioResultsByID round.2
  let (_, phaseExtraInfo) ←
    insertExtraInfo atof properties { memory round.1 with instances := 0 } .empty
  return insertPluginResult results step.calltreeRoot.address round.1
    ⟨(phase round.1).objectiveValue, configuration round.1, (phase round.1).objectives,
      phaseExtraInfo⟩

/-- What a rts gets for a scenario with an objective value. -/
def storeResult (r : ℕ) (results : Results) (round : ConfigType × ℤ × ℚ) : Outcome Results := do
  let configuration ← step.configurationOf round.2.1
  let properties := step.propertiesOf round.2.1 r
  let (_, extraInfo) ← insertExtraInfo atof properties ⟨0, 0, 0, 0⟩ .empty
  return insertPluginResult results r round.1
    ⟨round.2.2, configuration, step.objectivesOf properties, extraInfo⟩

/-- The results of a rts with the scenarios that they are of. -/
def roundsOf (r : ℕ) : List (ConfigType × ℤ × ℚ) :=
  [(.staticWorst, step.worstSc, (step.scan r).worstObjValue),
    (.staticBest, step.optimumSc, (step.scan r).staticObjValue),
    (.rtsBest, (step.scan r).optScenario, (step.scan r).optimum)]

def storeRts (results : Results) (r : ℕ) : Outcome Results :=
  if step.Determined r then (step.roundsOf r).foldlM (step.storeResult atof r) results
  else .ok results

/-- The tree has no results of the plugin before. -/
def tuningFinished (memory : ConfigType → Sums) : Outcome Results := do
  step.scenarioIds.foldlM (fun _ scenarioId => step.addResult scenarioId) ()
  let configurationForVariant ← step.configurationOf step.optimumSc
  let worstConfigurationForVariant ← step.configurationOf step.worstSc
  let _ ← Outcome.found (step.validRtsOf step.phaseRegion).head?
  -- the index makes an entry for a scenario that is missing, so that the next loop has a round,
  -- which reads the null pointer
  let _ ← Outcome.found (step.fsp.get? step.optimumSc).join
  let (best, worst) ← step.scenarioIds.foldlM step.keepPhase (⟨0, .empty⟩, ⟨0, .empty⟩)
  let phase := fun config => if config = .staticWorst then worst else best
  let configuration := fun config =>
    if config = .staticWorst then worstConfigurationForVariant else configurationForVariant
  let results ← (phaseScenarios step.optimumSc step.worstSc).foldlM
    (step.storePhase atof memory phase configuration) fun _ => .empty
  step.sigRts.foldlM (step.storeRts atof) results

end Stores

/-- The valid rts's of the significant regions. -/
def Significant (r : ℕ) : Prop :=
  ∃ region ∈ step.sigRegions, step.calltreeRoot.Has r ∧ IsValidRtsOf step.rts region r

/-- The pool has the scenario, and its pointer is not null. -/
def Finished (scenarioId : ℤ) : Prop := ∃ scenario, step.fsp.get? scenarioId = some (some scenario)

def SmallestNonZero (r : ℕ) (value : ℚ) : Prop :=
  value ≠ 0 ∧ ∀ s, step.Finished s → step.objectiveOf s r ≠ 0 → value ≤ step.objectiveOf s r

/-- The rts has the smallest non-zero objective and the parameters of a scenario that has it. -/
def BestRight (r : ℕ) (results : Results) : Prop :=
  ∃ result s scenario, (results r).get? .rtsBest = some result ∧
    step.fsp.get? s = some (some scenario) ∧ step.objectiveOf s r = result.objectiveValue ∧
    step.SmallestNonZero r result.objectiveValue ∧
    ∀ tp value, result.tuningParameterValueMapping.get? tp = some value ↔
      (tp, value) ∈ parametersOf scenario

/-- The first of the finished scenarios with the smallest non-zero objective. -/
structure FirstSmallest (r : ℕ) (scenarioId : ℤ) : Prop where
  finished : step.Finished scenarioId
  nonZero : step.objectiveOf scenarioId r ≠ 0
  first : ∀ s, step.Finished s → step.objectiveOf s r ≠ 0 →
    step.objectiveOf scenarioId r ≤ step.objectiveOf s r ∧
      (s < scenarioId → step.objectiveOf scenarioId r < step.objectiveOf s r)

/-- The ids are those from the offset on, and everything that is read is there and readable. -/
structure Complete : Prop where
  contiguous : ∀ i < step.fsp.size, step.Finished (step.scenarioNoAtp + i)
  measured : ∀ i < step.fsp.size,
    ∃ properties, step.srp.getScenarioResultsByID (step.scenarioNoAtp + i) = .ok properties
  optimum : step.Finished step.optimumSc
  worst : step.tuningParameters = [] ∨ step.Finished step.worstSc
  phase : ∃ r, step.calltreeRoot.Has r ∧ IsValidRtsOf step.rts step.phaseRegion r
  phaseReadable : ∀ s, s = step.optimumSc ∨ s = step.worstSc → ∃ properties,
    step.srp.getScenarioResultsByID s = .ok properties ∧ ∀ p ∈ properties, Readable p
  readable : ∀ r, step.Significant r → step.Finished step.worstSc →
    step.objectiveOf step.worstSc r ≠ 0 → ∀ s, s = step.worstSc ∨ s = step.optimumSc ∨
      step.FirstSmallest r s → ∀ p ∈ step.propertiesOf s r, Readable p

/-- Where a rts gets its best result from: the root, where the phase has stored one before, keeps
that. -/
inductive Given (r : ℕ) : ℤ → ℚ → Prop
  | phase (properties : List (MetaProperty ℚ)) (hroot : r = step.calltreeRoot.address)
      (hresults : step.srp.getScenarioResultsByID step.optimumSc = .ok properties) :
      Given r step.optimumSc (step.objective.objective properties)
  | rts (s : ℤ) (hroot : r ≠ step.calltreeRoot.address) (hworst : step.Finished step.worstSc)
      (hfirst : step.FirstSmallest r s) : Given r s (step.objectiveOf s r)

/-- The lookup by name in the one scenario finds all parameters of the other and no others. -/
structure Records (given scenario : Scenario) : Prop where
  known : ∀ e ∈ parametersOf scenario, e.1 ∈ step.tuningParameters ∧ e.2 ≠ -1
  named : ∀ tp ∈ step.tuningParameters, ∀ value ≠ -1,
    step.firstNamed tp given = some value ↔ (tp, value) ∈ parametersOf scenario

/-- What a rts is given belongs to a finished scenario with the smallest non-zero objective. -/
def GivenRight (r : ℕ) : Prop :=
  ∃ g value given s scenario, step.Given r g value ∧ step.fsp.get? g = some (some given) ∧
    step.fsp.get? s = some (some scenario) ∧ step.objectiveOf s r = value ∧
    step.SmallestNonZero r value ∧ step.Records given scenario

end HardwareStep

section Ids
variable {step : HardwareStep}
open HardwareStep

theorem mem_scenarioIds {s : ℤ} :
    s ∈ step.scenarioIds ↔ ∃ i < step.fsp.size, s = step.scenarioNoAtp + i := by
  simp [scenarioIds, eq_comm]

theorem scenarioIds_sorted (step : HardwareStep) : step.scenarioIds.Pairwise (· < ·) :=
  List.pairwise_map.mpr (List.pairwise_lt_range.imp fun h => by omega)

theorem nonneg_of_mem_scenarioIds {s : ℤ} (hs : s ∈ step.scenarioIds) : 0 ≤ s := by
  obtain ⟨i, -, rfl⟩ := mem_scenarioIds.mp hs
  omega

/-- As many ids as there are scenarios: if all of them are finished, there are no others. -/
theorem finished_iff (h : ∀ i < step.fsp.size, step.Finished (step.scenarioNoAtp + i)) (s : ℤ) :
    step.Finished s ↔ s ∈ step.scenarioIds := by
  have hids : ∀ s ∈ step.scenarioIds, step.Finished s := by
    intro s hs
    obtain ⟨i, hi, rfl⟩ := mem_scenarioIds.mp hs
    exact h i hi
  refine ⟨fun hs => ?_, hids s⟩
  have hsub : step.scenarioIds ⊆ step.fsp.keys := fun s hs =>
    OrdMap.mem_keys.mpr ((hids s hs).imp' some fun _ => id)
  have hnodup : step.scenarioIds.Nodup := (scenarioIds_sorted step).imp ne_of_lt
  have hperm := (hnodup.subperm hsub).perm_of_length_le (by
    simp [OrdMap.keys, scenarioIds, Frontend.ScenarioMap.size])
  exact hperm.mem_iff.mpr (OrdMap.mem_keys.mpr (hs.imp' some fun _ => id))

end Ids

section Configurations
variable {step : HardwareStep}
open HardwareStep

/-- What the step inserts for a scenario. -/
def configurationFrom (step : HardwareStep) (scenario : Scenario) : Variant :=
  step.tuningParameters.foldl (fun configuration tp =>
    if (step.firstNamed tp scenario).getD (-1) ≠ -1 then
      configuration.insertNew tp ((step.firstNamed tp scenario).getD (-1))
    else configuration) .empty

theorem configurationOf_eq {s : ℤ} {scenario : Scenario}
    (h : step.fsp.get? s = some (some scenario)) :
    step.configurationOf s = .ok (configurationFrom step scenario) := by
  refine Outcome.foldlM_eq_foldl (fun configuration tp _ => ?_) _
  rw [insertTuningValue, getTuningValue, h]
  rfl

/-- A scenario that is missing is not noticed where there are no parameters. -/
theorem configurationOf_returns_iff {s : ℤ} :
    (∃ configuration, step.configurationOf s = .ok configuration) ↔
      step.tuningParameters = [] ∨ step.Finished s := by
  constructor
  · rintro ⟨configuration, h⟩
    rw [configurationOf] at h
    refine or_iff_not_imp_left.mpr fun hne => ?_
    obtain ⟨tp, tps, htps⟩ := List.exists_cons_of_ne_nil hne
    rw [htps, List.foldlM_cons] at h
    obtain ⟨next, hnext, -⟩ := Outcome.bind_eq_ok.mp h
    obtain ⟨value, hvalue, -⟩ := Outcome.bind_eq_ok.mp hnext
    obtain ⟨sc, hsc, -⟩ := Outcome.bind_eq_ok.mp hvalue
    exact ⟨sc, Option.join_eq_some_iff.mp (Outcome.found_eq_ok.mp hsc)⟩
  · rintro (hnil | ⟨scenario, h⟩)
    · exact ⟨.empty, by rw [configurationOf, hnil, List.foldlM_nil, Outcome.pure_eq]⟩
    · exact ⟨_, configurationOf_eq h⟩

theorem get?_foldl_insertValue (value : ℕ → ℤ) (tps : List ℕ) (tp : ℕ) : ∀ m : Variant,
    (tps.foldl (fun m tp => if value tp ≠ -1 then m.insertNew tp (value tp) else m) m).get? tp =
      (m.get? tp).or (if tp ∈ tps ∧ value tp ≠ -1 then some (value tp) else none) := by
  induction tps with
  | nil => simp
  | cons a tps ih =>
    intro m
    rw [List.foldl_cons, ih]
    by_cases htp : tp = a
    · subst htp
      by_cases hvalue : value tp = -1
      · simp [hvalue]
      · simp only [hvalue, not_false_eq_true, ne_eq, if_true, List.mem_cons, true_or, and_self,
          and_true]
        rw [OrdMap.get?_insertNew, if_pos rfl, Option.or_assoc]
        split_ifs <;> simp
    · have hother : (if value a ≠ -1 then m.insertNew a (value a) else m).get? tp = m.get? tp := by
        split_ifs
        · rw [OrdMap.get?_insertNew, if_neg htp, Option.or_none]
        · rfl
      simp only [hother, List.mem_cons, htp, false_or]

theorem get?_configurationFrom {scenario : Scenario} {tp : ℕ} {value : ℤ} :
    (configurationFrom step scenario).get? tp = some value ↔
      tp ∈ step.tuningParameters ∧ value ≠ -1 ∧ step.firstNamed tp scenario = some value := by
  rw [configurationFrom, get?_foldl_insertValue, OrdMap.get?_empty, Option.none_or]
  cases step.firstNamed tp scenario with
  | none => simp
  | some first =>
    simp only [Option.getD_some, Option.ite_none_right_eq_some, Option.some.injEq]
    constructor
    · rintro ⟨⟨hmem, hfirst⟩, rfl⟩
      exact ⟨hmem, hfirst, rfl⟩
    · rintro ⟨hmem, hvalue, rfl⟩
      exact ⟨⟨hmem, hvalue⟩, rfl⟩

theorem configurationFrom_right_iff {given scenario : Scenario} :
    (∀ tp value, (configurationFrom step given).get? tp = some value ↔
        (tp, value) ∈ parametersOf scenario) ↔ step.Records given scenario := by
  simp only [get?_configurationFrom]
  constructor
  · intro h
    refine ⟨fun e he => ?_, fun tp htp value hvalue => ?_⟩
    · obtain ⟨hmem, hvalue, -⟩ := (h e.1 e.2).mpr he
      exact ⟨hmem, hvalue⟩
    · rw [← h tp value, and_iff_right htp, and_iff_right hvalue]
  · intro h tp value
    constructor
    · rintro ⟨htp, hvalue, hfirst⟩
      exact (h.named tp htp value hvalue).mp hfirst
    · intro hmem
      obtain ⟨htp, hvalue⟩ := h.known _ hmem
      exact ⟨htp, hvalue, (h.named tp htp value hvalue).mpr hmem⟩

end Configurations

section Nodes
variable {rts : ℕ → Rts} {searchReg : Option ℕ}

theorem Calltree.has_node {address a : ℕ} {children : List Calltree} :
    (Calltree.node address children).Has a ↔
      a = address ∨ ∃ child ∈ children, child.Has a := by
  constructor
  · intro h
    cases h with
    | root => exact .inl rfl
    | child _ _ _ child hchild hhas => exact .inr ⟨child, hchild, hhas⟩
  · rintro (rfl | ⟨child, hchild, hhas⟩)
    · exact .root _ _
    · exact .child _ _ _ child hchild hhas

mutual

theorem mem_getValidRtsOfRegion (a : ℕ) : ∀ (tree : Calltree) (rtsList : List ℕ),
    a ∈ getValidRtsOfRegion rts searchReg tree rtsList ↔
      a ∈ rtsList ∨ tree.Has a ∧ IsValidRtsOf rts searchReg a
  | .node address children, rtsList => by
    rw [getValidRtsOfRegion, mem_getValidRtsOfChildren a children, Calltree.has_node, or_and_right,
      ← or_assoc]
    refine or_congr_left ?_
    by_cases hvalid : IsValidRtsOf rts searchReg address
    · rw [if_pos hvalid, List.mem_append, List.mem_singleton]
      exact or_congr_right ⟨fun ha => ⟨ha, ha ▸ hvalid⟩, And.left⟩
    · have hnot : ¬ (a = address ∧ IsValidRtsOf rts searchReg a) := fun ha => hvalid (ha.1 ▸ ha.2)
      rw [if_neg hvalid, or_iff_left hnot]

theorem mem_getValidRtsOfChildren (a : ℕ) : ∀ (children : List Calltree) (rtsList : List ℕ),
    a ∈ getValidRtsOfChildren rts searchReg children rtsList ↔
      a ∈ rtsList ∨ (∃ child ∈ children, child.Has a) ∧ IsValidRtsOf rts searchReg a
  | [], rtsList => by simp [getValidRtsOfChildren]
  | child :: children, rtsList => by
    rw [getValidRtsOfChildren, mem_getValidRtsOfChildren a children,
      mem_getValidRtsOfRegion a child, or_assoc, ← or_and_right]
    simp

end

theorem mem_validRtsOf {step : HardwareStep} {region : Option ℕ} {r : ℕ} :
    r ∈ step.validRtsOf region ↔ step.calltreeRoot.Has r ∧ IsValidRtsOf step.rts region r := by
  rw [HardwareStep.validRtsOf, mem_getValidRtsOfRegion]
  simp

theorem mem_sigRts {step : HardwareStep} {r : ℕ} : r ∈ step.sigRts ↔ step.Significant r := by
  rw [HardwareStep.sigRts, List.mem_flatMap]
  exact exists_congr fun region => and_congr_right fun _ => mem_validRtsOf

end Nodes

section Scans
variable {step : HardwareStep} {r : ℕ}
open HardwareStep

theorem foldl_scanRound_worst (ids : List ℤ) : ∀ scan : Scan,
    (ids.foldl (step.scanRound r) scan).worstObjValue =
      if step.worstSc ∈ ids then step.objectiveOf step.worstSc r else scan.worstObjValue := by
  induction ids with
  | nil => exact fun _ => rfl
  | cons s ids ih =>
    intro scan
    rw [List.foldl_cons, ih, scanRound]
    by_cases hs : s = step.worstSc
    · simp [hs]
    · simp [hs, Ne.symm hs]

/-- The first of the ids with the smallest non-zero objective. -/
structure BestOf (step : HardwareStep) (r : ℕ) (ids : List ℤ) (scan : Scan) : Prop where
  mem : scan.optScenario ∈ ids
  value : scan.optimum = step.objectiveOf scan.optScenario r
  nonZero : scan.optimum ≠ 0
  first : ∀ s ∈ ids, step.objectiveOf s r ≠ 0 → scan.optimum ≤ step.objectiveOf s r ∧
    (s < scan.optScenario → scan.optimum < step.objectiveOf s r)

/-- A round takes an id that is greater than those before it if it is better. -/
theorem BestOf.scanRound {ids : List ℤ} {scan : Scan} (h : BestOf step r ids scan) {s : ℤ}
    (hbelow : ∀ t ∈ ids, t < s) (hopt : scan.optScenario ≠ -1) :
    BestOf step r (ids ++ [s]) (step.scanRound r scan s) := by
  rw [HardwareStep.scanRound]
  by_cases hbetter : scan.optimum > step.objectiveOf s r ∧ step.objectiveOf s r ≠ 0
  · simp only [hopt, false_or, hbetter, and_self, if_true, ne_eq, not_false_eq_true]
    refine ⟨by simp, rfl, hbetter.2, fun t ht hne => ?_⟩
    rcases List.mem_append.mp ht with hold | hnew
    · have hlt := hbetter.1.trans_le (h.first t hold hne).1
      exact ⟨hlt.le, fun _ => hlt⟩
    · rw [List.mem_singleton.mp hnew]
      exact ⟨le_rfl, fun hself => absurd hself (lt_irrefl _)⟩
  · simp only [hopt, false_or, hbetter, if_false]
    refine ⟨List.mem_append_left _ h.mem, h.value, h.nonZero, fun t ht hne => ?_⟩
    rcases List.mem_append.mp ht with hold | hnew
    · exact h.first t hold hne
    · rw [List.mem_singleton.mp hnew] at hne ⊢
      refine ⟨not_lt.mp fun hlt => hbetter ⟨hlt, hne⟩, fun hlt => ?_⟩
      exact absurd (hbelow _ h.mem) (lt_asymm hlt)

theorem scan_best (ids : List ℤ) (hsorted : ids.Pairwise (· < ·)) (hpos : ∀ s ∈ ids, 0 ≤ s) :
    ((ids.foldl (step.scanRound r) ⟨-1, 0, 0, 0⟩).optScenario = -1 ∧
        ∀ s ∈ ids, step.objectiveOf s r = 0) ∨
      BestOf step r ids (ids.foldl (step.scanRound r) ⟨-1, 0, 0, 0⟩) := by
  induction ids using List.reverseRecOn with
  | nil => exact .inl ⟨rfl, List.forall_mem_nil _⟩
  | append_singleton ids s ih =>
    obtain ⟨hids, -, hbelow⟩ := List.pairwise_append.mp hsorted
    have hlt : ∀ t ∈ ids, t < s := fun t ht => hbelow t ht s List.mem_cons_self
    rw [List.foldl_concat]
    rcases ih hids fun t ht => hpos t (List.mem_append_left _ ht) with ⟨hnone, hzero⟩ | hbest
    · by_cases hs : step.objectiveOf s r = 0
      · refine .inl ⟨?_, ?_⟩
        · rw [scanRound, hs]
          simpa using hnone
        · simpa [or_imp, forall_and, hs] using hzero
      · refine .inr ?_
        rw [HardwareStep.scanRound]
        simp only [hnone, hs, true_or, ne_eq, not_false_eq_true, and_self, if_true]
        refine ⟨by simp, rfl, hs, fun t ht hne => ?_⟩
        rcases List.mem_append.mp ht with hold | hnew
        · exact absurd (hzero t hold) hne
        · rw [List.mem_singleton.mp hnew]
          exact ⟨le_rfl, fun hself => absurd hself (lt_irrefl _)⟩
    · have hnonneg := hpos _ (List.mem_append_left [s] hbest.mem)
      exact .inr (hbest.scanRound hlt (by omega))

/-- Under ids without a gap the scan finds the first finished scenario, if there is one. -/
theorem scan_spec (h : ∀ i < step.fsp.size, step.Finished (step.scenarioNoAtp + i)) (r : ℕ) :
    ((step.scan r).optScenario = -1 ∧ ∀ s, step.Finished s → step.objectiveOf s r = 0) ∨
      (step.scan r).optScenario ≠ -1 ∧ step.FirstSmallest r (step.scan r).optScenario ∧
        (step.scan r).optimum = step.objectiveOf (step.scan r).optScenario r := by
  have hfinished := finished_iff h
  rcases scan_best step.scenarioIds (scenarioIds_sorted step)
    (fun s => nonneg_of_mem_scenarioIds) with ⟨hnone, hzero⟩ | hbest
  · exact .inl ⟨hnone, fun s hs => hzero s ((hfinished s).mp hs)⟩
  · have hnonneg := nonneg_of_mem_scenarioIds hbest.mem
    refine .inr ⟨?_, ⟨(hfinished _).mpr hbest.mem, ?_, fun s hs hne => ?_⟩, hbest.value⟩
    · rw [scan]
      omega
    · rw [scan, ← hbest.value]
      exact hbest.nonZero
    · rw [scan, ← hbest.value]
      exact hbest.first s ((hfinished s).mp hs) hne

theorem HardwareStep.FirstSmallest.unique {s t : ℤ} (hs : step.FirstSmallest r s)
    (ht : step.FirstSmallest r t) : s = t := by
  obtain ⟨hst, hst'⟩ := hs.first t ht.finished ht.nonZero
  obtain ⟨hts, hts'⟩ := ht.first s hs.finished hs.nonZero
  rcases lt_trichotomy s t with hlt | heq | hlt
  · exact absurd (hts' hlt) (not_lt.mpr hst)
  · exact heq
  · exact absurd (hst' hlt) (not_lt.mpr hts)

theorem determined_iff (h : ∀ i < step.fsp.size, step.Finished (step.scenarioNoAtp + i))
    (hoptimum : step.Finished step.optimumSc) (r : ℕ) :
    step.Determined r ↔ step.Finished step.worstSc ∧ step.objectiveOf step.worstSc r ≠ 0 := by
  have hworst : (step.scan r).worstObjValue =
      if step.worstSc ∈ step.scenarioIds then step.objectiveOf step.worstSc r else 0 :=
    foldl_scanRound_worst step.scenarioIds _
  have hnonneg := nonneg_of_mem_scenarioIds ((finished_iff h _).mp hoptimum)
  rw [Determined, hworst]
  constructor
  · rintro ⟨-, -, hne⟩
    by_cases hfinished : step.Finished step.worstSc
    · rw [if_pos ((finished_iff h _).mp hfinished)] at hne
      exact ⟨hfinished, hne⟩
    · exact absurd (if_neg fun hmem => hfinished ((finished_iff h _).mpr hmem)) hne
  · rintro ⟨hfinished, hne⟩
    refine ⟨by omega, ?_, by rwa [if_pos ((finished_iff h _).mp hfinished)]⟩
    rcases scan_spec h r with ⟨-, hzero⟩ | ⟨hfound, -⟩
    · exact absurd (hzero _ hfinished) hne
    · exact hfound

end Scans

end ReadexPtf.Intraphase
