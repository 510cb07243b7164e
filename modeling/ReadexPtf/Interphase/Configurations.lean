import ReadexPtf.Interphase.Clustering
import ReadexPtf.Lib.Grouping
import ReadexPtf.Lib.LeastSoFar
import Mathlib

/-! The best configurations of the clusters, and the scenarios of the second and the third
tuning step that are made from them. -/
namespace ReadexPtf.Interphase
variable {V : Type} (A : Doubles V)

section Best

/-- The best objective of a cluster so far, its phase and the cluster's phases, and the
same for each of its rts's. -/
structure ClusterBest (V : Type) where
  bestObj : V
  phaseNum : ℕ
  phasesInCluster : List ℕ
  rtsBestObj : OrdMap String (V × ℕ)

/-- An rts whose objective is zero has not run. -/
def bestOfRts (objective : String) (phase : ℕ) (rtsBestObj : OrdMap String (V × ℕ))
    (rtsInf : RtsInfo V) : Outcome (OrdMap String (V × ℕ)) := do
  let currObj ← Outcome.found (rtsInf.normalizedObj.get? objective)
  let objValue ← Outcome.found (rtsInf.objValues.get? objective)
  if A.eq objValue A.zero then return rtsBestObj
  else return keepLessAt A.lt rtsBestObj (rtsInf.callpath, currObj, phase)

/-- One phase of the loop over `dtaPhases`. -/
def bestOfPhase (objective : String) (currCluster : ℕ) (s : ClusterBest V)
    (dtaPhase : ℕ × PhaseInfo V) : Outcome (ClusterBest V) :=
  if dtaPhase.2.clusterID = currCluster then do
    let obj ← Outcome.found (dtaPhase.2.normalizedObj.get? objective)
    let rtsBestObj ← dtaPhase.2.rtsInfo.foldlM (bestOfRts A objective dtaPhase.1) s.rtsBestObj
    let best := keepLess A.lt (s.bestObj, s.phaseNum) (obj, dtaPhase.1)
    return { bestObj := best.1, phaseNum := best.2
             phasesInCluster := s.phasesInCluster ++ [dtaPhase.1], rtsBestObj }
  else return s

/-- `configForClusters` and `rts_best_objs`. -/
structure ClusterTables (V : Type) where
  configForClusters : OrdMap ℕ (ℕ × List ℕ)
  rtsBestObjs : List (OrdMap String (V × ℕ))

/-- One cluster. The objective is the first one of the list. -/
def bestOfCluster (objectives : List (ObjectiveFunction V)) (phases : Phases V)
    (tables : ClusterTables V) (currCluster : ℕ) : Outcome (ClusterTables V) := do
  let objective ← Outcome.elementAt objectives 0
  let best ← phases.entries.foldlM (bestOfPhase A objective.name currCluster)
    ⟨A.dblMax, 0, [], .empty⟩
  return { configForClusters :=
             tables.configForClusters.insertNew currCluster (best.phaseNum, best.phasesInCluster)
           rtsBestObjs := tables.rtsBestObjs ++ [best.rtsBestObj] }

def computeBestConfigForCluster (objectives : List (ObjectiveFunction V)) (numClusters : ℕ)
    (phases : Phases V) (tables : ClusterTables V) : Outcome (ClusterTables V) :=
  (List.range numClusters).foldlM (fun tables i => bestOfCluster A objectives phases tables (i + 1))
    tables

end Best

section Scenarios

structure TuningSpecification where
  variant : Configuration
  rtsList : List String
  deriving DecidableEq

structure Scenario where
  tuningSpecifications : List TuningSpecification
  rtsBased : Bool
  deriving DecidableEq

/-- What `createScenarios` reads besides the phases: the tuning parameters with their
defaults, the call path of the root and those of the valid rts's of the significant regions. -/
structure TuningSetting where
  tuningParameters : List (ℕ × ℤ)
  rootCallPath : String
  validRts : List String

def TuningSetting.defaultConfig (setting : TuningSetting) : Configuration :=
  setting.tuningParameters.foldl (fun config tp => config.insertNew tp.1 tp.2) .empty

/-- A cluster id as a key of `configForClusters`. -/
def clusterKey (clusterID : ℤ) : ℕ := (clusterID % 4294967296).toNat

/-- The configuration of an rts in a phase of which `phasePos` is the best phase. -/
def configOfRts (phases : Phases V) (tables : ClusterTables V) (defaultConfig : Configuration)
    (phasePos : Option (PhaseInfo V)) (configForPhase : Configuration) (clusterID : ℤ)
    (callPath : String) : Outcome Configuration :=
  match phasePos with
  | some _ => do
    let rtsConfigMap ← Outcome.elementAt tables.rtsBestObjs (clusterID - 1)
    match rtsConfigMap.get? callPath with
    | some best => do
      let phase ← Outcome.found (phases.get? best.2)
      return phase.scenarioConfig
    | none => return configForPhase
  | none => return defaultConfig

/-- The specifications of the rts's, one for each call path. -/
def configsForRts (setting : TuningSetting) (phases : Phases V) (tables : ClusterTables V)
    (phasePos : Option (PhaseInfo V)) (configForPhase : Configuration) (clusterID : ℤ) :
    Outcome (OrdMap String Configuration) :=
  setting.validRts.foldlM (fun configForRts callPath => do
    let config ← configOfRts phases tables setting.defaultConfig phasePos configForPhase clusterID
      callPath
    return configForRts.insertNew callPath config) .empty

/-- The scenario of one phase. -/
def scenarioOfPhase (tuningStep : ℕ) (setting : TuningSetting) (phases : Phases V)
    (tables : ClusterTables V) (phase : PhaseInfo V) : Outcome Scenario := do
  let best ← Outcome.found (tables.configForClusters.get? (clusterKey phase.clusterID))
  let phasePos := phases.get? best.1
  if 3 ≤ tuningStep then
    let configForPhase := (phasePos.map PhaseInfo.scenarioConfig).getD setting.defaultConfig
    let configForRts ← configsForRts setting phases tables phasePos configForPhase phase.clusterID
    return { tuningSpecifications := ⟨configForPhase, [setting.rootCallPath]⟩ ::
               configForRts.entries.map fun c => ⟨c.2, [c.1]⟩
             rtsBased := true }
  else
    return { tuningSpecifications := [⟨setting.defaultConfig, [setting.rootCallPath]⟩]
             rtsBased := true }

/-- The scenarios that the second and third tuning step push into the pool. -/
def createScenarios (tuningStep : ℕ) (setting : TuningSetting) (phases : Phases V)
    (tables : ClusterTables V) : Outcome (List Scenario) :=
  phases.entries.mapM fun phase => scenarioOfPhase tuningStep setting phases tables phase.2

end Scenarios

section Purpose
variable (objective : String) (setting : TuningSetting) (phases : Phases V)

/-- A phase of the cluster with this objective. -/
def HasObjective (cluster : ℤ) (p : ℕ) (v : V) : Prop :=
  ∃ x, phases.get? p = some x ∧ x.clusterID = cluster ∧ x.normalizedObj.get? objective = some v

def IsBestPhase (cluster : ℤ) (p : ℕ) : Prop :=
  ∃ v, HasObjective objective phases cluster p v ∧
    ∀ q w, HasObjective objective phases cluster q w → ¬ A.lt w v

/-- The rts has run in a phase of the cluster, with this objective. -/
def HasRun (cluster : ℤ) (callPath : String) (p : ℕ) (v : V) : Prop :=
  ∃ x, phases.get? p = some x ∧ x.clusterID = cluster ∧ ∃ r ∈ x.rtsInfo, r.callpath = callPath ∧
    (r.objValues.get? objective).any (fun o => !A.eq o A.zero) ∧
    r.normalizedObj.get? objective = some v

def IsBestForRts (cluster : ℤ) (callPath : String) (p : ℕ) : Prop :=
  ∃ v, HasRun A objective phases cluster callPath p v ∧
    ∀ q w, HasRun A objective phases cluster callPath q w → ¬ A.lt w v

/-- The configuration of a phase that has this property. -/
def ConfigOf (best : ℕ → Prop) (config : Configuration) : Prop :=
  ∃ p x, best p ∧ phases.get? p = some x ∧ config = x.scenarioConfig

/-- What the third step has to give a phase. -/
def PhaseGets (x : PhaseInfo V) (config : Configuration) : Prop :=
  if x.clusterID = noise then config = setting.defaultConfig
  else ConfigOf phases (IsBestPhase A objective phases x.clusterID) config

/-- What the third step has to give an rts of a phase that has got `configForPhase`. -/
def RtsGets (x : PhaseInfo V) (configForPhase : Configuration) (callPath : String)
    (config : Configuration) : Prop :=
  if x.clusterID = noise then config = setting.defaultConfig
  else ConfigOf phases (IsBestForRts A objective phases x.clusterID callPath) config ∨
    (∀ p v, ¬ HasRun A objective phases x.clusterID callPath p v) ∧ config = configForPhase

/-- The scenario of the third step: the phase, and every valid rts once. -/
def Serves (x : PhaseInfo V) (scenario : Scenario) : Prop :=
  ∃ (config : Configuration) (configForRts : OrdMap String Configuration),
    scenario = ⟨⟨config, [setting.rootCallPath]⟩ ::
      configForRts.entries.map (fun c => ⟨c.2, [c.1]⟩), true⟩ ∧
    PhaseGets A objective setting phases x config ∧
    (∀ callPath, callPath ∈ configForRts.keys ↔ callPath ∈ setting.validRts) ∧
    ∀ callPath c, configForRts.get? callPath = some c →
      RtsGets A objective setting phases x config callPath c

/-- One scenario for each phase in both steps, with the configurations that the claim names. -/
def ScenariosServe (objectives : List (ObjectiveFunction V)) (numClusters : ℕ) : Prop :=
  ∃ tables scenarios₂ scenarios₃,
    computeBestConfigForCluster A objectives numClusters phases ⟨.empty, []⟩ = .ok tables ∧
    createScenarios 2 setting phases tables = .ok scenarios₂ ∧
    createScenarios 3 setting phases tables = .ok scenarios₃ ∧
    scenarios₂.length = phases.entries.length ∧
    List.Forall₂ (fun phase scenario => Serves A objective setting phases phase.2 scenario)
      phases.entries scenarios₃

/-- Phases with their clusters and normalized objectives. The ids of clusters are `int`s. -/
structure IsClustered (numClusters : ℕ) : Prop where
  bound : numClusters ≤ 2147483647
  ids : ∀ p x, phases.get? p = some x →
    x.clusterID = noise ∨ 1 ≤ x.clusterID ∧ x.clusterID ≤ numClusters
  normalized : ∀ p x, phases.get? p = some x → ∃ v, x.normalizedObj.get? objective = some v
  rts : ∀ p x, phases.get? p = some x → ∀ r ∈ x.rtsInfo,
    (∃ v, r.normalizedObj.get? objective = some v) ∧ ∃ v, r.objValues.get? objective = some v

end Purpose

section Best

/-- The rts's of one phase that have run. -/
def rtsCandidates (objective : String) (phase : ℕ) (rtsInfo : List (RtsInfo V)) :
    List (String × V × ℕ) :=
  rtsInfo.filterMap fun r =>
    if (r.objValues.get? objective).any (fun o => !A.eq o A.zero) then
      (r.normalizedObj.get? objective).map fun v => (r.callpath, v, phase)
    else none

/-- The phases of a cluster with their objectives. -/
def phaseCandidates (objective : String) (cluster : ℕ) (es : List (ℕ × PhaseInfo V)) :
    List (V × ℕ) :=
  es.filterMap fun e =>
    if e.2.clusterID = (cluster : ℤ) then (e.2.normalizedObj.get? objective).map fun v => (v, e.1) else none

def clusterRtsCandidates (objective : String) (cluster : ℕ) (es : List (ℕ × PhaseInfo V)) :
    List (String × V × ℕ) :=
  es.flatMap fun e =>
    if e.2.clusterID = (cluster : ℤ) then rtsCandidates A objective e.1 e.2.rtsInfo else []

variable {A} {objective : String} {phases : Phases V} {numClusters : ℕ}

theorem foldlM_bestOfRts (phase : ℕ) (rtsInfo : List (RtsInfo V))
    (h : ∀ r ∈ rtsInfo, (∃ v, r.normalizedObj.get? objective = some v) ∧
      ∃ v, r.objValues.get? objective = some v) (m : OrdMap String (V × ℕ)) :
    rtsInfo.foldlM (bestOfRts A objective phase) m =
      .ok ((rtsCandidates A objective phase rtsInfo).foldl (keepLessAt A.lt) m) := by
  induction rtsInfo generalizing m with
  | nil => rfl
  | cons r rtsInfo ih =>
    obtain ⟨⟨⟨v, hv⟩, o, ho⟩, hrest⟩ := List.forall_mem_cons.mp h
    rw [List.foldlM_cons, bestOfRts, hv, ho]
    simp only [Outcome.found, Outcome.ok_bind]
    cases hzero : A.eq o A.zero with
    | true => simp [rtsCandidates, ho, hzero, ih hrest]
    | false => simp [rtsCandidates, ho, hv, hzero, ih hrest]

/-- The loop over the phases keeps the least candidates. -/
theorem foldlM_bestOfPhase (cluster : ℕ) (es : List (ℕ × PhaseInfo V))
    (hobjective : ∀ e ∈ es, ∃ v, e.2.normalizedObj.get? objective = some v)
    (hrts : ∀ e ∈ es, ∀ r ∈ e.2.rtsInfo, (∃ v, r.normalizedObj.get? objective = some v) ∧
      ∃ v, r.objValues.get? objective = some v) (s : ClusterBest V) :
    ∃ s', es.foldlM (bestOfPhase A objective cluster) s = .ok s' ∧
      (s'.bestObj, s'.phaseNum) =
        (phaseCandidates objective cluster es).foldl (keepLess A.lt) (s.bestObj, s.phaseNum) ∧
      s'.phasesInCluster = s.phasesInCluster ++
        (es.filter fun e => e.2.clusterID = (cluster : ℤ)).map Prod.fst ∧
      s'.rtsBestObj = (clusterRtsCandidates A objective cluster es).foldl (keepLessAt A.lt)
        s.rtsBestObj := by
  induction es generalizing s with
  | nil => exact ⟨s, rfl, rfl, (List.append_nil _).symm, rfl⟩
  | cons e es ih =>
    obtain ⟨⟨v, hv⟩, hobjective⟩ := List.forall_mem_cons.mp hobjective
    obtain ⟨hfirst, hrts⟩ := List.forall_mem_cons.mp hrts
    rw [List.foldlM_cons, bestOfPhase]
    by_cases hcluster : e.2.clusterID = (cluster : ℤ)
    · rw [if_pos hcluster, hv, foldlM_bestOfRts e.1 e.2.rtsInfo hfirst]
      simp only [Outcome.found, Outcome.ok_bind, Outcome.pure_eq]
      obtain ⟨s', hrun, hphase, hmembers, hrest⟩ := ih hobjective hrts _
      refine ⟨s', hrun, ?_, ?_, ?_⟩
      · rw [hphase]
        simp [phaseCandidates, hcluster, hv]
      · rw [hmembers]
        simp [hcluster]
      · rw [hrest]
        simp [clusterRtsCandidates, hcluster]
    · rw [if_neg hcluster]
      obtain ⟨s', hrun, hphase, hmembers, hrest⟩ := ih hobjective hrts s
      refine ⟨s', hrun, ?_, ?_, ?_⟩
      · rw [hphase]
        simp [phaseCandidates, hcluster]
      · rw [hmembers]
        simp [hcluster]
      · rw [hrest]
        simp [clusterRtsCandidates, hcluster]

theorem mem_phaseCandidates {cluster p : ℕ} {v : V} :
    (v, p) ∈ phaseCandidates objective cluster phases.entries ↔
      HasObjective objective phases cluster p v := by
  simp only [phaseCandidates, List.mem_filterMap, HasObjective]
  constructor
  · rintro ⟨⟨q, x⟩, hmem, he⟩
    split_ifs at he with hcluster
    obtain ⟨w, hw, hpair⟩ := Option.map_eq_some_iff.mp he
    obtain ⟨rfl, rfl⟩ := Prod.mk.inj hpair
    exact ⟨x, OrdMap.get?_eq_some.mpr hmem, hcluster, hw⟩
  · rintro ⟨x, hx, hcluster, hv⟩
    refine ⟨(p, x), OrdMap.get?_eq_some.mp hx, ?_⟩
    rw [if_pos hcluster, hv]
    rfl

theorem mem_clusterRtsCandidates {cluster p : ℕ} {callPath : String} {v : V} :
    (callPath, v, p) ∈ clusterRtsCandidates A objective cluster phases.entries ↔
      HasRun A objective phases cluster callPath p v := by
  simp only [clusterRtsCandidates, List.mem_flatMap, HasRun]
  constructor
  · rintro ⟨⟨q, x⟩, hmem, he⟩
    split_ifs at he with hcluster
    · simp only [rtsCandidates, List.mem_filterMap] at he
      obtain ⟨r, hr, hcand⟩ := he
      split_ifs at hcand with hran
      obtain ⟨w, hw, hpair⟩ := Option.map_eq_some_iff.mp hcand
      obtain ⟨hname, hpair⟩ := Prod.mk.inj hpair
      obtain ⟨rfl, rfl⟩ := Prod.mk.inj hpair
      exact ⟨x, OrdMap.get?_eq_some.mpr hmem, hcluster, r, hr, hname, hran, hw⟩
    · simp at he
  · rintro ⟨x, hx, hcluster, r, hr, rfl, hran, hv⟩
    refine ⟨(p, x), OrdMap.get?_eq_some.mp hx, ?_⟩
    rw [if_pos hcluster]
    refine List.mem_filterMap.mpr ⟨r, hr, ?_⟩
    rw [if_pos hran, hv]
    rfl

/-- The phase that the table has for a cluster: a best one, or none below the largest number. -/
def PhaseRecorded (A : Doubles V) (objective : String) (phases : Phases V) (cluster : ℤ)
    (phaseNum : ℕ) : Prop :=
  (∃ v, HasObjective objective phases cluster phaseNum v ∧ A.lt v A.dblMax) ∧
      IsBestPhase A objective phases cluster phaseNum ∨
    phaseNum = 0 ∧ ∀ q w, HasObjective objective phases cluster q w → ¬ A.lt w A.dblMax

def RtsRecorded (A : Doubles V) (objective : String) (phases : Phases V) (cluster : ℤ)
    (m : OrdMap String (V × ℕ)) : Prop :=
  ∀ callPath, (m.get? callPath = none ∧ ∀ p v, ¬ HasRun A objective phases cluster callPath p v) ∨
    ∃ best, m.get? callPath = some best ∧ IsBestForRts A objective phases cluster callPath best.2

/-- The tables of the clusters from one on. -/
structure TablesRight (A : Doubles V) (objective : String) (phases : Phases V) (numClusters : ℕ)
    (tables : ClusterTables V) : Prop where
  length : tables.rtsBestObjs.length = numClusters
  keys : ∀ k, k ∈ tables.configForClusters.keys → 1 ≤ k ∧ k ≤ numClusters
  phase : ∀ i < numClusters, ∃ best, tables.configForClusters.get? (i + 1) = some best ∧
    PhaseRecorded A objective phases (i + 1) best.1
  rts : ∀ i < numClusters, ∃ m, tables.rtsBestObjs[i]? = some m ∧
    RtsRecorded A objective phases (i + 1) m

theorem phaseRecorded_foldl (cluster : ℕ) {best : V × ℕ}
    (h : best = (phaseCandidates objective cluster phases.entries).foldl (keepLess A.lt)
      (A.dblMax, 0)) : PhaseRecorded A objective phases cluster best.2 := by
  obtain ⟨-, hall, hfrom⟩ := foldl_keepLess A.lt_trans A.lt_irrefl
    (phaseCandidates objective cluster phases.entries) (A.dblMax, 0)
  rw [← h] at hall hfrom
  cases hfrom with
  | inl hstart =>
    refine .inr ⟨by rw [hstart], fun q w hw => ?_⟩
    have hleast := hall (w, q) (mem_phaseCandidates.mpr hw)
    rwa [hstart] at hleast
  | inr hnew =>
    have hbest := mem_phaseCandidates.mp hnew.1
    exact .inl ⟨⟨best.1, hbest, hnew.2⟩, best.1, hbest, fun q w hw =>
      hall (w, q) (mem_phaseCandidates.mpr hw)⟩

theorem rtsRecorded_foldl (cluster : ℕ) :
    RtsRecorded A objective phases cluster
      ((clusterRtsCandidates A objective cluster phases.entries).foldl (keepLessAt A.lt) .empty) := by
  intro callPath
  cases foldl_keepLessAt A.lt_trans A.lt_irrefl
      (clusterRtsCandidates A objective cluster phases.entries) callPath with
  | inl hnone => exact .inl ⟨hnone.1, fun p v hrun =>
      hnone.2 _ (mem_clusterRtsCandidates.mpr hrun) rfl⟩
  | inr hsome =>
    obtain ⟨best, hget, hmem, hleast⟩ := hsome
    exact .inr ⟨best, hget, best.1, mem_clusterRtsCandidates.mp hmem, fun q w hrun =>
      hleast _ (mem_clusterRtsCandidates.mpr hrun) rfl⟩

/-- One cluster more. -/
theorem TablesRight.bestOfCluster {first : ObjectiveFunction V} {rest : List (ObjectiveFunction V)}
    {n : ℕ} (h : IsClustered first.name phases n) {i : ℕ} {tables : ClusterTables V}
    (htables : TablesRight A first.name phases i tables) :
    ∃ tables', Interphase.bestOfCluster A (first :: rest) phases tables (i + 1) = .ok tables' ∧
      TablesRight A first.name phases (i + 1) tables' := by
  obtain ⟨best, hrun, hphase, -, hrts⟩ := @foldlM_bestOfPhase V A first.name (i + 1) phases.entries
    (fun e he => h.normalized e.1 e.2 (OrdMap.get?_eq_some.mpr he))
    (fun e he => h.rts e.1 e.2 (OrdMap.get?_eq_some.mpr he)) ⟨A.dblMax, 0, [], .empty⟩
  have hnew : tables.configForClusters.get? (i + 1) = none := by
    by_contra hsome
    obtain ⟨b, hb⟩ := Option.ne_none_iff_exists'.mp hsome
    have hrange := htables.keys (i + 1) (OrdMap.mem_keys.mpr ⟨b, hb⟩)
    omega
  rw [Interphase.bestOfCluster]
  simp only [Outcome.elementAt, List.getElem?_cons_zero, le_refl, if_true, Int.toNat_zero,
    Outcome.ok_bind, hrun, Outcome.pure_eq]
  refine ⟨_, rfl, ?_⟩
  constructor
  · simp [htables.length]
  · intro k hk
    by_cases hlast : k = i + 1
    · omega
    · obtain ⟨b, hb⟩ := OrdMap.mem_keys.mp hk
      rw [OrdMap.get?_insertNew, if_neg hlast, Option.or_none] at hb
      have hrange := htables.keys k (OrdMap.mem_keys.mpr ⟨b, hb⟩)
      omega
  · intro j hj
    rw [OrdMap.get?_insertNew]
    by_cases hlast : j = i
    · rw [hlast, hnew, if_pos rfl, Option.none_or]
      refine ⟨_, rfl, ?_⟩
      exact_mod_cast phaseRecorded_foldl (i + 1) hphase
    · obtain ⟨b, hb, hrecorded⟩ := htables.phase j (by omega)
      rw [hb, Option.some_or]
      exact ⟨b, rfl, hrecorded⟩
  · intro j hj
    by_cases hlast : j = i
    · rw [hlast, List.getElem?_append_right (by rw [htables.length]), htables.length, Nat.sub_self,
        hrts]
      refine ⟨_, rfl, ?_⟩
      exact_mod_cast @rtsRecorded_foldl V A first.name phases (i + 1)
    · obtain ⟨m, hm, hrecorded⟩ := htables.rts j (by omega)
      rw [List.getElem?_append_left (by rw [htables.length]; omega)]
      exact ⟨m, hm, hrecorded⟩

theorem computeBestConfigForCluster_right {first : ObjectiveFunction V}
    {rest : List (ObjectiveFunction V)} {n : ℕ} (h : IsClustered first.name phases n) :
    ∃ tables, computeBestConfigForCluster A (first :: rest) n phases ⟨.empty, []⟩ = .ok tables ∧
      TablesRight A first.name phases n tables := by
  have hfirst : ∀ k ≤ n, ∃ tables,
      computeBestConfigForCluster A (first :: rest) k phases ⟨.empty, []⟩ = .ok tables ∧
        TablesRight A first.name phases k tables := by
    intro k hk
    induction k with
    | zero =>
      refine ⟨⟨.empty, []⟩, rfl, rfl, ?_, ?_, ?_⟩
      · intro k hk
        simp at hk
      · intro i hi
        omega
      · intro i hi
        omega
    | succ k ih =>
      obtain ⟨tables, hrun, hright⟩ := ih (by omega)
      obtain ⟨tables', hrun', hright'⟩ := hright.bestOfCluster h
      refine ⟨tables', ?_, hright'⟩
      rw [computeBestConfigForCluster, List.range_succ, List.foldlM_append,
        ← computeBestConfigForCluster, hrun, Outcome.ok_bind, List.foldlM_cons, hrun']
      rfl
  exact hfirst n le_rfl

end Best

section Steps
variable {A} {objective : String} {phases : Phases V} {n : ℕ} {tables : ClusterTables V}
  {setting : TuningSetting}

theorem clusterKey_natCast {k : ℕ} (hk : k ≤ 2147483647) : clusterKey k = k := by
  rw [clusterKey]
  omega

/-- The conversion of a noise label is larger than every cluster. -/
theorem TablesRight.get?_noise (h : TablesRight A objective phases n tables)
    (hn : n ≤ 2147483647) : tables.configForClusters.get? (clusterKey noise) = none := by
  by_contra hsome
  obtain ⟨b, hb⟩ := Option.ne_none_iff_exists'.mp hsome
  have hrange := h.keys _ (OrdMap.mem_keys.mpr ⟨b, hb⟩)
  have hkey : clusterKey noise = 4294967294 := by decide
  omega

/-- A scenario of a noise phase follows an entry that is missing. -/
theorem TablesRight.scenario_noise (h : TablesRight A objective phases n tables)
    (hn : n ≤ 2147483647) {x : PhaseInfo V} (hx : x.clusterID = noise) (tuningStep : ℕ) :
    scenarioOfPhase tuningStep setting phases tables x = .undefined := by
  rw [scenarioOfPhase, hx, h.get?_noise hn]
  rfl

theorem TablesRight.get?_cluster (h : TablesRight A objective phases n tables)
    (hn : n ≤ 2147483647) {x : PhaseInfo V} (hx : 1 ≤ x.clusterID ∧ x.clusterID ≤ n) :
    (∃ best, tables.configForClusters.get? (clusterKey x.clusterID) = some best ∧
      PhaseRecorded A objective phases x.clusterID best.1) ∧
    ∃ m, Outcome.elementAt tables.rtsBestObjs (x.clusterID - 1) = .ok m ∧
      RtsRecorded A objective phases x.clusterID m := by
  obtain ⟨i, hi⟩ : ∃ i : ℕ, x.clusterID = (i : ℤ) + 1 := ⟨(x.clusterID - 1).toNat, by omega⟩
  have hin : i < n := by omega
  have hkey : clusterKey x.clusterID = i + 1 := by
    rw [hi]
    exact_mod_cast clusterKey_natCast (by omega)
  rw [hkey, hi]
  refine ⟨h.phase i hin, ?_⟩
  obtain ⟨m, hm, hrecorded⟩ := h.rts i hin
  refine ⟨m, ?_, hrecorded⟩
  rw [Outcome.elementAt, if_pos (by omega)]
  have hindex : ((i : ℤ) + 1 - 1).toNat = i := by omega
  rw [hindex, hm]

/-- One configuration for each call path. -/
theorem configsForRts_ok {phasePos : Option (PhaseInfo V)} {configForPhase : Configuration}
    {clusterID : ℤ} {P : String → Configuration → Prop}
    (h : ∀ c, ∃ config, configOfRts phases tables setting.defaultConfig phasePos configForPhase
      clusterID c = .ok config ∧ P c config) :
    ∃ m, configsForRts setting phases tables phasePos configForPhase clusterID = .ok m ∧
      (∀ c, c ∈ m.keys ↔ c ∈ setting.validRts) ∧ ∀ c config, m.get? c = some config → P c config := by
  rw [configsForRts]
  have hfold : ∀ (l : List String) (m : OrdMap String Configuration),
      (∀ c config, m.get? c = some config → P c config) → ∃ m', l.foldlM (fun configForRts callPath => do
        let config ← configOfRts phases tables setting.defaultConfig phasePos configForPhase
          clusterID callPath
        return configForRts.insertNew callPath config) m = .ok m' ∧
        (∀ c, c ∈ m'.keys ↔ c ∈ m.keys ∨ c ∈ l) ∧
        ∀ c config, m'.get? c = some config → P c config := by
    intro l
    induction l with
    | nil => exact fun m hm => ⟨m, rfl, by simp, hm⟩
    | cons callPath l ih =>
      intro m hm
      obtain ⟨config, hconfig, hP⟩ := h callPath
      have hm' : ∀ c config', (m.insertNew callPath config).get? c = some config' → P c config' := by
        intro c config' hc
        rw [OrdMap.get?_insertNew, Option.or_eq_some_iff] at hc
        cases hc with
        | inl hold => exact hm c config' hold
        | inr hnew =>
          split_ifs at hnew with hself
          · rw [hself, ← Option.some.inj hnew.2]
            exact hP
          · exact absurd hnew.2 id
      obtain ⟨m', hrun, hkeys, hget⟩ := ih (m.insertNew callPath config) hm'
      refine ⟨m', ?_, fun c => ?_, hget⟩
      · rw [List.foldlM_cons, hconfig]
        exact hrun
      · have hinsert : c ∈ (m.insertNew callPath config).keys ↔ c ∈ m.keys ∨ c = callPath := by
          rw [OrdMap.mem_keys, OrdMap.mem_keys, OrdMap.get?_insertNew]
          by_cases hc : c = callPath <;> cases m.get? c <;> simp [hc]
        rw [hkeys, hinsert, List.mem_cons, or_assoc]
  obtain ⟨m, hrun, hkeys, hget⟩ := hfold setting.validRts .empty (fun c config hc => by simp at hc)
  refine ⟨m, hrun, fun c => ?_, hget⟩
  simpa using hkeys c

/-- What the third step gives where the table has no best phase. -/
def FallsBackWell (A : Doubles V) (objective : String) (setting : TuningSetting)
    (phases : Phases V) (x : PhaseInfo V) : Prop :=
  match phases.get? 0 with
  | some z => PhaseGets A objective setting phases x z.scenarioConfig
  | none => PhaseGets A objective setting phases x setting.defaultConfig ∧
      ∀ c ∈ setting.validRts, RtsGets A objective setting phases x setting.defaultConfig c
        setting.defaultConfig

/-- A phase of the cluster has an objective below the largest number. -/
def HasFinite (A : Doubles V) (objective : String) (phases : Phases V) (x : PhaseInfo V) : Prop :=
  ∃ p v, HasObjective objective phases x.clusterID p v ∧ A.lt v A.dblMax

theorem scenario_entries_injective {m m' : OrdMap String Configuration}
    (h : (m.entries.map fun c => (⟨c.2, [c.1]⟩ : TuningSpecification)) =
      m'.entries.map fun c => ⟨c.2, [c.1]⟩) : m = m' := by
  have hinj : Function.Injective fun c : String × Configuration =>
      (⟨c.2, [c.1]⟩ : TuningSpecification) := by
    intro c d hcd
    simp only [TuningSpecification.mk.injEq, List.cons.injEq, and_true] at hcd
    exact Prod.ext hcd.2 hcd.1
  have hentries := List.map_injective_iff.mpr hinj h
  cases m
  cases m'
  simpa using hentries

/-- The scenario of the third step serves the phase if just that is what the tables give. -/
theorem serves_iff {x : PhaseInfo V} {config : Configuration} {m : OrdMap String Configuration}
    (hkeys : ∀ c, c ∈ m.keys ↔ c ∈ setting.validRts) :
    Serves A objective setting phases x
        ⟨⟨config, [setting.rootCallPath]⟩ :: m.entries.map (fun c => ⟨c.2, [c.1]⟩), true⟩ ↔
      PhaseGets A objective setting phases x config ∧
        ∀ c rtsConfig, m.get? c = some rtsConfig →
          RtsGets A objective setting phases x config c rtsConfig := by
  constructor
  · rintro ⟨config', m', heq, hphase, -, hrts⟩
    simp only [Scenario.mk.injEq, List.cons.injEq, TuningSpecification.mk.injEq, and_true] at heq
    rw [heq.1, scenario_entries_injective heq.2]
    exact ⟨hphase, hrts⟩
  · exact fun hgets => ⟨config, m, rfl, hgets.1, hkeys, hgets.2⟩

/-- The configuration of an rts in a phase whose best phase is there. -/
theorem configOfRts_gets {x y : PhaseInfo V} (hcluster : x.clusterID ≠ noise)
    {m : OrdMap String (V × ℕ)}
    (hm : Outcome.elementAt tables.rtsBestObjs (x.clusterID - 1) = .ok m)
    (hrts : RtsRecorded A objective phases x.clusterID m) (defaultConfig configForPhase : Configuration)
    (callPath : String) :
    ∃ config, configOfRts phases tables defaultConfig (some y) configForPhase x.clusterID callPath =
        .ok config ∧
      RtsGets A objective setting phases x configForPhase callPath config := by
  simp only [configOfRts, hm, Outcome.ok_bind, RtsGets, if_neg hcluster]
  cases hrts callPath with
  | inl hnone =>
    rw [hnone.1]
    exact ⟨configForPhase, rfl, .inr ⟨hnone.2, rfl⟩⟩
  | inr hsome =>
    obtain ⟨best, hbest, hrun⟩ := hsome
    obtain ⟨z, hz⟩ : ∃ z, phases.get? best.2 = some z := by
      obtain ⟨v, ⟨z, hz, -⟩, -⟩ := hrun
      exact ⟨z, hz⟩
    rw [hbest]
    simp only [hz, Outcome.found, Outcome.ok_bind, Outcome.pure_eq]
    exact ⟨z.scenarioConfig, rfl, .inl ⟨best.2, z, hrun, hz, rfl⟩⟩

/-- A phase that is in a cluster. -/
theorem TablesRight.scenario_cluster (h : TablesRight A objective phases n tables)
    (hn : n ≤ 2147483647) {x : PhaseInfo V} (hx : 1 ≤ x.clusterID ∧ x.clusterID ≤ n) :
    (∃ scenario, scenarioOfPhase 2 setting phases tables x = .ok scenario) ∧
    ∃ scenario, scenarioOfPhase 3 setting phases tables x = .ok scenario ∧
      (Serves A objective setting phases x scenario ↔
        HasFinite A objective phases x ∨ FallsBackWell A objective setting phases x) := by
  have hcluster : x.clusterID ≠ noise := by simp only [noise]; omega
  obtain ⟨⟨best, hbest, hphase⟩, m, hm, hrts⟩ := h.get?_cluster hn hx
  refine ⟨⟨_, by simp [scenarioOfPhase, hbest, Outcome.found]; rfl⟩, ?_⟩
  rw [scenarioOfPhase, hbest]
  simp only [Outcome.found, Outcome.ok_bind, le_refl, if_true]
  cases hget : phases.get? best.1 with
  | some y =>
    obtain ⟨configs, hconfigs, hkeys, hgets⟩ := configsForRts_ok
      fun c => @configOfRts_gets V A objective phases tables setting x y hcluster m hm hrts
        setting.defaultConfig y.scenarioConfig c
    simp only [Option.map_some, Option.getD_some, hconfigs, Outcome.ok_bind, Outcome.pure_eq]
    refine ⟨_, rfl, ?_⟩
    rw [serves_iff hkeys, and_iff_left hgets]
    cases hphase with
    | inl hfinite =>
      obtain ⟨hbelow, hleast⟩ := hfinite
      refine iff_of_true ?_ (.inl ⟨best.1, hbelow⟩)
      rw [PhaseGets, if_neg hcluster]
      exact ⟨best.1, y, hleast, hget, rfl⟩
    | inr hnone =>
      obtain ⟨hzero, habove⟩ := hnone
      have hnot : ¬ HasFinite A objective phases x := by
        rintro ⟨p, v, hv, hlt⟩
        exact habove p v hv hlt
      rw [or_iff_right hnot, FallsBackWell, ← hzero, hget]
  | none =>
    obtain ⟨hzero, habove⟩ := hphase.resolve_left fun hfinite => by
      obtain ⟨⟨v, ⟨z, hz, -⟩, -⟩, -⟩ := hfinite
      simp [hget] at hz
    obtain ⟨configs, hconfigs, hkeys, hgets⟩ := @configsForRts_ok V phases tables setting none
      setting.defaultConfig x.clusterID (fun _ config => config = setting.defaultConfig)
      fun c => ⟨_, rfl, rfl⟩
    simp only [Option.map_none, Option.getD_none, hconfigs, Outcome.ok_bind, Outcome.pure_eq]
    refine ⟨_, rfl, ?_⟩
    have hnot : ¬ HasFinite A objective phases x := by
      rintro ⟨p, v, hv, hlt⟩
      exact habove p v hv hlt
    rw [serves_iff hkeys, or_iff_right hnot, FallsBackWell, ← hzero, hget]
    apply and_congr_right
    intro
    constructor
    · intro hall c hc
      obtain ⟨config, hconfig⟩ := OrdMap.mem_keys.mp ((hkeys c).mpr hc)
      have hrts' := hall c config hconfig
      rwa [hgets c config hconfig] at hrts'
    · intro hall c config hconfig
      rw [hgets c config hconfig]
      exact hall c ((hkeys c).mp (OrdMap.mem_keys.mpr ⟨config, hconfig⟩))

/-- The two steps meet their purpose just if no phase is noise, and every cluster has a phase
with an objective below the largest number or falls back on a configuration that fits. -/
theorem scenariosServe_iff (A : Doubles V) (first : ObjectiveFunction V)
    (rest : List (ObjectiveFunction V)) (setting : TuningSetting) (n : ℕ) (phases : Phases V)
    (h : IsClustered first.name phases n) :
    ScenariosServe A first.name setting phases (first :: rest) n ↔
      ∀ p x, phases.get? p = some x → x.clusterID ≠ noise ∧
        (HasFinite A first.name phases x ∨ FallsBackWell A first.name setting phases x) := by
  obtain ⟨tables, htables, hright⟩ := @computeBestConfigForCluster_right V A phases first rest n h
  constructor
  · rintro ⟨tables', scenarios₂, scenarios₃, htables', -, h₃, -, hserves⟩ p x hx
    have hsame : tables = tables' := Outcome.ok.inj (htables.symm.trans htables')
    rw [← hsame] at h₃
    have hboth : List.Forall₂ (fun (e : ℕ × PhaseInfo V) scenario =>
        scenarioOfPhase 3 setting phases tables e.2 = .ok scenario ∧
          Serves A first.name setting phases e.2 scenario) phases.entries scenarios₃ :=
      (Outcome.mapM_eq_ok_iff.mp h₃).mp (fun _ _ hrun hserves => ⟨hrun, hserves⟩) hserves
    obtain ⟨scenario, -, hscenario, hserved⟩ :=
      exists_of_forall₂ hboth (OrdMap.get?_eq_some.mp hx)
    simp only at hscenario hserved
    have hcluster : x.clusterID ≠ noise := by
      intro hnoise
      rw [hright.scenario_noise h.bound hnoise] at hscenario
      simp at hscenario
    refine ⟨hcluster, ?_⟩
    obtain ⟨-, scenario', hscenario', hiff⟩ := @TablesRight.scenario_cluster V A first.name phases n
      tables setting hright h.bound x ((h.ids p x hx).resolve_left hcluster)
    have hsame' : scenario = scenario' := Outcome.ok.inj (hscenario.symm.trans hscenario')
    exact hiff.mp (hsame' ▸ hserved)
  · intro hall
    have hcluster : ∀ e ∈ phases.entries, 1 ≤ e.2.clusterID ∧ e.2.clusterID ≤ n := by
      intro e he
      have hx := OrdMap.get?_eq_some.mpr he
      exact (h.ids e.1 e.2 hx).resolve_left (hall e.1 e.2 hx).1
    obtain ⟨scenarios₂, h₂⟩ := exists_forall₂ fun e he =>
      (@TablesRight.scenario_cluster V A first.name phases n tables setting hright h.bound e.2
        (hcluster e he)).1
    obtain ⟨scenarios₃, h₃⟩ := exists_forall₂ fun e he =>
      (@TablesRight.scenario_cluster V A first.name phases n tables setting hright h.bound e.2
        (hcluster e he)).2
    refine ⟨tables, scenarios₂, scenarios₃, htables, Outcome.mapM_eq_ok_iff.mpr h₂,
      Outcome.mapM_eq_ok_iff.mpr (h₃.imp fun _ _ hboth => hboth.1), h₂.length_eq.symm, ?_⟩
    have hserved := (List.forall₂_and_left _ _).mpr ⟨fun e he => he, h₃⟩
    refine hserved.imp fun e scenario hboth => ?_
    have hx := OrdMap.get?_eq_some.mpr hboth.1
    exact hboth.2.2.mpr (hall e.1 e.2 hx).2

/-- A phase with its cluster and the values of one objective. -/
def clusteredPhase (clusterID : ℤ) (energy : ℚ) : PhaseInfo ℚ :=
  { plainPhase 0 with clusterID, normalizedObj := .ofList [("Energy", energy)] }

def energyObjective : ObjectiveFunction ℚ where
  name := "Energy"
  objective properties := (properties.map MetaProperty.severity).sum

/-- Four phases of one cluster and one that is noise. -/
def noisyPhases : Phases ℚ :=
  .ofList [(0, clusteredPhase 1 4), (1, clusteredPhase 1 3), (2, clusteredPhase 1 5),
    (3, clusteredPhase 1 6), (4, clusteredPhase noise 9)]

def oneParameter : TuningSetting where
  tuningParameters := [(0, 2500)]
  rootCallPath := "/main"
  validRts := ["/main/solve"]

theorem isClustered_of_entries {objective : String} {phases : Phases V} {n : ℕ}
    (hn : n ≤ 2147483647)
    (h : ∀ e ∈ phases.entries, (e.2.clusterID = noise ∨ 1 ≤ e.2.clusterID ∧ e.2.clusterID ≤ n) ∧
      (e.2.normalizedObj.get? objective).isSome ∧ e.2.rtsInfo = []) :
    IsClustered objective phases n where
  bound := hn
  ids p x hx := (h _ (OrdMap.get?_eq_some.mp hx)).1
  normalized p x hx := Option.isSome_iff_exists.mp (h _ (OrdMap.get?_eq_some.mp hx)).2.1
  rts p x hx r hr := by
    have hnil : x.rtsInfo = [] := (h (p, x) (OrdMap.get?_eq_some.mp hx)).2.2
    simp [hnil] at hr

theorem isClustered_noisyPhases : IsClustered energyObjective.name noisyPhases 1 :=
  isClustered_of_entries (by decide) (by decide +kernel)

/-- With one noise phase the second step already follows an entry that is missing. -/
theorem not_scenariosServe : IsClustered energyObjective.name noisyPhases 1 ∧
    ¬ ScenariosServe ratDoubles energyObjective.name oneParameter noisyPhases [energyObjective] 1 := by
  refine ⟨isClustered_noisyPhases, ?_⟩
  rintro ⟨tables, scenarios₂, -, htables, h₂, -⟩
  obtain ⟨tables', htables', hright⟩ :=
    @computeBestConfigForCluster_right ℚ ratDoubles noisyPhases energyObjective [] 1
      isClustered_noisyPhases
  have hsame : tables' = tables := Outcome.ok.inj (htables'.symm.trans htables)
  rw [hsame] at hright
  have hmem : (4, clusteredPhase noise 9) ∈ noisyPhases.entries := by
    rw [← OrdMap.get?_eq_some]
    rfl
  obtain ⟨scenario, -, hscenario⟩ := exists_of_forall₂ (Outcome.mapM_eq_ok_iff.mp h₂) hmem
  rw [hright.scenario_noise isClustered_noisyPhases.bound rfl] at hscenario
  exact absurd hscenario (by simp)

theorem scenariosServe_noisyPhases : IsClustered energyObjective.name noisyPhases 1 ∧
    (ScenariosServe ratDoubles energyObjective.name oneParameter noisyPhases [energyObjective] 1 ↔
      ∀ p x, noisyPhases.get? p = some x → x.clusterID ≠ noise ∧
        (HasFinite ratDoubles energyObjective.name noisyPhases x ∨
          FallsBackWell ratDoubles energyObjective.name oneParameter noisyPhases x)) :=
  ⟨isClustered_noisyPhases,
    scenariosServe_iff ratDoubles energyObjective [] oneParameter 1 noisyPhases isClustered_noisyPhases⟩

end Steps

end ReadexPtf.Interphase
