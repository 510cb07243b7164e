import ReadexPtf.Interphase.Steps
import Mathlib

/-! The tables of the best phases, as they follow from what was measured for each phase. -/
namespace ReadexPtf.Interphase
variable {V : Type} (A : Doubles V)

section Purpose
variable (objective : String)

/-- An objective for each instruction, or as it is where it has been normalized before. -/
def perInstruction (totIns objValue : V) : V :=
  if (findFrom "Normalized".toList objective.toList 0).isNone then A.div objValue totIns
  else objValue

/-- The normalized objective that follows from the measurements. -/
def IsNormalized (phaseIdentifiers objValues : OrdMap String V) (v : V) : Prop :=
  ∃ totIns o, phaseIdentifiers.get? "TotalInstr" = some totIns ∧
    objValues.get? objective = some o ∧ v = perInstruction A objective totIns o

variable (phases : Phases V)

/-- A phase of the cluster and its normalized objective. -/
def PhaseHas (cluster : ℤ) (p : ℕ) (v : V) : Prop :=
  ∃ x, phases.get? p = some x ∧ x.clusterID = cluster ∧
    IsNormalized A objective x.phaseIdentifiers x.objValues v

/-- An rts with an objective that is not zero in a phase of the cluster, with its normalized
objective there. -/
def RtsHas (cluster : ℤ) (callPath : String) (p : ℕ) (v : V) : Prop :=
  ∃ x, phases.get? p = some x ∧ x.clusterID = cluster ∧ ∃ r ∈ x.rtsInfo, r.callpath = callPath ∧
    (∃ o, r.objValues.get? objective = some o ∧ A.eq o A.zero = false) ∧
    IsNormalized A objective r.phaseIdentifiers r.objValues v

/-- A value at a phase that no value at a phase is less than. -/
def IsLeastOf (has : ℕ → V → Prop) (p : ℕ) (v : V) : Prop :=
  has p v ∧ ∀ q w, has q w → ¬ A.lt w v

/-- Phases that have been measured and clustered, and not normalized yet. -/
structure IsMeasured (numClusters : ℕ) : Prop where
  bound : numClusters ≤ 2147483647
  ids : ∀ p x, phases.get? p = some x →
    x.clusterID = noise ∨ 1 ≤ x.clusterID ∧ x.clusterID ≤ numClusters
  measured : ∀ p x, phases.get? p = some x → x.normalizedObj = .empty ∧
    (∃ totIns, x.phaseIdentifiers.get? "TotalInstr" = some totIns) ∧
    ∃ o, x.objValues.get? objective = some o
  rts : ∀ p x, phases.get? p = some x → ∀ r ∈ x.rtsInfo, r.normalizedObj = .empty ∧
    (∃ totIns, r.phaseIdentifiers.get? "TotalInstr" = some totIns) ∧
    ∃ o, r.objValues.get? objective = some o

/-- What is stored for one cluster: its phases with a best one of them, and the best value
and phase of each rts that has run. -/
structure IsStoredFor (cluster : ℤ) (best : ℕ × List ℕ) (rtsBestObj : OrdMap String (V × ℕ)) :
    Prop where
  members : best.2.Nodup ∧
    ∀ p, p ∈ best.2 ↔ ∃ x, phases.get? p = some x ∧ x.clusterID = cluster
  best : ∃ v, IsLeastOf A (PhaseHas A objective phases cluster) best.1 v
  entries : ∀ callPath,
    callPath ∈ rtsBestObj.keys ↔ ∃ p v, RtsHas A objective phases cluster callPath p v
  least : ∀ callPath v p, rtsBestObj.get? callPath = some (v, p) →
    IsLeastOf A (RtsHas A objective phases cluster callPath) p v

/-- The tables for the clusters from one on. The one for the rts's starts with cluster one. -/
def BestConfigsStored (objectives : List (ObjectiveFunction V)) (numClusters : ℕ) : Prop :=
  ∃ normalized tables, normalizeObjectives A phases = .ok normalized ∧
    computeBestConfigForCluster A objectives numClusters normalized ⟨.empty, []⟩ = .ok tables ∧
    (∀ k, k ∈ tables.configForClusters.keys ↔ 1 ≤ k ∧ k ≤ numClusters) ∧
    tables.rtsBestObjs.length = numClusters ∧
    ∀ i < numClusters, ∃ best rtsBestObj, tables.configForClusters.get? (i + 1) = some best ∧
      tables.rtsBestObjs[i]? = some rtsBestObj ∧
      IsStoredFor A objective phases (i + 1 : ℕ) best rtsBestObj

end Purpose

section Tables
variable {A} {objective : String} {phases : Phases V} {numClusters : ℕ}

/-- The phases of a cluster, in their order. -/
def membersOf (cluster : ℕ) (phases : Phases V) : List ℕ :=
  (phases.entries.filter fun e => e.2.clusterID = (cluster : ℤ)).map Prod.fst

/-- The best phase of a cluster as the loop finds it, with its objective. -/
def bestPhase (A : Doubles V) (objective : String) (phases : Phases V) (cluster : ℕ) : V × ℕ :=
  (phaseCandidates objective cluster phases.entries).foldl (keepLess A.lt) (A.dblMax, 0)

def bestRts (A : Doubles V) (objective : String) (phases : Phases V) (cluster : ℕ) :
    OrdMap String (V × ℕ) :=
  (clusterRtsCandidates A objective cluster phases.entries).foldl (keepLessAt A.lt) .empty

theorem bestOfCluster_eq {first : ObjectiveFunction V} {rest : List (ObjectiveFunction V)} {n : ℕ}
    (h : IsClustered first.name phases n) (cluster : ℕ) (tables : ClusterTables V) :
    bestOfCluster A (first :: rest) phases tables cluster = .ok
      { configForClusters := tables.configForClusters.insertNew cluster
          ((bestPhase A first.name phases cluster).2, membersOf cluster phases)
        rtsBestObjs := tables.rtsBestObjs ++ [bestRts A first.name phases cluster] } := by
  obtain ⟨best, hrun, hphase, hmembers, hrts⟩ := @foldlM_bestOfPhase V A first.name cluster
    phases.entries (fun e he => h.normalized e.1 e.2 (OrdMap.get?_eq_some.mpr he))
    (fun e he => h.rts e.1 e.2 (OrdMap.get?_eq_some.mpr he)) ⟨A.dblMax, 0, [], .empty⟩
  have hnum : best.phaseNum = (bestPhase A first.name phases cluster).2 := congrArg Prod.snd hphase
  rw [bestOfCluster]
  simp only [Outcome.elementAt, List.getElem?_cons_zero, le_refl, if_true, Int.toNat_zero,
    Outcome.ok_bind, hrun, Outcome.pure_eq]
  rw [hnum, hmembers, hrts, List.nil_append]
  rfl

/-- All clusters, one after another. -/
theorem computeBestConfigForCluster_eq {first : ObjectiveFunction V}
    {rest : List (ObjectiveFunction V)} {n : ℕ} (h : IsClustered first.name phases n) (k : ℕ) :
    computeBestConfigForCluster A (first :: rest) k phases ⟨.empty, []⟩ = .ok
      { configForClusters := (List.range k).foldl (fun m i => m.insertNew (i + 1)
          ((bestPhase A first.name phases (i + 1)).2, membersOf (i + 1) phases)) .empty
        rtsBestObjs := (List.range k).map fun i => bestRts A first.name phases (i + 1) } := by
  induction k with
  | zero => rfl
  | succ k ih =>
    rw [computeBestConfigForCluster, List.range_succ, List.foldlM_append,
      ← computeBestConfigForCluster, ih, Outcome.ok_bind, List.foldlM_cons, bestOfCluster_eq h,
      List.foldl_append, List.map_append]
    rfl

end Tables

section Normalized
variable {A : Doubles V} {objective : String} {phases normalized : Phases V} {n : ℕ}

/-- A loop over the phases that changes each record on its own. -/
theorem updateAll_ok {f : PhaseInfo V → Outcome (PhaseInfo V)} {g : PhaseInfo V → PhaseInfo V}
    (h : ∀ p x, phases.get? p = some x → f x = .ok (g x)) :
    ∃ phases', updateAll f phases = .ok phases' ∧ ∀ p, phases'.get? p = (phases.get? p).map g := by
  have hkeys : ∀ (keys : List ℕ) (s : Phases V), keys.Nodup → (∀ p ∈ keys, p ∈ phases.keys) →
      (∀ p ∈ keys, s.get? p = phases.get? p) →
      ∃ s', keys.foldlM (fun phases p => do
          let x ← Outcome.found (phases.get? p)
          let x ← f x
          return phases.set p x) s = .ok s' ∧
        ∀ p, s'.get? p = if p ∈ keys then (phases.get? p).map g else s.get? p := by
    intro keys
    induction keys with
    | nil => exact fun s _ _ _ => ⟨s, rfl, fun p => (if_neg List.not_mem_nil).symm⟩
    | cons k keys ih =>
      intro s hnodup hinside hsame
      obtain ⟨hfresh, hnodup⟩ := List.nodup_cons.mp hnodup
      obtain ⟨x, hx⟩ := OrdMap.mem_keys.mp (hinside k List.mem_cons_self)
      have hk := hsame k List.mem_cons_self
      obtain ⟨s', hrun, hget⟩ := ih (s.set k (g x)) hnodup
        (fun p hp => hinside p (List.mem_cons_of_mem k hp)) fun p hp => by
          rw [OrdMap.get?_set_ne _ _ (ne_of_mem_of_not_mem hp hfresh)]
          exact hsame p (List.mem_cons_of_mem k hp)
      refine ⟨s', ?_, fun p => ?_⟩
      · rw [List.foldlM_cons, hk, hx, Outcome.found, Outcome.ok_bind, h k x hx]
        exact hrun
      · rw [hget p]
        by_cases hp : p = k
        · rw [hp, if_neg hfresh, if_pos List.mem_cons_self, OrdMap.get?_set_self, hx]
          rfl
        · rw [OrdMap.get?_set_ne _ _ hp]
          simp [hp]
  obtain ⟨phases', hrun, hget⟩ := hkeys phases.keys phases phases.keys_nodup (fun _ hp => hp)
    fun _ _ => rfl
  refine ⟨phases', hrun, fun p => ?_⟩
  rw [hget p]
  split_ifs with hp
  · rfl
  · rw [OrdMap.mem_keys, not_exists] at hp
    rw [Option.eq_none_iff_forall_ne_some.mpr hp]
    rfl

theorem normalizedObjectives_eq (totIns : V) (objValues normalizedObj : OrdMap String V) :
    normalizedObjectives A totIns objValues normalizedObj = insertEntries normalizedObj
      (objValues.entries.map fun e => (e.1, perInstruction A e.1 totIns e.2)) := rfl

theorem get?_normalizedObjectives (totIns : V) (objValues : OrdMap String V) :
    (normalizedObjectives A totIns objValues .empty).get? objective =
      (objValues.get? objective).map (perInstruction A objective totIns) := by
  rw [normalizedObjectives_eq, insertEntries, OrdMap.get?_foldl_insertNew, OrdMap.get?_empty,
    Option.none_or, OrdMap.get?]
  generalize objValues.entries = entries
  induction entries with
  | nil => rfl
  | cons e entries ih =>
    rw [List.map_cons, List.find?_cons, List.lookup_cons]
    by_cases he : e.1 = objective
    · simp [he]
    · have hne : (objective == e.1) = false := beq_false_of_ne (Ne.symm he)
      rw [hne]
      simpa [he] using ih

/-- The record of an rts with its objectives for each instruction. -/
def normalizedRts (A : Doubles V) (r : RtsInfo V) : RtsInfo V :=
  { r with
    normalizedObj := normalizedObjectives A
      ((r.phaseIdentifiers.get? "TotalInstr").getD A.zero) r.objValues r.normalizedObj }

def normalizedPhase (A : Doubles V) (x : PhaseInfo V) : PhaseInfo V :=
  { x with
    normalizedObj := normalizedObjectives A
      ((x.phaseIdentifiers.get? "TotalInstr").getD A.zero) x.objValues x.normalizedObj
    rtsInfo := x.rtsInfo.map (normalizedRts A) }

theorem normalizeObjectives_ok (h : IsMeasured objective phases n) :
    ∃ normalized, normalizeObjectives A phases = .ok normalized ∧
      ∀ p, normalized.get? p = (phases.get? p).map (normalizedPhase A) := by
  apply updateAll_ok
  intro p x hx
  obtain ⟨-, ⟨totIns, htot⟩, -⟩ := h.measured p x hx
  have hrts : x.rtsInfo.mapM (fun rtsInf => do
      let totIns ← Outcome.found (rtsInf.phaseIdentifiers.get? "TotalInstr")
      return { rtsInf with
        normalizedObj := normalizedObjectives A totIns rtsInf.objValues rtsInf.normalizedObj }) =
      .ok (x.rtsInfo.map (normalizedRts A)) := by
    apply Outcome.mapM_eq_map
    intro r hr
    obtain ⟨-, ⟨totIns, htot⟩, -⟩ := h.rts p x hx r hr
    simp [normalizedRts, htot, Outcome.found]
  rw [htot, hrts]
  simp [normalizedPhase, htot, Outcome.found]

/-- The normalized objective of a record is the one that follows from its measurements. -/
theorem normalizedObjectives_iff {identifiers objValues : OrdMap String V} {totIns v : V}
    (htot : identifiers.get? "TotalInstr" = some totIns) :
    (normalizedObjectives A ((identifiers.get? "TotalInstr").getD A.zero) objValues .empty).get?
        objective = some v ↔ IsNormalized A objective identifiers objValues v := by
  rw [get?_normalizedObjectives, htot, Option.getD_some, Option.map_eq_some_iff]
  constructor
  · rintro ⟨o, ho, rfl⟩
    exact ⟨totIns, o, htot, ho, rfl⟩
  · rintro ⟨totIns', o, htot', ho, rfl⟩
    rw [Option.some.inj (htot.symm.trans htot')]
    exact ⟨o, ho, rfl⟩

variable (h : IsMeasured objective phases n)
  (hget : ∀ p, normalized.get? p = (phases.get? p).map (normalizedPhase A))
include h hget

theorem hasObjective_iff {cluster : ℤ} {p : ℕ} {v : V} :
    HasObjective objective normalized cluster p v ↔ PhaseHas A objective phases cluster p v := by
  rw [HasObjective, PhaseHas, hget p]
  constructor
  · rintro ⟨x', hx', hcluster, hv⟩
    obtain ⟨x, hx, rfl⟩ := Option.map_eq_some_iff.mp hx'
    obtain ⟨hempty, ⟨totIns, htot⟩, -⟩ := h.measured p x hx
    refine ⟨x, hx, hcluster, (normalizedObjectives_iff htot).mp ?_⟩
    rw [← hempty]
    exact hv
  · rintro ⟨x, hx, hcluster, hv⟩
    obtain ⟨hempty, ⟨totIns, htot⟩, -⟩ := h.measured p x hx
    refine ⟨normalizedPhase A x, by rw [hx]; rfl, hcluster, ?_⟩
    rw [normalizedPhase, hempty]
    exact (normalizedObjectives_iff htot).mpr hv

theorem hasRun_iff {cluster : ℤ} {callPath : String} {p : ℕ} {v : V} :
    HasRun A objective normalized cluster callPath p v ↔
      RtsHas A objective phases cluster callPath p v := by
  have hran : ∀ r : RtsInfo V, (r.objValues.get? objective).any (fun o => !A.eq o A.zero) = true ↔
      ∃ o, r.objValues.get? objective = some o ∧ A.eq o A.zero = false := by
    intro r
    simp [Option.any_eq_true]
  rw [HasRun, RtsHas, hget p]
  constructor
  · rintro ⟨x', hx', hcluster, r', hr', hpath, hvalue, hv⟩
    obtain ⟨x, hx, rfl⟩ := Option.map_eq_some_iff.mp hx'
    obtain ⟨r, hr, rfl⟩ := List.mem_map.mp hr'
    obtain ⟨hempty, ⟨totIns, htot⟩, -⟩ := h.rts p x hx r hr
    refine ⟨x, hx, hcluster, r, hr, hpath, (hran _).mp hvalue,
      (normalizedObjectives_iff htot).mp ?_⟩
    rw [← hempty]
    exact hv
  · rintro ⟨x, hx, hcluster, r, hr, hpath, hvalue, hv⟩
    obtain ⟨hempty, ⟨totIns, htot⟩, -⟩ := h.rts p x hx r hr
    refine ⟨normalizedPhase A x, by rw [hx]; rfl, hcluster, normalizedRts A r,
      List.mem_map_of_mem hr, hpath, (hran _).mpr hvalue, ?_⟩
    rw [normalizedRts, hempty]
    exact (normalizedObjectives_iff htot).mpr hv

theorem IsMeasured.isClustered : IsClustered objective normalized n where
  bound := h.bound
  ids p x' hx' := by
    rw [hget p] at hx'
    obtain ⟨x, hx, rfl⟩ := Option.map_eq_some_iff.mp hx'
    exact h.ids p x hx
  normalized p x' hx' := by
    rw [hget p] at hx'
    obtain ⟨x, hx, rfl⟩ := Option.map_eq_some_iff.mp hx'
    obtain ⟨hempty, -, o, ho⟩ := h.measured p x hx
    rw [normalizedPhase, hempty]
    exact ⟨_, by rw [get?_normalizedObjectives, ho]; rfl⟩
  rts p x' hx' r' hr' := by
    rw [hget p] at hx'
    obtain ⟨x, hx, rfl⟩ := Option.map_eq_some_iff.mp hx'
    obtain ⟨r, hr, rfl⟩ := List.mem_map.mp hr'
    obtain ⟨hempty, -, o, ho⟩ := h.rts p x hx r hr
    refine ⟨?_, o, ho⟩
    rw [normalizedRts, hempty]
    exact ⟨_, by rw [get?_normalizedObjectives, ho]; rfl⟩

end Normalized

section Stored
variable {A : Doubles V} {objective : String} {phases normalized : Phases V} {n : ℕ}

theorem mem_membersOf (hget : ∀ p, normalized.get? p = (phases.get? p).map (normalizedPhase A))
    {cluster p : ℕ} :
    p ∈ membersOf cluster normalized ↔
      ∃ x, phases.get? p = some x ∧ x.clusterID = (cluster : ℤ) := by
  simp only [membersOf, List.mem_map, List.mem_filter, decide_eq_true_eq]
  constructor
  · rintro ⟨e, ⟨he, hcluster⟩, rfl⟩
    have hx' := OrdMap.get?_eq_some.mpr he
    rw [hget] at hx'
    obtain ⟨x, hx, hxe⟩ := Option.map_eq_some_iff.mp hx'
    exact ⟨x, hx, by rw [← hcluster, ← hxe]; rfl⟩
  · rintro ⟨x, hx, hcluster⟩
    exact ⟨(p, normalizedPhase A x), ⟨OrdMap.get?_eq_some.mp (by rw [hget, hx]; rfl), hcluster⟩, rfl⟩

theorem nodup_membersOf (cluster : ℕ) : (membersOf cluster normalized).Nodup :=
  normalized.keys_nodup.sublist (List.filter_sublist.map Prod.fst)

/-- What the loops find for a cluster is right but for its best phase, which is right if a
phase has an objective below the largest number, or if phase zero is a best one. -/
theorem isStoredFor_iff (h : IsMeasured objective phases n)
    (hget : ∀ p, normalized.get? p = (phases.get? p).map (normalizedPhase A)) (cluster : ℕ) :
    IsStoredFor A objective phases cluster
        ((bestPhase A objective normalized cluster).2, membersOf cluster normalized)
        (bestRts A objective normalized cluster) ↔
      (∃ p v, PhaseHas A objective phases cluster p v ∧ A.lt v A.dblMax) ∨
        ∃ v, IsLeastOf A (PhaseHas A objective phases cluster) 0 v := by
  have hphase : ∀ {p : ℕ} {v : V}, HasObjective objective normalized cluster p v ↔
      PhaseHas A objective phases cluster p v := hasObjective_iff h hget
  have hrecorded : PhaseRecorded A objective normalized cluster
      (bestPhase A objective normalized cluster).2 := phaseRecorded_foldl cluster rfl
  simp only [PhaseRecorded, IsBestPhase, hphase] at hrecorded
  have hrts : ∀ callPath : String,
      ((bestRts A objective normalized cluster).get? callPath = none ∧
        ∀ p v, ¬ RtsHas A objective phases cluster callPath p v) ∨
      ∃ v p, (bestRts A objective normalized cluster).get? callPath = some (v, p) ∧
        IsLeastOf A (RtsHas A objective phases cluster callPath) p v := by
    intro callPath
    have hrun : ∀ {c : String × V × ℕ},
        c ∈ clusterRtsCandidates A objective cluster normalized.entries ↔
          RtsHas A objective phases cluster c.1 c.2.2 c.2.1 :=
      fun {c} => mem_clusterRtsCandidates.trans (hasRun_iff h hget)
    cases foldl_keepLessAt A.lt_trans A.lt_irrefl
        (clusterRtsCandidates A objective cluster normalized.entries) callPath with
    | inl hnone =>
      exact .inl ⟨hnone.1, fun p v hhas => hnone.2 (callPath, v, p) (hrun.mpr hhas) rfl⟩
    | inr hsome =>
      obtain ⟨best, hbest, hmem, hleast⟩ := hsome
      exact .inr ⟨best.1, best.2, hbest, hrun.mp hmem, fun q w hhas =>
        hleast (callPath, w, q) (hrun.mpr hhas) rfl⟩
  constructor
  · intro hstored
    cases hrecorded with
    | inl hfinite =>
      obtain ⟨⟨v, hv, hless⟩, -⟩ := hfinite
      exact .inl ⟨_, v, hv, hless⟩
    | inr hnone =>
      have hbest := hstored.best
      rw [hnone.1] at hbest
      exact .inr hbest
  · intro hcondition
    refine ⟨⟨nodup_membersOf cluster, fun p => mem_membersOf hget⟩, ?_, ?_, ?_⟩
    · cases hrecorded with
      | inl hfinite =>
        obtain ⟨-, v, hv, hleast⟩ := hfinite
        exact ⟨v, hv, hleast⟩
      | inr hnone =>
        rw [hnone.1]
        refine hcondition.resolve_left ?_
        rintro ⟨p, v, hv, hless⟩
        exact hnone.2 p v hv hless
    · intro callPath
      rw [OrdMap.mem_keys]
      cases hrts callPath with
      | inl hnone =>
        simp only [hnone.1, hnone.2, reduceCtorEq, exists_false]
      | inr hsome =>
        obtain ⟨v, p, hbest, hleast⟩ := hsome
        exact ⟨fun _ => ⟨p, v, hleast.1⟩, fun _ => ⟨(v, p), hbest⟩⟩
    · intro callPath v p hentry
      cases hrts callPath with
      | inl hnone => exact absurd (hnone.1.symm.trans hentry) (by simp)
      | inr hsome =>
        obtain ⟨v', p', hbest, hleast⟩ := hsome
        obtain ⟨rfl, rfl⟩ := Prod.mk.inj (Option.some.inj (hbest.symm.trans hentry))
        exact hleast

/-- The tables have one entry for each cluster, at its place. -/
theorem bestConfigsStored_entries {first : ObjectiveFunction V} {rest : List (ObjectiveFunction V)}
    (h : IsMeasured first.name phases n) :
    ∃ normalized, (∀ p, normalized.get? p = (phases.get? p).map (normalizedPhase A)) ∧
      (BestConfigsStored A first.name phases (first :: rest) n ↔
        ∀ i < n, IsStoredFor A first.name phases (i + 1 : ℕ)
          ((bestPhase A first.name normalized (i + 1)).2, membersOf (i + 1) normalized)
          (bestRts A first.name normalized (i + 1))) := by
  obtain ⟨normalized, hnormalized, hget⟩ := normalizeObjectives_ok h
  refine ⟨normalized, hget, ?_⟩
  have htables := @computeBestConfigForCluster_eq V A normalized first rest n
    (IsMeasured.isClustered h hget) n
  obtain ⟨tables, heq⟩ : ∃ tables : ClusterTables V, tables =
      { configForClusters := (List.range n).foldl (fun m i => m.insertNew (i + 1)
          ((bestPhase A first.name normalized (i + 1)).2, membersOf (i + 1) normalized)) .empty
        rtsBestObjs := (List.range n).map fun i => bestRts A first.name normalized (i + 1) } :=
    ⟨_, rfl⟩
  rw [← heq] at htables
  have hconfig : ∀ i < n, tables.configForClusters.get? (i + 1) =
      some ((bestPhase A first.name normalized (i + 1)).2, membersOf (i + 1) normalized) := by
    intro i hi
    have hfind : (List.range n).find? (fun j => j + 1 = i + 1) = some i := by
      simp [List.find?_range_eq_some, hi]
      omega
    rw [heq, OrdMap.get?_foldl_insertNew, OrdMap.get?_empty, Option.none_or, hfind]
    rfl
  have hrts : ∀ i < n, tables.rtsBestObjs[i]? =
      some (bestRts A first.name normalized (i + 1)) := by
    intro i hi
    simp [heq, hi]
  constructor
  · rintro ⟨normalized', tables', hnormalized', htables', -, -, hstored⟩ i hi
    obtain rfl := Outcome.ok.inj (hnormalized.symm.trans hnormalized')
    obtain rfl := Outcome.ok.inj (htables.symm.trans htables')
    obtain ⟨best, rtsBestObj, hbest, hbestRts, hright⟩ := hstored i hi
    rw [hconfig i hi] at hbest
    rw [hrts i hi] at hbestRts
    rwa [Option.some.inj hbest, Option.some.inj hbestRts]
  · intro hstored
    refine ⟨normalized, tables, hnormalized, htables, fun k => ?_, by simp [heq], fun i hi =>
      ⟨_, _, hconfig i hi, hrts i hi, hstored i hi⟩⟩
    rw [heq, OrdMap.mem_keys_foldl_insertNew, List.mem_map]
    constructor
    · rintro ⟨i, hi, rfl⟩
      have hlt := List.mem_range.mp hi
      omega
    · intro hk
      exact ⟨k - 1, List.mem_range.mpr (by omega), by omega⟩

end Stored

/-- The tables are right just if each cluster has a phase whose normalized objective is below
the largest number, or has phase zero for a best one: the first minimum starts with the
largest number and with phase zero, those of the rts's with what comes first. -/
theorem bestConfigsStored_iff (A : Doubles V) (first : ObjectiveFunction V)
    (rest : List (ObjectiveFunction V)) (phases : Phases V) (n : ℕ)
    (h : IsMeasured first.name phases n) :
    BestConfigsStored A first.name phases (first :: rest) n ↔
      ∀ i < n, (∃ p v, PhaseHas A first.name phases (i + 1 : ℕ) p v ∧ A.lt v A.dblMax) ∨
        ∃ v, IsLeastOf A (PhaseHas A first.name phases (i + 1 : ℕ)) 0 v := by
  obtain ⟨normalized, hget, hentries⟩ := @bestConfigsStored_entries V A phases n first rest h
  rw [hentries]
  exact forall₂_congr fun i hi => isStoredFor_iff h hget (i + 1)

section Instances

/-- A phase of the first cluster that has run one instruction. -/
def measuredPhase (energy : ℚ) (rtsInfo : List (RtsInfo ℚ)) : PhaseInfo ℚ :=
  { plainPhase 0 with
    clusterID := 1
    phaseIdentifiers := .ofList [("TotalInstr", 1)]
    objValues := .ofList [("Energy", energy)]
    rtsInfo }

def measuredRts (callpath : String) (energy : ℚ) : RtsInfo ℚ :=
  { RtsInfo.new ℚ with
    callpath
    phaseIdentifiers := .ofList [("TotalInstr", 1)]
    objValues := .ofList [("Energy", energy)] }

/-- The only phase of a cluster is as expensive as a number can say. -/
def hugePhases : Phases ℚ := .ofList [(1, measuredPhase ratDoubles.dblMax [])]

/-- Two phases, in the second of which the rts has not run. -/
def twoPhases : Phases ℚ :=
  .ofList [(1, measuredPhase 5 [measuredRts "/main/solve" 3]),
    (2, measuredPhase 4 [measuredRts "/main/solve" 0])]

theorem isMeasured_of_entries {phases : Phases ℚ}
    (h : ∀ e ∈ phases.entries, ∃ (energy : ℚ) (rtsEnergies : List (String × ℚ)),
      e.2 = measuredPhase energy (rtsEnergies.map fun r : String × ℚ => measuredRts r.1 r.2)) :
    IsMeasured energyObjective.name phases 1 where
  bound := by decide
  ids p x hx := by
    obtain ⟨energy, rtsEnergies, rfl⟩ := h _ (OrdMap.get?_eq_some.mp hx)
    exact .inr ⟨le_rfl, le_rfl⟩
  measured p x hx := by
    obtain ⟨energy, rtsEnergies, rfl⟩ := h _ (OrdMap.get?_eq_some.mp hx)
    exact ⟨rfl, ⟨1, rfl⟩, energy, rfl⟩
  rts p x hx r hr := by
    obtain ⟨energy, rtsEnergies, rfl⟩ := h _ (OrdMap.get?_eq_some.mp hx)
    obtain ⟨entry, -, rfl⟩ := List.mem_map.mp hr
    exact ⟨rfl, ⟨1, rfl⟩, entry.2, rfl⟩

theorem isMeasured_hugePhases : IsMeasured energyObjective.name hugePhases 1 :=
  isMeasured_of_entries fun e he => ⟨ratDoubles.dblMax, [], by
    rw [List.mem_singleton.mp (show e ∈ [_] from he)]
    rfl⟩

/-- No objective is below the largest number, so phase zero stays, which is not there. -/
theorem not_bestConfigsStored : IsMeasured energyObjective.name hugePhases 1 ∧
    ¬ BestConfigsStored ratDoubles energyObjective.name hugePhases [energyObjective] 1 := by
  refine ⟨isMeasured_hugePhases, fun hstored => ?_⟩
  obtain ⟨normalized, hget, hentries⟩ := @bestConfigsStored_entries ℚ ratDoubles hugePhases 1
    energyObjective [] isMeasured_hugePhases
  have hfirst := (isStoredFor_iff isMeasured_hugePhases hget 1).mp
    (hentries.mp hstored 0 Nat.one_pos)
  have hvalue : ∀ p v, PhaseHas ratDoubles energyObjective.name hugePhases 1 p v →
      p = 1 ∧ v = ratDoubles.dblMax := by
    rintro p v ⟨x, hx, -, totIns, o, htot, ho, rfl⟩
    obtain ⟨rfl, rfl⟩ := Prod.mk.inj (List.mem_singleton.mp (OrdMap.get?_eq_some.mp hx))
    rw [← Option.some.inj htot, ← Option.some.inj ho]
    exact ⟨rfl, div_one _⟩
  rcases hfirst with ⟨p, v, hv, hless⟩ | ⟨v, hv, -⟩
  · rw [(hvalue p v hv).2, ratDoubles.lt_irrefl] at hless
    exact absurd hless Bool.false_ne_true
  · exact absurd (hvalue 0 v hv).1 (by decide)

theorem bestConfigsStored_twoPhases : IsMeasured energyObjective.name twoPhases 1 ∧
    (BestConfigsStored ratDoubles energyObjective.name twoPhases [energyObjective] 1 ↔
      ∀ i < 1, (∃ p v, PhaseHas ratDoubles energyObjective.name twoPhases (i + 1 : ℕ) p v ∧
          ratDoubles.lt v ratDoubles.dblMax) ∨
        ∃ v, IsLeastOf ratDoubles
          (PhaseHas ratDoubles energyObjective.name twoPhases (i + 1 : ℕ)) 0 v) := by
  have hmeasured : IsMeasured energyObjective.name twoPhases 1 := by
    apply isMeasured_of_entries
    intro e he
    rcases List.mem_pair.mp (show e ∈ [_, _] from he) with rfl | rfl
    · exact ⟨5, [("/main/solve", 3)], rfl⟩
    · exact ⟨4, [("/main/solve", 0)], rfl⟩
  exact ⟨hmeasured,
    bestConfigsStored_iff ratDoubles energyObjective [] twoPhases 1 hmeasured⟩

end Instances

end ReadexPtf.Interphase
