import ReadexPtf.Interphase.Configurations
import ReadexPtf.Lib.Strings
import Mathlib

/-! The three tuning steps of the interphase plugin: the phases of the first step are
analysed, and the later steps add their measurements to the same records. -/
namespace ReadexPtf.Interphase
variable {V : Type}

section Analysis
variable (A : Doubles V)

/-- A loop over `dtaPhases` that changes one record after the other. -/
def updateAll (f : PhaseInfo V → Outcome (PhaseInfo V)) (phases : Phases V) : Outcome (Phases V) :=
  phases.keys.foldlM (fun phases p => do
    let x ← Outcome.found (phases.get? p)
    let x ← f x
    return phases.set p x) phases

def calcComputeIntensity (phases : Phases V) : Outcome (Phases V) :=
  updateAll (fun i => do
    let totalInstr ← Outcome.found (i.phaseIdentifiers.get? "TotalInstr")
    let l3Misses ← Outcome.found (i.phaseIdentifiers.get? "L3Misses")
    return { i with phaseIdentifiers :=
      i.phaseIdentifiers.insertNew "ComputeIntensity" (A.div totalInstr l3Misses) }) phases

/-- The two features of a phase: its intensity and its branches for each instruction. -/
def rawFeatures (i : PhaseInfo V) : Outcome (V × V) := do
  let comp ← Outcome.found (i.phaseIdentifiers.get? "ComputeIntensity")
  let branchInstr ← Outcome.found (i.phaseIdentifiers.get? "BranchInstr")
  let totalInstr ← Outcome.found (i.phaseIdentifiers.get? "TotalInstr")
  return (comp, A.div branchInstr totalInstr)

/-- The least and the largest value so far. -/
def widen (range : V × V) (v : V) : V × V :=
  (if A.lt v range.1 then v else range.1, if A.lt range.2 v then v else range.2)

def normalizeIdentifiers (phases : Phases V) : Outcome (Phases V) := do
  let (comp, br) ← phases.entries.foldlM (fun s p1 => do
    let features ← rawFeatures A p1.2
    return (widen A s.1 features.1, widen A s.2 features.2))
    ((A.dblMax, A.zero), (A.dblMax, A.zero))
  updateAll (fun i => do
    let features ← rawFeatures A i
    return { i with
      normalizedFeatures := (A.div (A.sub features.1 comp.1) (A.sub comp.2 comp.1),
        A.div (A.sub features.2 br.1) (A.sub br.2 br.1))
      phaseIdentifiers := i.phaseIdentifiers.insertNew "BranchInstructions" features.2 }) phases

/-- The objectives for each instruction; those of a normalized kind are taken as they are. -/
def normalizedObjectives (totIns : V) (objValues : OrdMap String V) (normalizedObj : OrdMap String V) :
    OrdMap String V :=
  insertEntries normalizedObj (objValues.entries.map fun obj =>
    (obj.1, if (findFrom "Normalized".toList obj.1.toList 0).isNone then A.div obj.2 totIns else obj.2))

def normalizeObjectives (phases : Phases V) : Outcome (Phases V) :=
  updateAll (fun i => do
    let totIns ← Outcome.found (i.phaseIdentifiers.get? "TotalInstr")
    let rtsInfo ← i.rtsInfo.mapM fun rtsInf => do
      let totIns ← Outcome.found (rtsInf.phaseIdentifiers.get? "TotalInstr")
      return { rtsInf with
        normalizedObj := normalizedObjectives A totIns rtsInf.objValues rtsInf.normalizedObj }
    return { i with
      normalizedObj := normalizedObjectives A totIns i.objValues i.normalizedObj
      rtsInfo }) phases

/-- The orders that `std::sort` leaves open, and the rounds for which loops are followed. -/
structure Environment (V : Type) where
  distances : Traversal V
  neighbors : Traversal (ℕ × V)
  rounds : ℕ

/-- `cluster()`: the phases with their clusters and the number of these. -/
def cluster (env : Environment V) (phases : Phases V) : Outcome (ℕ × Phases V) := do
  let (dist, kNeighDist) ← calcDistanceMatrix A env.distances phases
  let (next, phases) ← clusterPhases A env.rounds env.neighbors kNeighDist dist phases
  return ((next - 1).toNat, phases)

end Analysis

section Run
variable (A : Doubles V)

/-- The plugin's settings and what each scenario, by its id, is measured with. -/
structure Plugin (V : Type) where
  env : Environment V
  insertion : InsertSetting V
  tuning : TuningSetting
  experiment : ℕ → Results V

/-- The insertion for the scenarios of a tuning step, whose ids start with `first`. -/
def insertAll (plugin : Plugin V) (tuningStep first count : ℕ) (phases : Phases V) :
    Outcome (Phases V) :=
  (List.range count).foldlM (fun phases i =>
    insertPhaseData A plugin.insertion (plugin.experiment (first + i)) tuningStep (first + i : ℕ)
      phases) phases

/-- The iteration that a property reports. -/
def iterOf (p : MetaProperty V) : Outcome ℕ := do
  let iter ← retVal A p.extraInfo "PhaseIter"
  A.toUnsigned iter

/-- The scenario has run in this phase iteration. -/
structure RanIn (results : Results V) (iter : ℕ) : Prop where
  reported : ∃ p ∈ results.srp, p.isRtsBased
  phase : ∀ p ∈ results.srp, p.isRtsBased → iterOf A p = .ok iter
  rts : ∀ callPath, ∀ p ∈ results.arp callPath, p.isRtsBased → iterOf A p = .ok iter

end Run

section Iterations
variable {A : Doubles V}

theorem getMeasurements_iter {iter : ℕ} (properties : List (MetaProperty V))
    (h : ∀ p ∈ properties, p.isRtsBased → iterOf A p = .ok iter) {ident ident' : List V}
    {start last : Option ℕ}
    (hrun : getMeasurements A properties ident tags start = .ok (ident', last)) :
    last = some iter ∨ last = start ∧ ∀ p ∈ properties, ¬ p.isRtsBased := by
  induction properties generalizing ident start with
  | nil =>
    rw [getMeasurements, List.foldlM_nil, Outcome.pure_eq, Outcome.ok.injEq] at hrun
    exact .inr ⟨(Prod.mk.inj hrun).2.symm, by simp⟩
  | cons p properties ih =>
    obtain ⟨hp, hrest⟩ := List.forall_mem_cons.mp h
    rw [getMeasurements, List.foldlM_cons, Outcome.bind_eq_ok] at hrun
    obtain ⟨s, hstep, hrun⟩ := hrun
    cases hrts : p.isRtsBased with
    | true =>
      simp only [hrts, if_true] at hstep
      obtain ⟨v, hv, hstep⟩ := Outcome.bind_eq_ok.mp hstep
      obtain ⟨it, hit, hstep⟩ := Outcome.bind_eq_ok.mp hstep
      obtain ⟨ident₁, -, hs⟩ := Outcome.bind_eq_ok.mp hstep
      have hreported := hp hrts
      rw [iterOf] at hreported
      have hsame : (retVal A p.extraInfo "PhaseIter" >>= A.toUnsigned) = .ok it :=
        Outcome.bind_eq_ok.mpr ⟨v, hv, hit⟩
      have heq : it = iter := Outcome.ok.inj (hsame.symm.trans hreported)
      have hs' : s = (ident₁, some it) := (Outcome.ok.inj hs).symm
      rw [hs'] at hrun
      left
      cases ih hrest hrun with
      | inl hlast => exact hlast
      | inr hlast => rw [hlast.1, heq]
    | false =>
      simp only [hrts, Bool.false_eq_true, if_false, Outcome.pure_eq, Outcome.ok.injEq] at hstep
      rw [← hstep] at hrun
      cases ih hrest hrun with
      | inl hlast => exact .inl hlast
      | inr hlast =>
        refine .inr ⟨hlast.1, ?_⟩
        rw [List.forall_mem_cons]
        exact ⟨by simp [hrts], hlast.2⟩

theorem RanIn.srp_iter {results : Results V} {iter : ℕ} (h : RanIn A results iter)
    {ident ident' : List V} {start last : Option ℕ}
    (hrun : getMeasurements A results.srp ident tags start = .ok (ident', last)) :
    last = some iter := by
  cases getMeasurements_iter results.srp h.phase hrun with
  | inl hlast => exact hlast
  | inr hnone =>
    obtain ⟨p, hp, hrts⟩ := h.reported
    exact absurd hrts (hnone.2 p hp)

theorem RanIn.newRtsInfo_iter {setting : InsertSetting V} {results : Results V} {iter : ℕ}
    (h : RanIn A results iter) {s : List (RtsInfo V) × Option ℕ}
    (hrun : newRtsInfo A setting results (some iter) = .ok s) : s.2 = some iter := by
  rw [newRtsInfo] at hrun
  refine Outcome.foldlM_invariant (fun s : List (RtsInfo V) × Option ℕ => s.2 = some iter) ?_
    _ _ s rfl hrun
  intro s callPath s' hs hstep
  split_ifs at hstep with hempty
  · exact Outcome.ok.inj hstep ▸ hs
  · obtain ⟨⟨ident, last⟩, hmeasure, hret⟩ := Outcome.bind_eq_ok.mp hstep
    rw [hs] at hmeasure
    rw [← Outcome.ok.inj hret]
    cases getMeasurements_iter _ (h.rts callPath) hmeasure with
    | inl hlast => exact hlast
    | inr hlast => exact hlast.1

/-- A record as the first step makes it, for the scenario with this id. -/
theorem RanIn.newPhase {setting : InsertSetting V} {results : Results V} {iter : ℕ}
    (h : RanIn A results iter) {scenarioId : ℤ} {e : ℕ × PhaseInfo V}
    (hrun : newPhase A setting results scenarioId = .ok e) :
    e.1 = iter ∧ e.2.scenarioID = scenarioId ∧ e.2.defaultPhaseIdentifiers = .empty := by
  rw [Interphase.newPhase] at hrun
  obtain ⟨⟨ident, last⟩, hmeasure, hrun⟩ := Outcome.bind_eq_ok.mp hrun
  obtain ⟨⟨rtsInfo, last'⟩, hrts, hrun⟩ := Outcome.bind_eq_ok.mp hrun
  obtain ⟨found, hfound, hret⟩ := Outcome.bind_eq_ok.mp hrun
  simp only [h.srp_iter hmeasure] at hrts
  have hlast := h.newRtsInfo_iter hrts
  simp only at hlast
  rw [hlast] at hfound
  rw [← Outcome.ok.inj hret]
  exact ⟨(Outcome.ok.inj hfound).symm, rfl, rfl⟩

end Iterations

section FirstStep
variable {A : Doubles V} {plugin : Plugin V} {base n : ℕ}

/-- Iterations that are counted on get phases of their own. -/
theorem minus_injective {i j : ℕ} (hi : base + i < 4294967296) (hj : base + j < 4294967296)
    (h : minus (base + i) 1 = minus (base + j) 1) : i = j := by
  simp only [minus] at h
  omega

/-- A reported iteration is an `unsigned int`. -/
theorem RanIn.lt {results : Results V} {iter : ℕ} (h : RanIn A results iter) :
    iter < 4294967296 := by
  obtain ⟨p, hp, hrts⟩ := h.reported
  have hiter := h.phase p hp hrts
  obtain ⟨v, -, hv⟩ := Outcome.bind_eq_ok.mp hiter
  rw [Doubles.toUnsigned] at hv
  cases hz : A.toInt v with
  | none => simp [hz] at hv
  | some z =>
    simp only [hz] at hv
    split_ifs at hv with hrange
    have hval := Outcome.ok.inj hv
    omega

/-- The records after some scenarios of the first step. -/
structure FirstRecords (base count : ℕ) (phases : Phases V) : Prop where
  record : ∀ i < count, ∃ x, phases.get? (minus (base + i) 1) = some x ∧ x.scenarioID = i ∧
    x.defaultPhaseIdentifiers = .empty
  keys : ∀ p ∈ phases.keys, ∃ i < count, p = minus (base + i) 1

theorem FirstRecords.insert {i : ℕ} {phases phases' : Phases V} (h : FirstRecords base i phases)
    (hran : ∀ j ≤ i, RanIn A (plugin.experiment j) (base + j))
    (hrun : insertPhaseData A plugin.insertion (plugin.experiment i) 1 (i : ℕ) phases = .ok phases') :
    FirstRecords base (i + 1) phases' := by
  rw [insertPhaseData, if_pos rfl] at hrun
  obtain ⟨⟨iter, x⟩, hnew, hret⟩ := Outcome.bind_eq_ok.mp hrun
  obtain ⟨hiter, hid, hdefault⟩ := (hran i le_rfl).newPhase hnew
  simp only at hiter hid hdefault
  have hphases : phases' = phases.insertNew (minus (base + i) 1) x := by
    rw [← Outcome.ok.inj hret, hiter]
    rfl
  have hfresh : phases.get? (minus (base + i) 1) = none := by
    by_contra hsome
    obtain ⟨y, hy⟩ := Option.ne_none_iff_exists'.mp hsome
    obtain ⟨j, hj, hsame⟩ := h.keys _ (OrdMap.mem_keys.mpr ⟨y, hy⟩)
    have hij := minus_injective (hran i le_rfl).lt (hran j hj.le).lt hsame
    omega
  rw [hphases]
  constructor
  · intro j hj
    rw [OrdMap.get?_insertNew]
    by_cases hlast : j = i
    · rw [hlast, hfresh, if_pos rfl, Option.none_or]
      exact ⟨x, rfl, by rw [hid], hdefault⟩
    · obtain ⟨y, hy, hrecord⟩ := h.record j (by omega)
      rw [hy, Option.some_or]
      exact ⟨y, rfl, hrecord⟩
  · intro p hp
    by_cases hnew : p = minus (base + i) 1
    · exact ⟨i, by omega, hnew⟩
    · obtain ⟨y, hy⟩ := OrdMap.mem_keys.mp hp
      rw [OrdMap.get?_insertNew, if_neg hnew, Option.or_none] at hy
      obtain ⟨j, hj, hsame⟩ := h.keys p (OrdMap.mem_keys.mpr ⟨y, hy⟩)
      exact ⟨j, by omega, hsame⟩

end FirstStep

section Analysed
variable {A : Doubles V}

/-- What the analysis leaves as it is. -/
def identity (x : PhaseInfo V) : ℤ × OrdMap String V := (x.scenarioID, x.defaultPhaseIdentifiers)

/-- The same phases, each with its scenario and its default data. -/
def SameIdentity (phases phases' : Phases V) : Prop :=
  ∀ p, (phases'.get? p).map identity = (phases.get? p).map identity

theorem SameIdentity.set {phases phases' : Phases V} (h : SameIdentity phases phases') {p : ℕ}
    {x x' : PhaseInfo V} (hx : phases'.get? p = some x) (hx' : identity x' = identity x) :
    SameIdentity phases (phases'.set p x') := by
  intro q
  rw [OrdMap.get?_set, ← h q]
  split_ifs with hq
  · rw [hq, hx, Option.map_some, Option.map_some, hx']
  · rfl

theorem SameIdentity.trans {phases₁ phases₂ phases₃ : Phases V} (h : SameIdentity phases₁ phases₂)
    (h' : SameIdentity phases₂ phases₃) : SameIdentity phases₁ phases₃ :=
  fun p => (h' p).trans (h p)

end Analysed

section LaterSteps
variable {A : Doubles V} {plugin : Plugin V} {base n : ℕ}

/-- The records are those of the scenarios of the first step, one for each. -/
theorem FirstRecords.length {phases phases₁ : Phases V} (h : FirstRecords base n phases)
    (hsame : SameIdentity phases phases₁) (hsmall : ∀ i < n, base + i < 4294967296) :
    phases₁.entries.length = n := by
  have hnodup : ((List.range n).map fun i => minus (base + i) 1).Nodup := by
    apply List.Nodup.map_on _ List.nodup_range
    intro i hi j hj heq
    exact minus_injective (hsmall i (List.mem_range.mp hi)) (hsmall j (List.mem_range.mp hj)) heq
  have hthere : ∀ p, p ∈ phases₁.keys ↔ p ∈ phases.keys := by
    intro p
    have hp := hsame p
    rw [OrdMap.mem_keys, OrdMap.mem_keys]
    cases h₁ : phases₁.get? p <;> cases h₀ : phases.get? p <;> simp_all
  have hperm : phases₁.keys.Perm ((List.range n).map fun i => minus (base + i) 1) := by
    rw [List.perm_ext_iff_of_nodup phases₁.keys_nodup hnodup]
    intro p
    rw [hthere, List.mem_map]
    constructor
    · intro hp
      obtain ⟨i, hi, hpi⟩ := h.keys p hp
      exact ⟨i, List.mem_range.mpr hi, hpi.symm⟩
    · rintro ⟨i, hi, rfl⟩
      obtain ⟨x, hx, -⟩ := h.record i (List.mem_range.mp hi)
      exact OrdMap.mem_keys.mpr ⟨x, hx⟩
  have hlength := hperm.length_eq
  simpa [OrdMap.keys] using hlength

end LaterSteps

section Line

end Line
end ReadexPtf.Interphase
