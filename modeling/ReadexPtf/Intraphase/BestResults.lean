import ReadexPtf.Intraphase.Results
import Mathlib

/-! What a run of the intraphase plugin leaves at the nodes of the call tree: the result of the
phase at the root, and at the rts's the scenario that the scan found. -/
namespace ReadexPtf.Intraphase
open Agents ScenarioResults
open Autotune (Scenario Variant)

section Best
variable {step : HardwareStep} {atof : String → ℚ} {r : ℕ}
open HardwareStep

/-- The best result of a node, if there is one. -/
def bestOf (results : Results) (a : ℕ) : Option (ℚ × Variant) :=
  ((results a).get? .rtsBest).map fun result =>
    (result.objectiveValue, result.tuningParameterValueMapping)

theorem bestOf_insertPluginResult (results : Results) (r a : ℕ) (config : ConfigType)
    (result : TuningResult) : bestOf (insertPluginResult results r config result) a =
      (bestOf results a).or (if a = r ∧ config = .rtsBest then
        some (result.objectiveValue, result.tuningParameterValueMapping) else none) := by
  rw [bestOf, insertPluginResult, bestOf]
  by_cases ha : a = r
  · subst ha
    rw [Function.update_self, OrdMap.get?_insertNew]
    cases (results a).get? .rtsBest with
    | some best => rfl
    | none =>
      by_cases hconfig : config = .rtsBest
      · simp [hconfig]
      · simp [hconfig, Ne.symm hconfig]
  · simp [ha]

/-- Rounds that each add a best result where there is none: the first one stays. -/
theorem foldlM_bestOf {ι : Type} {f : Results → ι → Outcome Results}
    {own : ι → ℕ → Option (ℚ × Variant)} (rounds : List ι) :
    (∀ results results', ∀ round ∈ rounds, f results round = .ok results' →
      ∀ a, bestOf results' a = (bestOf results a).or (own round a)) →
    ∀ {results results' : Results}, rounds.foldlM f results = .ok results' →
      ∀ a, bestOf results' a =
        (bestOf results a).or (rounds.findSome? fun round => own round a) := by
  induction rounds with
  | nil =>
    intro _ results results' h a
    rw [Outcome.ok.inj h, List.findSome?_nil, Option.or_none]
  | cons round rounds ih =>
    intro hstep results results' h a
    rw [List.foldlM_cons] at h
    obtain ⟨next, hnext, hrest⟩ := Outcome.bind_eq_ok.mp h
    rw [ih (fun s s' b hb => hstep s s' b (List.mem_cons_of_mem round hb)) hrest a,
      hstep _ _ round List.mem_cons_self hnext a, Option.or_assoc, List.findSome?_cons]
    congr 1
    cases own round a <;> rfl

theorem insertExtraInfo_returns_iff {properties : List (MetaProperty ℚ)} {sums : Sums}
    {extraInfo : OrdMap String ℚ} :
    (∃ res, insertExtraInfo atof properties sums extraInfo = .ok res) ↔
      ∀ p ∈ properties, Readable p := by
  obtain ⟨hruns, hstops⟩ := foldlM_addProperty atof properties sums
  rw [insertExtraInfo]
  by_cases h : ∀ p ∈ properties, Readable p
  · rw [hruns h]
    exact iff_of_true ⟨_, rfl⟩ h
  · rw [hstops h]
    exact iff_of_false (by simp) h

/-- What is inserted for a scenario that is finished. -/
def configurationAt (step : HardwareStep) (s : ℤ) : Variant :=
  match step.configurationOf s with
  | .ok configuration => configuration
  | _ => .empty

theorem configurationAt_eq {s : ℤ} {configuration : Variant}
    (h : step.configurationOf s = .ok configuration) : configurationAt step s = configuration := by
  rw [configurationAt, h]

theorem storeResult_returns_iff {results : Results} {round : ConfigType × ℤ × ℚ} :
    (∃ results', step.storeResult atof r results round = .ok results') ↔
      (step.tuningParameters = [] ∨ step.Finished round.2.1) ∧
        ∀ p ∈ step.propertiesOf round.2.1 r, Readable p := by
  rw [storeResult, Outcome.bind_returns_iff, ← configurationOf_returns_iff,
    ← @insertExtraInfo_returns_iff atof _ ⟨0, 0, 0, 0⟩ .empty]
  constructor
  · rintro ⟨configuration, hconfiguration, h⟩
    obtain ⟨res, hres, -⟩ := Outcome.bind_returns_iff.mp h
    exact ⟨⟨configuration, hconfiguration⟩, res, hres⟩
  · rintro ⟨⟨configuration, hconfiguration⟩, res, hres⟩
    exact ⟨configuration, hconfiguration, Outcome.bind_returns_iff.mpr ⟨res, hres, _, rfl⟩⟩

theorem bestOf_storeResult {results results' : Results} {round : ConfigType × ℤ × ℚ}
    (h : step.storeResult atof r results round = .ok results') (a : ℕ) :
    bestOf results' a = (bestOf results a).or (if a = r ∧ round.1 = .rtsBest then
      some (round.2.2, configurationAt step round.2.1) else none) := by
  obtain ⟨configuration, hconfiguration, h⟩ := Outcome.bind_eq_ok.mp h
  obtain ⟨⟨sums, extraInfo⟩, -, h⟩ := Outcome.bind_eq_ok.mp h
  rw [← Outcome.ok.inj h, bestOf_insertPluginResult, configurationAt_eq hconfiguration]

theorem storeRts_returns_iff {results : Results} :
    (∃ results', step.storeRts atof results r = .ok results') ↔
      (step.Determined r → ∀ round ∈ step.roundsOf r,
        (step.tuningParameters = [] ∨ step.Finished round.2.1) ∧
          ∀ p ∈ step.propertiesOf round.2.1 r, Readable p) := by
  rw [storeRts]
  by_cases hdetermined : step.Determined r
  · rw [if_pos hdetermined, forall_prop_of_true hdetermined]
    refine Outcome.foldlM_returns_iff (fun s round _ => ?_) _
    exact storeResult_returns_iff
  · rw [if_neg hdetermined]
    exact iff_of_true ⟨results, rfl⟩ fun h => absurd h hdetermined

theorem bestOf_storeRts {results results' : Results}
    (h : step.storeRts atof results r = .ok results') (a : ℕ) :
    bestOf results' a = (bestOf results a).or (if a = r ∧ step.Determined r then
      some ((step.scan r).optimum, configurationAt step (step.scan r).optScenario)
      else none) := by
  rw [storeRts] at h
  by_cases hdetermined : step.Determined r
  · rw [if_pos hdetermined] at h
    have hrounds := foldlM_bestOf (step.roundsOf r)
      (fun s s' round _ (hround : step.storeResult atof r s round = .ok s') =>
        bestOf_storeResult hround) h a
    rw [hrounds]
    by_cases ha : a = r
    · simp [roundsOf, ha, hdetermined]
    · simp [roundsOf, ha]
  · rw [if_neg hdetermined] at h
    rw [← Outcome.ok.inj h]
    simp [hdetermined]

theorem bestOf_storePhase {memory : ConfigType → Sums} {phase : ConfigType → PhaseResult}
    {configuration : ConfigType → Variant} {results results' : Results} {round : ConfigType × ℤ}
    (h : step.storePhase atof memory phase configuration results round = .ok results') (a : ℕ) :
    bestOf results' a = (bestOf results a).or
      (if a = step.calltreeRoot.address ∧ round.1 = .rtsBest then
        some ((phase round.1).objectiveValue, configuration round.1) else none) := by
  obtain ⟨properties, -, h⟩ := Outcome.bind_eq_ok.mp h
  obtain ⟨⟨sums, extraInfo⟩, -, h⟩ := Outcome.bind_eq_ok.mp h
  rw [← Outcome.ok.inj h, bestOf_insertPluginResult]

theorem storePhase_returns_iff {memory : ConfigType → Sums} {phase : ConfigType → PhaseResult}
    {configuration : ConfigType → Variant} {results : Results} {round : ConfigType × ℤ} :
    (∃ results', step.storePhase atof memory phase configuration results round = .ok results') ↔
      ∃ properties, step.srp.getScenarioResultsByID round.2 = .ok properties ∧
        ∀ p ∈ properties, Readable p := by
  rw [storePhase, Outcome.bind_returns_iff]
  refine exists_congr fun properties => and_congr_right fun _ => ?_
  rw [← @insertExtraInfo_returns_iff atof properties { memory round.1 with instances := 0 } .empty]
  constructor
  · intro h
    obtain ⟨res, hres, -⟩ := Outcome.bind_returns_iff.mp h
    exact ⟨res, hres⟩
  · rintro ⟨res, hres⟩
    exact Outcome.bind_returns_iff.mpr ⟨res, hres, _, rfl⟩

end Best

section Runs
variable {step : HardwareStep} {atof : String → ℚ} {memory : ConfigType → Sums} {r : ℕ}
open HardwareStep

theorem addResult_returns_iff {s : ℤ} : (∃ u, step.addResult s = .ok u) ↔
    (∃ properties, step.srp.getScenarioResultsByID s = .ok properties) ∧ step.Finished s := by
  rw [addResult, Outcome.bind_returns_iff]
  simp only [Outcome.bind_returns_iff, Outcome.found_eq_ok, Option.join_eq_some_iff]
  constructor
  · rintro ⟨properties, hproperties, scenario, hscenario, -⟩
    exact ⟨⟨properties, hproperties⟩, scenario, hscenario⟩
  · rintro ⟨⟨properties, hproperties⟩, scenario, hscenario⟩
    exact ⟨properties, hproperties, scenario, hscenario, (), rfl⟩

theorem keepPhase_returns_iff {kept : PhaseResult × PhaseResult} {s : ℤ} :
    (∃ kept', step.keepPhase kept s = .ok kept') ↔
      ∃ properties, step.srp.getScenarioResultsByID s = .ok properties := by
  rw [keepPhase, Outcome.bind_returns_iff]
  exact exists_congr fun properties => and_iff_left ⟨_, rfl⟩

theorem foldlM_keepPhase {properties : List (MetaProperty ℚ)}
    (hproperties : step.srp.getScenarioResultsByID step.optimumSc = .ok properties)
    (ids : List ℤ) : ∀ {kept kept' : PhaseResult × PhaseResult},
      ids.foldlM step.keepPhase kept = .ok kept' → kept'.1.objectiveValue =
        if step.optimumSc ∈ ids then step.objective.objective properties
        else kept.1.objectiveValue := by
  induction ids with
  | nil =>
    intro kept kept' h
    rw [Outcome.ok.inj h]
    rfl
  | cons s ids ih =>
    intro kept kept' h
    rw [List.foldlM_cons] at h
    obtain ⟨next, hnext, hrest⟩ := Outcome.bind_eq_ok.mp h
    obtain ⟨properties', hproperties', hkept⟩ := Outcome.bind_eq_ok.mp hnext
    rw [ih hrest, ← Outcome.ok.inj hkept]
    by_cases hs : s = step.optimumSc
    · rw [hs, hproperties] at hproperties'
      simp [hs, Outcome.ok.inj hproperties']
    · simp [hs, Ne.symm hs]

theorem storePhases_returns_iff {phase : ConfigType → PhaseResult}
    {configuration : ConfigType → Variant} {results : Results} :
    (∃ results', (phaseScenarios step.optimumSc step.worstSc).foldlM
        (step.storePhase atof memory phase configuration) results = .ok results') ↔
      ∀ s, s = step.optimumSc ∨ s = step.worstSc → ∃ properties,
        step.srp.getScenarioResultsByID s = .ok properties ∧ ∀ p ∈ properties, Readable p := by
  have hrounds : (∃ results', (phaseScenarios step.optimumSc step.worstSc).foldlM
        (step.storePhase atof memory phase configuration) results = .ok results') ↔
      ∀ round ∈ phaseScenarios step.optimumSc step.worstSc, ∃ properties,
        step.srp.getScenarioResultsByID round.2 = .ok properties ∧
          ∀ p ∈ properties, Readable p :=
    Outcome.foldlM_returns_iff
      (fun s round _ =>
        @storePhase_returns_iff step atof memory phase configuration s round) results
  rw [hrounds]
  simp only [phaseScenarios, List.forall_mem_cons, List.not_mem_nil, false_imp_iff, implies_true,
    and_true, or_imp, forall_and, forall_eq]
  exact ⟨fun h => ⟨h.1, h.2.1⟩, fun h => ⟨h.1, h.2, h.1⟩⟩

/-- What a rts needs, in terms of the scenarios. -/
theorem roundsOf_readable_iff
    (h : ∀ i < step.fsp.size, step.Finished (step.scenarioNoAtp + i))
    (hoptimum : step.Finished step.optimumSc) (r : ℕ) :
    (step.Determined r → ∀ round ∈ step.roundsOf r,
      (step.tuningParameters = [] ∨ step.Finished round.2.1) ∧
        ∀ p ∈ step.propertiesOf round.2.1 r, Readable p) ↔
      (step.Finished step.worstSc → step.objectiveOf step.worstSc r ≠ 0 →
        ∀ s, s = step.worstSc ∨ s = step.optimumSc ∨ step.FirstSmallest r s →
          ∀ p ∈ step.propertiesOf s r, Readable p) := by
  rw [determined_iff h hoptimum, and_imp]
  refine forall₂_congr fun hworst hne => ?_
  obtain ⟨-, hfirst, -⟩ := (scan_spec h r).resolve_left fun hzero => hne (hzero.2 _ hworst)
  simp only [roundsOf, List.forall_mem_cons, List.not_mem_nil, false_imp_iff, implies_true,
    and_true]
  constructor
  · rintro ⟨hw, ho, hf⟩ s (rfl | rfl | hs)
    · exact hw.2
    · exact ho.2
    · rw [hs.unique hfirst]
      exact hf.2
  · intro hread
    exact ⟨⟨.inr hworst, hread _ (.inl rfl)⟩, ⟨.inr hoptimum, hread _ (.inr (.inl rfl))⟩,
      .inr hfirst.finished, hread _ (.inr (.inr hfirst))⟩

theorem storeAll_returns_iff
    (h : ∀ i < step.fsp.size, step.Finished (step.scenarioNoAtp + i))
    (hoptimum : step.Finished step.optimumSc) {results : Results} :
    (∃ results', step.sigRts.foldlM (step.storeRts atof) results = .ok results') ↔
      ∀ r, step.Significant r → step.Finished step.worstSc → step.objectiveOf step.worstSc r ≠ 0 →
        ∀ s, s = step.worstSc ∨ s = step.optimumSc ∨ step.FirstSmallest r s →
          ∀ p ∈ step.propertiesOf s r, Readable p := by
  have hall : (∃ results', step.sigRts.foldlM (step.storeRts atof) results = .ok results') ↔
      ∀ r ∈ step.sigRts, step.Determined r → ∀ round ∈ step.roundsOf r,
        (step.tuningParameters = [] ∨ step.Finished round.2.1) ∧
          ∀ p ∈ step.propertiesOf round.2.1 r, Readable p :=
    Outcome.foldlM_returns_iff (fun s r _ => @storeRts_returns_iff step atof r s) results
  rw [hall]
  refine forall_congr' fun r => ?_
  rw [mem_sigRts, roundsOf_readable_iff h hoptimum]

theorem tuningFinished_returns_iff :
    (∃ results, step.tuningFinished atof memory = .ok results) ↔ step.Complete := by
  have hadd : (∃ u, step.scenarioIds.foldlM (fun _ s => step.addResult s) () = .ok u) ↔
      ∀ s ∈ step.scenarioIds, (∃ properties, step.srp.getScenarioResultsByID s = .ok properties) ∧
        step.Finished s :=
    Outcome.foldlM_returns_iff (fun _ s _ => @addResult_returns_iff step s) ()
  rw [tuningFinished]
  constructor
  · intro h
    obtain ⟨_, hloop, h⟩ := Outcome.bind_returns_iff.mp h
    obtain ⟨configuration, hconfiguration, h⟩ := Outcome.bind_returns_iff.mp h
    obtain ⟨worstConfiguration, hworst, h⟩ := Outcome.bind_returns_iff.mp h
    obtain ⟨phaseRts, hphase, h⟩ := Outcome.bind_returns_iff.mp h
    obtain ⟨bestScenario, hbest, h⟩ := Outcome.bind_returns_iff.mp h
    obtain ⟨⟨best, worst⟩, -, h⟩ := Outcome.bind_returns_iff.mp h
    obtain ⟨results, hresults, h⟩ := Outcome.bind_returns_iff.mp h
    have hids := hadd.mp ⟨_, hloop⟩
    have hmem : ∀ i < step.fsp.size, (step.scenarioNoAtp + i : ℤ) ∈ step.scenarioIds :=
      fun i hi => mem_scenarioIds.mpr ⟨i, hi, rfl⟩
    have hcontiguous : ∀ i < step.fsp.size, step.Finished (step.scenarioNoAtp + i) :=
      fun i hi => (hids _ (hmem i hi)).2
    have hoptimum : step.Finished step.optimumSc :=
      ⟨bestScenario, Option.join_eq_some_iff.mp (Outcome.found_eq_ok.mp hbest)⟩
    refine ⟨hcontiguous, fun i hi => (hids _ (hmem i hi)).1, hoptimum,
      configurationOf_returns_iff.mp ⟨_, hworst⟩, ⟨phaseRts, mem_validRtsOf.mp ?_⟩,
      storePhases_returns_iff.mp ⟨_, hresults⟩,
      (storeAll_returns_iff hcontiguous hoptimum).mp h⟩
    exact List.mem_of_mem_head? (Outcome.found_eq_ok.mp hphase)
  · intro h
    have hids : ∀ s ∈ step.scenarioIds,
        (∃ properties, step.srp.getScenarioResultsByID s = .ok properties) ∧ step.Finished s := by
      intro s hs
      obtain ⟨i, hi, rfl⟩ := mem_scenarioIds.mp hs
      exact ⟨h.measured i hi, h.contiguous i hi⟩
    obtain ⟨_, hloop⟩ := hadd.mpr hids
    obtain ⟨optimum, hoptimum⟩ := h.optimum
    obtain ⟨worstConfiguration, hworst⟩ := configurationOf_returns_iff.mpr h.worst
    obtain ⟨phaseRts, hphase⟩ := h.phase
    obtain ⟨first, hfirst⟩ : ∃ first, (step.validRtsOf step.phaseRegion).head? = some first :=
      Option.ne_none_iff_exists'.mp fun hnone =>
        List.ne_nil_of_mem (mem_validRtsOf.mpr hphase) (List.head?_eq_none_iff.mp hnone)
    obtain ⟨⟨best, worst⟩, hkept⟩ :=
      (Outcome.foldlM_returns_iff (fun kept s _ => @keepPhase_returns_iff step kept s)
        (⟨0, .empty⟩, ⟨0, .empty⟩)).mpr fun s hs => (hids s hs).1
    refine Outcome.bind_returns_iff.mpr ⟨_, hloop, ?_⟩
    refine Outcome.bind_returns_iff.mpr ⟨_, configurationOf_eq hoptimum, ?_⟩
    refine Outcome.bind_returns_iff.mpr ⟨_, hworst, ?_⟩
    refine Outcome.bind_returns_iff.mpr ⟨_, Outcome.found_eq_ok.mpr hfirst, ?_⟩
    refine Outcome.bind_returns_iff.mpr
      ⟨optimum, Outcome.found_eq_ok.mpr (Option.join_eq_some_iff.mpr hoptimum), ?_⟩
    refine Outcome.bind_returns_iff.mpr ⟨_, hkept, ?_⟩
    obtain ⟨results, hresults⟩ := storePhases_returns_iff.mpr h.phaseReadable
    refine Outcome.bind_returns_iff.mpr ⟨results, hresults, ?_⟩
    exact (storeAll_returns_iff h.contiguous h.optimum).mpr h.readable

theorem findSome?_self {α : Type} (own : ℕ → Option α) (rs : List ℕ) (a : ℕ) :
    (rs.findSome? fun r => if a = r then own r else none) = if a ∈ rs then own a else none := by
  induction rs with
  | nil => rfl
  | cons r rs ih =>
    rw [List.findSome?_cons]
    by_cases ha : a = r
    · subst ha
      rw [if_pos rfl, if_pos List.mem_cons_self]
      cases hown : own a with
      | some v => rfl
      | none =>
        rw [ih, hown]
        exact ite_self none
    · simp [ih, ha]

/-- What the run leaves for a valid rts of a significant region. -/
theorem bestOf_tuningFinished {results : Results} {properties : List (MetaProperty ℚ)}
    (h : step.tuningFinished atof memory = .ok results)
    (hproperties : step.srp.getScenarioResultsByID step.optimumSc = .ok properties)
    (hr : step.Significant r) :
    bestOf results r = if r = step.calltreeRoot.address then
        some (step.objective.objective properties, configurationAt step step.optimumSc)
      else if step.Determined r then
        some ((step.scan r).optimum, configurationAt step (step.scan r).optScenario)
      else none := by
  have hcomplete := tuningFinished_returns_iff.mp ⟨results, h⟩
  rw [tuningFinished] at h
  obtain ⟨_, -, h⟩ := Outcome.bind_eq_ok.mp h
  obtain ⟨configuration, hconfiguration, h⟩ := Outcome.bind_eq_ok.mp h
  obtain ⟨worstConfiguration, -, h⟩ := Outcome.bind_eq_ok.mp h
  obtain ⟨phaseRts, -, h⟩ := Outcome.bind_eq_ok.mp h
  obtain ⟨bestScenario, -, h⟩ := Outcome.bind_eq_ok.mp h
  obtain ⟨⟨best, worst⟩, hkept, h⟩ := Outcome.bind_eq_ok.mp h
  obtain ⟨phaseResults, hphase, h⟩ := Outcome.bind_eq_ok.mp h
  have hbest := foldlM_keepPhase hproperties step.scenarioIds hkept
  rw [if_pos ((finished_iff hcomplete.contiguous _).mp hcomplete.optimum)] at hbest
  have hroot := foldlM_bestOf _ (fun _ _ _ _ hround => bestOf_storePhase hround) hphase r
  have hrts := foldlM_bestOf _ (fun _ _ _ _ hround => bestOf_storeRts hround) h r
  simp only [ite_and] at hrts
  rw [findSome?_self, if_pos (mem_sigRts.mpr hr), hroot] at hrts
  rw [hrts, configurationAt_eq hconfiguration, ← hbest]
  by_cases haddress : r = step.calltreeRoot.address
  · simp [haddress, phaseScenarios, bestOf]
  · simp [haddress, phaseScenarios, bestOf]

/-- It is what the rts is given. -/
theorem bestOf_eq_some_iff {results : Results} {value : ℚ} {configuration : Variant}
    (h : step.tuningFinished atof memory = .ok results) (hr : step.Significant r)
    (hne : step.objectiveOf step.worstSc r ≠ 0) :
    bestOf results r = some (value, configuration) ↔ ∃ g given, step.Given r g value ∧
      step.fsp.get? g = some (some given) ∧ configuration = configurationFrom step given := by
  have hcomplete := tuningFinished_returns_iff.mp ⟨results, h⟩
  obtain ⟨properties, hproperties, -⟩ := hcomplete.phaseReadable _ (.inl rfl)
  rw [bestOf_tuningFinished h hproperties hr]
  by_cases hroot : r = step.calltreeRoot.address
  · obtain ⟨optimum, hoptimum⟩ := hcomplete.optimum
    rw [if_pos hroot, configurationAt_eq (configurationOf_eq hoptimum), Option.some.injEq,
      Prod.mk.injEq]
    constructor
    · rintro ⟨rfl, rfl⟩
      exact ⟨_, optimum, .phase properties hroot hproperties, hoptimum, rfl⟩
    · rintro ⟨g, given, hgiven, hfsp, rfl⟩
      cases hgiven with
      | phase properties' _ hproperties' =>
        rw [hoptimum, Option.some.injEq, Option.some.injEq] at hfsp
        exact ⟨by rw [Outcome.ok.inj (hproperties.symm.trans hproperties')], by rw [hfsp]⟩
      | rts _ hother => exact absurd hroot hother
  · rw [if_neg hroot]
    by_cases hworst : step.Finished step.worstSc
    · obtain ⟨-, hfirst, hoptimum⟩ := (scan_spec hcomplete.contiguous r).resolve_left fun hzero =>
        hne (hzero.2 _ hworst)
      obtain ⟨first, hfsp⟩ := hfirst.finished
      rw [if_pos ((determined_iff hcomplete.contiguous hcomplete.optimum r).mpr ⟨hworst, hne⟩),
        configurationAt_eq (configurationOf_eq hfsp), hoptimum, Option.some.injEq, Prod.mk.injEq]
      constructor
      · rintro ⟨rfl, rfl⟩
        exact ⟨_, first, .rts _ hroot hworst hfirst, hfsp, rfl⟩
      · rintro ⟨g, given, hgiven, hgfsp, rfl⟩
        cases hgiven with
        | phase _ hself => exact absurd hself hroot
        | rts _ _ _ hgfirst =>
          rw [hgfirst.unique hfirst] at hgfsp ⊢
          rw [hfsp, Option.some.injEq, Option.some.injEq] at hgfsp
          exact ⟨rfl, by rw [hgfsp]⟩
    · have hnot : ¬ step.Determined r := fun hdetermined =>
        hworst ((determined_iff hcomplete.contiguous hcomplete.optimum r).mp hdetermined).1
      rw [if_neg hnot]
      refine iff_of_false (by simp) ?_
      rintro ⟨g, given, hgiven, -⟩
      cases hgiven with
      | phase _ hself => exact hroot hself
      | rts _ _ hfinished => exact hworst hfinished

theorem bestRight_iff {results : Results} (h : step.tuningFinished atof memory = .ok results)
    (hr : step.Significant r) (hne : step.objectiveOf step.worstSc r ≠ 0) :
    step.BestRight r results ↔ step.GivenRight r := by
  constructor
  · rintro ⟨result, s, scenario, hresult, hs, hvalue, hsmallest, hparameters⟩
    have hbest : bestOf results r =
        some (result.objectiveValue, result.tuningParameterValueMapping) := by
      rw [bestOf, hresult, Option.map_some]
    obtain ⟨g, given, hgiven, hg, hconfiguration⟩ := (bestOf_eq_some_iff h hr hne).mp hbest
    rw [hconfiguration] at hparameters
    exact ⟨g, _, given, s, scenario, hgiven, hg, hs, hvalue, hsmallest,
      configurationFrom_right_iff.mp hparameters⟩
  · rintro ⟨g, value, given, s, scenario, hgiven, hg, hs, hvalue, hsmallest, hrecords⟩
    have hbest := (bestOf_eq_some_iff h hr hne).mpr ⟨g, given, hgiven, hg, rfl⟩
    obtain ⟨result, hresult, heq⟩ := Option.map_eq_some_iff.mp hbest
    obtain ⟨rfl, hconfiguration⟩ := Prod.mk.inj heq
    refine ⟨result, s, scenario, hresult, hs, hvalue, hsmallest, ?_⟩
    rw [hconfiguration]
    exact configurationFrom_right_iff.mpr hrecords

end Runs

/-- Every valid rts of a significant region gets its best result exactly where the step is
complete, and what each is given belongs to a scenario with its smallest objective. -/
theorem tuningFinished_bestRight_iff (step : HardwareStep) (atof : String → ℚ)
    (memory : ConfigType → Sums) :
    (∀ r, step.Significant r → step.objectiveOf step.worstSc r ≠ 0 → ∃ results,
        step.tuningFinished atof memory = .ok results ∧ step.BestRight r results) ↔
      ∀ r, step.Significant r → step.objectiveOf step.worstSc r ≠ 0 →
        step.Complete ∧ step.GivenRight r := by
  refine forall_congr' fun r => forall₂_congr fun hr hne => ?_
  constructor
  · rintro ⟨results, hrun, hbest⟩
    exact ⟨tuningFinished_returns_iff.mp ⟨results, hrun⟩, (bestRight_iff hrun hr hne).mp hbest⟩
  · rintro ⟨hcomplete, hgiven⟩
    obtain ⟨results, hrun⟩ := tuningFinished_returns_iff.mpr hcomplete
    exact ⟨results, hrun, (bestRight_iff hrun hr hne).mpr hgiven⟩

/-- A property of the energy of `solve` in scenario 0. -/
def solveProperty : MetaProperty ℚ :=
  { MetaProperty.emptyProp 0 with
    id := "131"
    severity := 5
    rtsBased := true
    callpath := "/main/solve"
    addInfo := .ofList [("ScenarioID", "0")] }

/-- One scenario with one parameter, and one rts below that of the phase. -/
def oneScenario (value : ℤ) : HardwareStep where
  scenarioNoAtp := 0
  fsp := OrdMap.empty.set 0 (some ⟨0, [⟨.ofList [(0, value)], .rtsList, []⟩]⟩)
  srp := ⟨.empty, OrdMap.empty.set 0 ⟨[]⟩⟩
  arp := [(0, solveProperty)]
  tuningParameters := [0]
  name := fun _ => "THREADS"
  objective := ⟨"Energy", fun properties => (properties.map MetaProperty.severity).sum⟩
  moreObjectives := []
  optimumSc := 0
  worstSc := 0
  calltreeRoot := .node 0 [.node 1 []]
  rts := fun a =>
    { regionName := if a = 0 then "main" else "solve"
      scorepId := a
      parentScorepId := 0
      rtsType := .regularRegion
      reg := some a
      parameter := []
      callpathstring := if a = 0 then "/main" else "/main/solve"
      isValidRts := true }
  phaseRegion := some 0
  sigRegions := [some 1]

theorem significant_oneScenario (value : ℤ) : (oneScenario value).Significant 1 :=
  ⟨some 1, List.mem_singleton_self _, .child 0 1 _ (.node 1 []) List.mem_cons_self (.root 1 []),
    rfl, rfl⟩

theorem scenario_oneScenario {value s : ℤ} {scenario : Scenario}
    (h : (oneScenario value).fsp.get? s = some (some scenario)) :
    parametersOf scenario = [(0, value)] := by
  rw [oneScenario, OrdMap.get?_set] at h
  by_cases hs : s = 0
  · rw [if_pos hs, Option.some.injEq, Option.some.injEq] at h
    rw [← h]
    rfl
  · rw [if_neg hs] at h
    cases h

/-- The parameter with the value -1 is left out. -/
theorem not_tuningFinished_bestRight :
    ¬ ∀ r, (oneScenario (-1)).Significant r →
      (oneScenario (-1)).objectiveOf (oneScenario (-1)).worstSc r ≠ 0 → ∃ results,
        (oneScenario (-1)).tuningFinished (fun text => atoi text) (fun _ => ⟨0, 0, 0, 0⟩) =
            .ok results ∧
          (oneScenario (-1)).BestRight r results := by
  intro h
  have hsig := significant_oneScenario (-1)
  have hne : (oneScenario (-1)).objectiveOf (oneScenario (-1)).worstSc 1 ≠ 0 := by decide +kernel
  obtain ⟨results, hrun, hbest⟩ := h 1 hsig hne
  obtain ⟨g, value, given, s, scenario, -, -, hs, -, -, hrecords⟩ :=
    (bestRight_iff hrun hsig hne).mp hbest
  have hmem : (0, -1) ∈ parametersOf scenario := by
    rw [scenario_oneScenario hs]
    exact List.mem_singleton_self _
  exact (hrecords.known _ hmem).2 rfl

end ReadexPtf.Intraphase
