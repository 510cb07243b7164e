import ReadexPtf.Agents.RequestConflicts
import Mathlib

/-! Bursts: the data provider starts its requests over again until a counter is down, and counts
experiments, of which one measurement of all requests may need several. -/
namespace ReadexPtf.Agents
open ReadexPtf

inductive GatherInfo where
  | allInfoGathered
  | notAllInfoGathered
  deriving DecidableEq

/-- The data provider between experiments. -/
structure BurstProvider where
  provider : DataProvider
  measurementRequestsBackup : List Metric
  burstCounter : ℤ
  currentIteration : ℤ
  oldRequestsPending : Bool
  status : GatherInfo

/-- Groups of which a request is sent. -/
def Group.sent : Group → Bool
  | .papiCounter | .papiPower6Counter | .papiNehalemCounter | .enoptEnergyCounter | .hdeem
  | .timeMeasurement | .mpi | .energy => true
  | _ => false

/-- What an experiment has requested, whether that were the last requests of the list, and what
`getResults` answers after it. -/
structure Experiment where
  submitted : List Metric
  complete : Bool
  answer : GatherInfo

namespace BurstProvider

def setIterationBurstLength (state : BurstProvider) (length : ℤ) : BurstProvider :=
  { state with
    burstCounter := length
    measurementRequestsBackup := state.provider.measurementRequests }

section Models
variable (eventGroup : Metric → Group)

/-- The selected requests are sent to every process, and there is one at least. -/
def transferRequestsToProcesses (state : BurstProvider) :
    Outcome (List Metric × BurstProvider) := do
  let (selected, provider) ← transferMeasurementRequests eventGroup state.provider
  if selected.all fun request => (eventGroup request).sent then
    return (selected, { state with provider, status := .notAllInfoGathered })
  else .aborts

/-- After the data of all processes have been stored. -/
def getResults (state : BurstProvider) : GatherInfo × BurstProvider :=
  if state.status = .allInfoGathered then (.allInfoGathered, state)
  else
    let burstCounter :=
      if 0 < state.burstCounter then state.burstCounter - 1 else state.burstCounter
    let (gatherInfo, measurementRequests) : GatherInfo × List Metric :=
      if state.provider.measurementRequests ≠ [] then
        (.notAllInfoGathered, state.provider.measurementRequests)
      else if 0 < burstCounter then (.notAllInfoGathered, state.measurementRequestsBackup)
      else (.allInfoGathered, [])
    let state := { state with
      provider := { state.provider with measurementRequests }, burstCounter, status := gatherInfo }
    if gatherInfo = .allInfoGathered then
      (gatherInfo, { state with
        currentIteration := state.currentIteration + 1, oldRequestsPending := false })
    else if 0 < burstCounter then
      (gatherInfo, { state with currentIteration := state.currentIteration + 1 })
    else (gatherInfo, { state with oldRequestsPending := true })

def experiment (state : BurstProvider) : Outcome (Experiment × BurstProvider) := do
  let (submitted, state) ← state.transferRequestsToProcesses eventGroup
  let (answer, after) := state.getResults
  return (⟨submitted, state.provider.measurementRequests.isEmpty, answer⟩, after)

/-- Experiments up to the first after which everything is gathered. -/
inductive Gathers : BurstProvider → List Experiment → BurstProvider → Prop where
  | last {state final : BurstProvider} {record : Experiment}
      (hrun : state.experiment eventGroup = .ok (record, final))
      (hanswer : record.answer = .allInfoGathered) : Gathers state [record] final
  | more {state next final : BurstProvider} {record : Experiment} {history : List Experiment}
      (hrun : state.experiment eventGroup = .ok (record, next))
      (hanswer : record.answer = .notAllInfoGathered) (hlater : Gathers next history final) :
      Gathers state (record :: history) final

end Models

/-- Each request is collected `n` times, by `n` complete measurements and not before the last
experiment, and these are the iterations that are counted. -/
structure BurstMeasured (n : ℕ) (state : BurstProvider) (history : List Experiment)
    (final : BurstProvider) : Prop where
  collected : ∀ request ∈ state.provider.measurementRequests,
    history.countP (fun record => request ∈ record.submitted) = n
  complete : history.countP Experiment.complete = n
  not_before : ∀ i < history.length, (history.take i).countP Experiment.complete < n
  iterations : final.currentIteration =
    state.currentIteration + history.countP Experiment.complete

/-- The sets of the counters among some requests. -/
def papiSets (eventGroup : Metric → Group) (papiSet : Metric → ℤ) (requests : List Metric) :
    Finset ℤ :=
  ((requests.filter fun request => (eventGroup request).papi).map papiSet).toFinset

section Proofs
variable {eventGroup : Metric → Group} {state : BurstProvider}

theorem Group.supported_of_sent {group : Group} (h : group.sent) : group.supported := by
  cases group <;> first | rfl | cases h

theorem mem_papiSets {papiSet : Metric → ℤ} {requests : List Metric} {id : ℤ} :
    id ∈ papiSets eventGroup papiSet requests ↔
      ∃ request ∈ requests, (eventGroup request).papi ∧ papiSet request = id := by
  simp [papiSets, and_assoc]

theorem formRequestSet_papiSet {provider provider' : DataProvider} {selected : List Metric}
    (hrun : formRequestSet eventGroup provider = .ok (selected, provider')) :
    provider'.papiSet = provider.papiSet := by
  obtain ⟨sets, hsets, hresult⟩ := Outcome.bind_eq_ok.mp hrun
  have hstart : Distributed eventGroup provider ⟨provider.metric2papiset, .empty, [], -1, 0⟩ [] :=
    ⟨fun _ => rfl, rfl, fun _ => rfl, fun _ => le_rfl, rfl⟩
  have hall := distributed_all provider.measurementRequests [] _ _ hstart hsets
  cases hresult
  exact funext hall.numbers

/-- The requests of one set are submitted with all that are no counters, the others wait. -/
theorem transferMeasurementRequests_ok {provider : DataProvider}
    (hrequests : ∀ request ∈ provider.measurementRequests, (eventGroup request).supported) :
    ∃ submitted provider' id, transferMeasurementRequests eventGroup provider =
        .ok (submitted, provider') ∧ provider'.papiSet = provider.papiSet ∧
      (id ∈ papiSets eventGroup provider.papiSet provider.measurementRequests ∨
        papiSets eventGroup provider.papiSet provider.measurementRequests = ∅) ∧
      (∀ request, request ∈ submitted ↔ request ∈ provider.measurementRequests ∧
        ((eventGroup request).papi → provider.papiSet request = id)) ∧
      ∀ request, request ∈ provider'.measurementRequests ↔
        request ∈ provider.measurementRequests ∧ (eventGroup request).papi ∧
          provider.papiSet request ≠ id := by
  obtain ⟨unique, hunique⟩ : ∃ unique, unique =
      (provider.measurementRequests.insertionSort (· ≤ ·)).destutter (· ≠ ·) := ⟨_, rfl⟩
  rw [transferMeasurementRequests, ← hunique]
  rw [sort_unique] at hunique
  have hmem : ∀ request, request ∈ unique ↔ request ∈ provider.measurementRequests := by
    intro request
    rw [hunique, List.mem_dedup]
    exact (List.perm_insertionSort (· ≤ ·) provider.measurementRequests).mem_iff
  have hnodup : unique.Nodup := hunique ▸ List.nodup_dedup _
  have hsupported : ∀ request ∈ unique, (eventGroup request).supported :=
    fun request hrequest => hrequests request ((hmem request).mp hrequest)
  obtain ⟨id, provider', hlargest, hrun⟩ :=
    @formRequestSet_selects _ { provider with measurementRequests := unique } hsupported
  obtain ⟨submitted, provider'', hrun', hperm, -⟩ :=
    formRequestSet_conserves { provider with measurementRequests := unique } hsupported
  rw [hrun] at hrun'
  obtain ⟨rfl, rfl⟩ := Prod.mk.inj (Outcome.ok.inj hrun')
  have hsubmitted : ∀ request, request ∈ counters eventGroup
        { provider with measurementRequests := unique } id unique ++
          (unique.filter fun request => !(eventGroup request).papi) ↔
      request ∈ provider.measurementRequests ∧
        ((eventGroup request).papi → provider.papiSet request = id) := by
    intro request
    rw [List.mem_append, mem_counters, List.mem_filter, hmem]
    cases (eventGroup request).papi <;> simp [DataProvider.papiSet]
  refine ⟨_, provider', id, hrun, (formRequestSet_papiSet hrun).trans rfl, ?_, hsubmitted,
    fun request => ?_⟩
  · rw [or_iff_not_imp_right, ← ne_eq, ← Finset.nonempty_iff_ne_empty]
    rintro ⟨other, hother⟩
    obtain ⟨request, hrequest, hpapi, hother⟩ := mem_papiSets.mp hother
    have hcounter := mem_counters.mpr ⟨(hmem request).mpr hrequest, hpapi, hother⟩
    obtain ⟨counter, hcounter⟩ := List.exists_mem_of_length_pos
      ((List.length_pos_of_mem hcounter).trans_le (hlargest other))
    obtain ⟨hrequested, hpapi, hid⟩ := mem_counters.mp hcounter
    exact mem_papiSets.mpr ⟨counter, (hmem counter).mp hrequested, hpapi, hid⟩
  · have hdisjoint := (List.nodup_append'.mp (hperm.nodup_iff.mpr hnodup)).2.2
    have hall : request ∈ _ ∨ request ∈ provider'.measurementRequests ↔
        request ∈ provider.measurementRequests :=
      List.mem_append.symm.trans (hperm.mem_iff.trans (hmem request))
    rw [hsubmitted] at hall
    constructor
    · intro hwaits
      have hrequested := hall.mp (.inr hwaits)
      have hnot : ¬ ((eventGroup request).papi → provider.papiSet request = id) :=
        fun hsame => hdisjoint ((hsubmitted request).mpr ⟨hrequested, hsame⟩) hwaits
      exact ⟨hrequested, Classical.not_imp.mp hnot⟩
    · rintro ⟨hrequested, hpapi, hid⟩
      exact (hall.mpr hrequested).resolve_left fun hsubmits => hid (hsubmits.2 hpapi)

/-- What an experiment does with the requests that are left, as far as a burst depends on it. -/
structure Round (eventGroup : Metric → Group) (papiSet : Metric → ℤ)
    (before submitted after : List Metric) : Prop where
  submitted_or_left : ∀ request, request ∈ before ↔ request ∈ submitted ∨ request ∈ after
  not_both : ∀ request ∈ submitted, request ∉ after
  left : after = [] ↔ (papiSets eventGroup papiSet before).card ≤ 1
  fewer : (papiSets eventGroup papiSet after).card =
    (papiSets eventGroup papiSet before).card - 1

theorem transferRequestsToProcesses_ok
    (hsent : ∀ request ∈ state.provider.measurementRequests, (eventGroup request).sent) :
    ∃ submitted provider', state.transferRequestsToProcesses eventGroup =
        .ok (submitted, { state with
          provider := provider', status := .notAllInfoGathered }) ∧
      provider'.papiSet = state.provider.papiSet ∧
      Round eventGroup state.provider.papiSet state.provider.measurementRequests submitted
        provider'.measurementRequests := by
  obtain ⟨submitted, provider', id, hrun, hsets, hid, hsubmitted, hleft⟩ :=
    transferMeasurementRequests_ok fun request hrequest =>
      Group.supported_of_sent (hsent request hrequest)
  have hall : submitted.all fun request => (eventGroup request).sent := by
    rw [List.all_eq_true]
    exact fun request hrequest => hsent request ((hsubmitted request).mp hrequest).1
  have hremoved : papiSets eventGroup state.provider.papiSet provider'.measurementRequests =
      (papiSets eventGroup state.provider.papiSet state.provider.measurementRequests).erase id := by
    ext other
    rw [Finset.mem_erase, mem_papiSets, mem_papiSets]
    constructor
    · rintro ⟨request, hrequest, hpapi, rfl⟩
      obtain ⟨hrequested, -, hne⟩ := (hleft request).mp hrequest
      exact ⟨hne, request, hrequested, hpapi, rfl⟩
    · rintro ⟨hne, request, hrequested, hpapi, rfl⟩
      exact ⟨request, (hleft request).mpr ⟨hrequested, hpapi, hne⟩, hpapi, rfl⟩
  have hfewer : (papiSets eventGroup state.provider.papiSet
      provider'.measurementRequests).card =
        (papiSets eventGroup state.provider.papiSet
          state.provider.measurementRequests).card - 1 := by
    rw [hremoved]
    cases hid with
    | inl hmem => exact Finset.card_erase_of_mem hmem
    | inr hnone => rw [hnone, Finset.erase_empty, Finset.card_empty]
  refine ⟨submitted, provider', ?_, hsets, fun request => ?_, fun request hsubmits hleaves => ?_,
    ?_, hfewer⟩
  · rw [transferRequestsToProcesses, hrun, Outcome.ok_bind]
    simp only [hall, if_true]
    rfl
  · rw [hsubmitted, hleft]
    tauto
  · exact ((hleft request).mp hleaves).2.2
      (((hsubmitted request).mp hsubmits).2 ((hleft request).mp hleaves).2.1)
  · have hcard :
        (papiSets eventGroup state.provider.papiSet state.provider.measurementRequests).card ≤ 1 ↔
          papiSets eventGroup state.provider.papiSet provider'.measurementRequests = ∅ := by
      rw [← Finset.card_eq_zero, hfewer]
      omega
    rw [hcard, Finset.eq_empty_iff_forall_notMem, List.eq_nil_iff_forall_not_mem]
    constructor
    · intro hnone other hother
      obtain ⟨request, hrequest, -⟩ := mem_papiSets.mp hother
      exact hnone request hrequest
    · intro hnone request hrequest
      exact hnone _ (mem_papiSets.mpr ⟨request, hrequest, ((hleft request).mp hrequest).2.1, rfl⟩)

section Results
variable {b : ℕ}

theorem burstCounter_down {burstCounter : ℤ} (hcounter : burstCounter = b) :
    (if 0 < burstCounter then burstCounter - 1 else burstCounter) = (b - 1 : ℕ) := by
  split_ifs <;> omega

variable (hstatus : state.status = .notAllInfoGathered) (hcounter : state.burstCounter = b)
include hstatus hcounter

/-- Requests are left: the experiment is counted as an iteration if the counter is not down. -/
theorem getResults_of_left (hleft : state.provider.measurementRequests ≠ []) :
    ∃ oldRequestsPending, state.getResults = (.notAllInfoGathered, { state with
      burstCounter := (b - 1 : ℕ)
      currentIteration := state.currentIteration + if 2 ≤ b then 1 else 0
      oldRequestsPending }) := by
  rw [getResults, if_neg (by rw [hstatus]; decide)]
  simp only [burstCounter_down hcounter, if_pos hleft]
  by_cases hb : 2 ≤ b
  · refine ⟨state.oldRequestsPending, ?_⟩
    have hpositive : (0 : ℤ) < (b - 1 : ℕ) := by omega
    rw [if_neg (by decide), if_pos hpositive, if_pos hb, hstatus]
  · refine ⟨true, ?_⟩
    have hdown : ¬ (0 : ℤ) < (b - 1 : ℕ) := by omega
    rw [if_neg (by decide), if_neg hdown, if_neg hb, add_zero, hstatus]

/-- No request is left and the counter is not down: all requests come again. -/
theorem getResults_of_more (hnone : state.provider.measurementRequests = []) (hb : 2 ≤ b) :
    state.getResults = (.notAllInfoGathered, { state with
      provider := { state.provider with measurementRequests := state.measurementRequestsBackup }
      burstCounter := (b - 1 : ℕ)
      currentIteration := state.currentIteration + 1 }) := by
  have hpositive : (0 : ℤ) < (b - 1 : ℕ) := by omega
  rw [getResults, if_neg (by rw [hstatus]; decide)]
  simp only [burstCounter_down hcounter, if_neg (not_not.mpr hnone), if_pos hpositive]
  rw [if_neg (by decide), hstatus]

/-- No request is left and the counter is down. -/
theorem getResults_of_done (hnone : state.provider.measurementRequests = []) (hb : b < 2) :
    state.getResults = (.allInfoGathered, { state with
      burstCounter := 0
      currentIteration := state.currentIteration + 1
      oldRequestsPending := false
      status := .allInfoGathered }) := by
  have hdown : b - 1 = 0 := by omega
  rw [getResults, if_neg (by rw [hstatus]; decide)]
  simp only [burstCounter_down hcounter, if_neg (not_not.mpr hnone), hdown, Nat.cast_zero,
    if_neg (lt_irrefl (0 : ℤ)), if_true]
  rw [← hnone]

end Results

/-- A burst while it goes on: the counter, and requests of the list. -/
structure InBurst (papiSet : Metric → ℤ) (requests : List Metric) (state : BurstProvider) (b : ℕ) :
    Prop where
  sets : state.provider.papiSet = papiSet
  backup : state.measurementRequestsBackup = requests
  subset : state.provider.measurementRequests ⊆ requests
  counter : state.burstCounter = b

/-- Experiments that one measurement of some requests needs. -/
def roundsOf (eventGroup : Metric → Group) (papiSet : Metric → ℤ) (requests : List Metric) : ℕ :=
  max 1 (papiSets eventGroup papiSet requests).card

theorem ceilDiv_eq_add {k b : ℕ} (hk : 0 < k) (hb : 0 < b) :
    b ⌈/⌉ k = 1 + (b - k) ⌈/⌉ k := by
  refine eq_of_forall_ge_iff fun c => ?_
  rw [ceilDiv_le_iff_le_mul hk]
  cases c with
  | zero => omega
  | succ c =>
    have hless : 1 + (b - k) ⌈/⌉ k ≤ c + 1 ↔ (b - k) ⌈/⌉ k ≤ c := by omega
    rw [hless, ceilDiv_le_iff_le_mul hk, mul_add_one]
    omega

/-- Rounds of more than one experiment are less than the experiments. -/
theorem ceilDiv_eq_self_iff {k n : ℕ} (hk : 0 < k) (hn : 0 < n) :
    n ⌈/⌉ k = n ↔ n = 1 ∨ k = 1 := by
  constructor
  · intro h
    by_contra hboth
    rw [not_or] at hboth
    have hle : n ⌈/⌉ k ≤ n - 1 := by
      rw [ceilDiv_le_iff_le_mul hk]
      calc
        n ≤ 2 * (n - 1) := by omega
        _ ≤ k * (n - 1) := Nat.mul_le_mul_right _ (by omega)
    omega
  · rintro (rfl | rfl)
    · rw [ceilDiv_eq_add hk one_pos, Nat.sub_eq_zero_of_le (by omega : 1 ≤ k), zero_ceilDiv,
        add_zero]
    · exact ceilDiv_one n

/-- What has been measured when a burst ends: the requests that were left, and all as often as
a measurement begins before the counter is down. -/
structure Covers (eventGroup : Metric → Group) (papiSet : Metric → ℤ) (requests : List Metric)
    (b : ℕ) (state : BurstProvider) (history : List Experiment) (final : BurstProvider) :
    Prop where
  complete : history.countP Experiment.complete =
    1 + (b - roundsOf eventGroup papiSet state.provider.measurementRequests) ⌈/⌉
      roundsOf eventGroup papiSet requests
  collected : ∀ request ∈ requests,
    history.countP (fun record => request ∈ record.submitted) =
      (if request ∈ state.provider.measurementRequests then 1 else 0) +
        (b - roundsOf eventGroup papiSet state.provider.measurementRequests) ⌈/⌉
          roundsOf eventGroup papiSet requests
  iterations : final.currentIteration = state.currentIteration + (max b 1 : ℕ)

theorem one_le_roundsOf (eventGroup : Metric → Group) (papiSet : Metric → ℤ)
    (requests : List Metric) : 1 ≤ roundsOf eventGroup papiSet requests := le_max_left _ _

section Steps
variable {papiSet : Metric → ℤ} {requests submitted : List Metric} {b : ℕ}
  {next final : BurstProvider} {history : List Experiment} {answer : GatherInfo}

/-- The last requests are submitted and the counter is down. -/
theorem Covers.done {after : List Metric} (hb : b < 2)
    (hround : Round eventGroup papiSet state.provider.measurementRequests submitted after)
    (hnone : after = []) (hiteration : final.currentIteration = state.currentIteration + 1) :
    Covers eventGroup papiSet requests b state [⟨submitted, after.isEmpty, answer⟩] final := by
  have hzero : b - roundsOf eventGroup papiSet state.provider.measurementRequests = 0 := by
    have hone := one_le_roundsOf eventGroup papiSet state.provider.measurementRequests
    omega
  refine ⟨?_, fun request _ => ?_, ?_⟩
  · rw [hzero, zero_ceilDiv, hnone]
    rfl
  · have hsubmits := hround.submitted_or_left request
    rw [hnone] at hsubmits
    rw [hzero, zero_ceilDiv, List.countP_singleton]
    simp [hsubmits]
  · rw [hiteration, max_eq_right (by omega)]
    rfl

/-- The last requests are submitted, and all requests come again. -/
theorem Covers.more {after : List Metric} (hb : 2 ≤ b)
    (hround : Round eventGroup papiSet state.provider.measurementRequests submitted after)
    (hnone : after = []) (hnext : next.provider.measurementRequests = requests)
    (hiteration : next.currentIteration = state.currentIteration + 1)
    (h : Covers eventGroup papiSet requests (b - 1) next history final) :
    Covers eventGroup papiSet requests b state
      (⟨submitted, after.isEmpty, answer⟩ :: history) final := by
  have hone : roundsOf eventGroup papiSet state.provider.measurementRequests = 1 :=
    max_eq_left (hround.left.mp hnone)
  have hagain := ceilDiv_eq_add (one_le_roundsOf eventGroup papiSet requests)
    (by omega : 0 < b - 1)
  refine ⟨?_, fun request hrequest => ?_, ?_⟩
  · rw [List.countP_cons, h.complete, hnext, hone, hagain, hnone]
    simp only [List.isEmpty_nil, if_true]
    omega
  · have hsubmits := hround.submitted_or_left request
    rw [hnone] at hsubmits
    rw [List.countP_cons, h.collected request hrequest, hnext, hone, hagain, if_pos hrequest]
    simp [hsubmits, add_comm]
  · rw [h.iterations, hiteration, add_assoc]
    congr 1
    omega

/-- Requests are left. -/
theorem Covers.left {after : List Metric}
    (hround : Round eventGroup papiSet state.provider.measurementRequests submitted after)
    (hsome : after ≠ []) (hnext : next.provider.measurementRequests = after)
    (hiteration : next.currentIteration = state.currentIteration + if 2 ≤ b then 1 else 0)
    (h : Covers eventGroup papiSet requests (b - 1) next history final) :
    Covers eventGroup papiSet requests b state
      (⟨submitted, after.isEmpty, answer⟩ :: history) final := by
  have hfewer : b - 1 - roundsOf eventGroup papiSet after =
      b - roundsOf eventGroup papiSet state.provider.measurementRequests := by
    have hleft := hround.left.not.mp hsome
    have hcard := hround.fewer
    rw [roundsOf, roundsOf]
    omega
  refine ⟨?_, fun request hrequest => ?_, ?_⟩
  · rw [List.countP_cons, h.complete, hnext, hfewer, List.isEmpty_eq_false_iff.mpr hsome]
    rfl
  · rw [List.countP_cons, h.collected request hrequest, hnext, hfewer]
    have hsubmits := hround.submitted_or_left request
    by_cases hmine : request ∈ submitted
    · simp [hsubmits, hmine, hround.not_both request hmine, add_comm]
    · simp [hsubmits, hmine]
  · rw [h.iterations, hiteration, add_assoc]
    congr 1
    split_ifs <;> omega

end Steps

/-- A burst ends. Each experiment leaves fewer sets of counters or takes one from the counter. -/
theorem exists_gathers {papiSet : Metric → ℤ} {requests : List Metric}
    (hsent : ∀ request ∈ requests, (eventGroup request).sent) :
    ∀ (measure b : ℕ) (state : BurstProvider),
      b * (roundsOf eventGroup papiSet requests + 1) +
        roundsOf eventGroup papiSet state.provider.measurementRequests ≤ measure →
      InBurst papiSet requests state b → ∃ history final,
        Gathers eventGroup state history final ∧
          Covers eventGroup papiSet requests b state history final := by
  intro measure
  induction measure with
  | zero =>
    intro b state hmeasure
    rw [roundsOf, roundsOf] at hmeasure
    omega
  | succ measure ih =>
    intro b state hmeasure h
    obtain ⟨submitted, provider', htransfer, hsets, hround⟩ := transferRequestsToProcesses_ok
      fun request hrequest => hsent request (h.subset hrequest)
    rw [h.sets] at hsets hround
    have hexperiment : ∀ {answer after}, getResults { state with
        provider := provider', status := .notAllInfoGathered } = (answer, after) →
        state.experiment eventGroup =
          .ok (⟨submitted, provider'.measurementRequests.isEmpty, answer⟩, after) := by
      intro answer after hresults
      rw [experiment, htransfer, Outcome.ok_bind]
      simp only [hresults]
      rfl
    by_cases hnone : provider'.measurementRequests = []
    · by_cases hb : b < 2
      · have hrun := hexperiment (getResults_of_done rfl h.counter hnone hb)
        exact ⟨_, _, .last hrun rfl, .done hb hround hnone rfl⟩
      · have hrun := hexperiment (getResults_of_more rfl h.counter hnone (by omega))
        have hless : (b - 1) * (roundsOf eventGroup papiSet requests + 1) +
            roundsOf eventGroup papiSet state.measurementRequestsBackup ≤ measure := by
          rw [h.backup]
          obtain ⟨b, rfl⟩ := Nat.exists_eq_add_of_le' (by omega : 1 ≤ b)
          have hone := one_le_roundsOf eventGroup papiSet state.provider.measurementRequests
          rw [add_one_mul] at hmeasure
          rw [Nat.add_sub_cancel]
          omega
        obtain ⟨history, final, hlater, hcovers⟩ := ih (b - 1) { state with
          provider := { provider' with measurementRequests := state.measurementRequestsBackup }
          burstCounter := (b - 1 : ℕ)
          currentIteration := state.currentIteration + 1
          status := .notAllInfoGathered } hless
            ⟨hsets, h.backup, fun request hrequest => h.backup ▸ hrequest, rfl⟩
        exact ⟨_, final, .more hrun rfl hlater, hcovers.more (by omega) hround hnone h.backup rfl⟩
    · obtain ⟨oldRequestsPending, hresults⟩ := @getResults_of_left { state with
        provider := provider', status := .notAllInfoGathered } b rfl h.counter hnone
      have hrun := hexperiment hresults
      have hless : (b - 1) * (roundsOf eventGroup papiSet requests + 1) +
          roundsOf eventGroup papiSet provider'.measurementRequests ≤ measure := by
        have hle : (b - 1) * (roundsOf eventGroup papiSet requests + 1) ≤
            b * (roundsOf eventGroup papiSet requests + 1) :=
          Nat.mul_le_mul_right _ (Nat.sub_le b 1)
        have hleft := hround.left.not.mp hnone
        have hcard := hround.fewer
        simp only [roundsOf] at hmeasure hle ⊢
        omega
      obtain ⟨history, final, hlater, hcovers⟩ := ih (b - 1) { state with
        provider := provider'
        burstCounter := (b - 1 : ℕ)
        currentIteration := state.currentIteration + if 2 ≤ b then 1 else 0
        oldRequestsPending
        status := .notAllInfoGathered } hless ⟨hsets, h.backup, fun request hrequest =>
          h.subset ((hround.submitted_or_left request).mpr (.inr hrequest)), rfl⟩
      exact ⟨_, final, .more hrun rfl hlater, hcovers.left hround hnone rfl rfl⟩

/-- Requests that are left stay, and then not everything is gathered. -/
theorem getResults_keeps (hstatus : state.status = .notAllInfoGathered)
    (hleft : state.provider.measurementRequests ≠ []) :
    state.getResults.1 = .notAllInfoGathered ∧
      state.getResults.2.provider.measurementRequests = state.provider.measurementRequests := by
  rw [getResults, if_neg (by rw [hstatus]; decide)]
  simp only [if_pos hleft]
  rw [if_neg (by decide)]
  split_ifs <;> exact ⟨rfl, rfl⟩

section Runs
variable {next final final' : BurstProvider} {record : Experiment}
  {history history' : List Experiment}

/-- An experiment that ends has requests that can be sent. -/
theorem experiment_eq_ok (hrun : state.experiment eventGroup = .ok (record, next)) :
    ∃ provider', transferMeasurementRequests eventGroup state.provider =
        .ok (record.submitted, provider') ∧
      (∀ request ∈ record.submitted, (eventGroup request).sent) ∧
      record.complete = provider'.measurementRequests.isEmpty ∧
      (provider'.measurementRequests ≠ [] → record.answer = .notAllInfoGathered ∧
        next.provider.measurementRequests = provider'.measurementRequests) := by
  obtain ⟨⟨submitted, transferred⟩, htransfer, hresults⟩ := Outcome.bind_eq_ok.mp hrun
  obtain ⟨⟨selected, provider'⟩, hselected, hsent⟩ := Outcome.bind_eq_ok.mp htransfer
  simp only at hsent
  split_ifs at hsent with hall
  cases hsent
  have hkeeps := @getResults_keeps { state with
    provider := provider', status := .notAllInfoGathered } rfl
  simp only at hresults
  generalize getResults { state with
    provider := provider', status := .notAllInfoGathered } = gathered at hresults hkeeps
  cases hresults
  exact ⟨provider', hselected, List.all_eq_true.mp hall, rfl, hkeeps⟩

theorem Gathers.unique (h : Gathers eventGroup state history final)
    (h' : Gathers eventGroup state history' final') : history = history' ∧ final = final' := by
  induction h generalizing history' final' with
  | last hrun hanswer =>
    cases h' with
    | last hrun' _ =>
      rw [hrun] at hrun'
      cases hrun'
      exact ⟨rfl, rfl⟩
    | more hrun' hanswer' _ =>
      rw [hrun] at hrun'
      cases hrun'
      rw [hanswer] at hanswer'
      cases hanswer'
  | more hrun hanswer _ ih =>
    cases h' with
    | last hrun' hanswer' =>
      rw [hrun] at hrun'
      cases hrun'
      rw [hanswer] at hanswer'
      cases hanswer'
    | more hrun' _ hlater' =>
      rw [hrun] at hrun'
      cases hrun'
      obtain ⟨rfl, rfl⟩ := ih hlater'
      exact ⟨rfl, rfl⟩

theorem complete_of_answer (hrun : state.experiment eventGroup = .ok (record, next))
    (hanswer : record.answer = .allInfoGathered) : record.complete := by
  obtain ⟨provider', -, -, hcomplete, hleft⟩ := experiment_eq_ok hrun
  rw [hcomplete, List.isEmpty_iff]
  by_contra hsome
  rw [(hleft hsome).1] at hanswer
  cases hanswer

/-- The last experiment completes a measurement. -/
theorem Gathers.not_before (h : Gathers eventGroup state history final) :
    ∀ i < history.length, (history.take i).countP Experiment.complete <
      history.countP Experiment.complete := by
  induction h with
  | last hrun hanswer =>
    intro i hi
    obtain rfl : i = 0 := Nat.lt_one_iff.mp hi
    rw [List.countP_singleton, if_pos (complete_of_answer hrun hanswer)]
    exact one_pos
  | more _ _ hlater ih =>
    intro i hi
    cases i with
    | zero =>
      have hpositive := ih 0 (by cases hlater <;> exact Nat.succ_pos _)
      rw [List.take_zero, List.countP_nil] at hpositive ⊢
      exact hpositive.trans_le ((List.sublist_cons_self _ _).countP_le)
    | succ i =>
      rw [List.take_succ_cons, List.countP_cons, List.countP_cons]
      exact Nat.add_lt_add_right (ih i (Nat.lt_of_succ_lt_succ hi)) _

theorem transferMeasurementRequests_aborts {provider : DataProvider}
    (hunsupported : ∃ request ∈ provider.measurementRequests, ¬ (eventGroup request).supported) :
    transferMeasurementRequests eventGroup provider = .aborts := by
  obtain ⟨request, hrequest, hgroup⟩ := hunsupported
  refine formRequestSet_aborts ⟨request, ?_, hgroup⟩
  simp only
  rw [sort_unique, List.mem_dedup]
  exact (List.perm_insertionSort (· ≤ ·) provider.measurementRequests).mem_iff.mpr hrequest

/-- A burst ends only where every request can be sent. -/
theorem Gathers.sent (h : Gathers eventGroup state history final) :
    ∀ request ∈ state.provider.measurementRequests, (eventGroup request).sent := by
  have hfirst : ∀ {state next : BurstProvider} {record : Experiment},
      state.experiment eventGroup = .ok (record, next) →
      ∀ request ∈ state.provider.measurementRequests, (eventGroup request).sent ∨
        record.answer = .notAllInfoGathered ∧ request ∈ next.provider.measurementRequests := by
    intro state next record hrun request hrequest
    obtain ⟨provider', htransfer, hsent, -, hleft⟩ := experiment_eq_ok hrun
    have hsupported : ∀ request ∈ state.provider.measurementRequests,
        (eventGroup request).supported := by
      by_contra hnot
      rw [transferMeasurementRequests_aborts (by simpa using hnot)] at htransfer
      cases htransfer
    obtain ⟨submitted, provider'', id, htransfer', -, -, hsubmitted, hwaits⟩ :=
      transferMeasurementRequests_ok hsupported
    rw [htransfer] at htransfer'
    obtain ⟨rfl, rfl⟩ := Prod.mk.inj (Outcome.ok.inj htransfer')
    by_cases hmine : request ∈ record.submitted
    · exact .inl (hsent request hmine)
    · have hmem : request ∈ provider'.measurementRequests := by
        rw [hsubmitted] at hmine
        rw [hwaits]
        tauto
      obtain ⟨hanswer, hnext⟩ := hleft (List.ne_nil_of_mem hmem)
      exact .inr ⟨hanswer, hnext ▸ hmem⟩
  induction h with
  | last hrun hanswer =>
    intro request hrequest
    refine (hfirst hrun request hrequest).resolve_right fun hlater => ?_
    rw [hanswer] at hlater
    cases hlater.1
  | more hrun _ _ ih =>
    intro request hrequest
    exact (hfirst hrun request hrequest).elim id fun hlater => ih request hlater.2

end Runs
end Proofs

theorem roundsOf_eq_one_iff {eventGroup : Metric → Group} {papiSet : Metric → ℤ}
    {requests : List Metric} : roundsOf eventGroup papiSet requests = 1 ↔
      ∀ request ∈ requests, ∀ other ∈ requests, (eventGroup request).papi →
        (eventGroup other).papi → papiSet request = papiSet other := by
  rw [roundsOf, max_eq_left_iff, Finset.card_le_one]
  simp only [mem_papiSets]
  constructor
  · intro h request hrequest other hother hpapi hpapi'
    exact h _ ⟨request, hrequest, hpapi, rfl⟩ _ ⟨other, hother, hpapi', rfl⟩
  · rintro h _ ⟨request, hrequest, hpapi, rfl⟩ _ ⟨other, hother, hpapi', rfl⟩
    exact h request hrequest other hother hpapi hpapi'

/-- A burst is as long as it says where it has one iteration, or one experiment is enough for
all requests. -/
theorem burstMeasured_iff (eventGroup : Metric → Group) (state : BurstProvider) (n : ℕ)
    (hn : 1 ≤ n) :
    (∃ history final, Gathers eventGroup (state.setIterationBurstLength n) history final ∧
        BurstMeasured n state history final) ↔
      (∀ request ∈ state.provider.measurementRequests, (eventGroup request).sent) ∧
        (n = 1 ∨ ∀ request ∈ state.provider.measurementRequests,
          ∀ other ∈ state.provider.measurementRequests, (eventGroup request).papi →
            (eventGroup other).papi →
              state.provider.papiSet request = state.provider.papiSet other) := by
  obtain ⟨requests, hrequests⟩ : ∃ requests, requests = state.provider.measurementRequests :=
    ⟨_, rfl⟩
  have hruns : (∀ request ∈ requests, (eventGroup request).sent) → ∃ history final,
      Gathers eventGroup (state.setIterationBurstLength n) history final ∧
        history.countP Experiment.complete =
          n ⌈/⌉ roundsOf eventGroup state.provider.papiSet requests ∧
        (∀ request ∈ requests, history.countP (fun record => request ∈ record.submitted) =
          n ⌈/⌉ roundsOf eventGroup state.provider.papiSet requests) ∧
        final.currentIteration = state.currentIteration + n := by
    intro hsent
    obtain ⟨history, final, hgathers, hcovers⟩ := exists_gathers hsent _ n
      (state.setIterationBurstLength n) le_rfl
        ⟨rfl, hrequests.symm, fun request hrequest => hrequests ▸ hrequest, rfl⟩
    have hagain := ceilDiv_eq_add (one_le_roundsOf eventGroup state.provider.papiSet requests)
      (by omega : 0 < n)
    refine ⟨history, final, hgathers, ?_, fun request hrequest => ?_, ?_⟩
    · rw [hcovers.complete, hagain, hrequests]
      rfl
    · rw [hcovers.collected request hrequest, hagain, if_pos (hrequests ▸ hrequest), hrequests]
      rfl
    · rw [hcovers.iterations, max_eq_left hn]
      rfl
  rw [← hrequests, ← roundsOf_eq_one_iff, ← ceilDiv_eq_self_iff (one_le_roundsOf _ _ requests) hn]
  constructor
  · rintro ⟨history, final, hgathers, hmeasured⟩
    have hsent : ∀ request ∈ requests, (eventGroup request).sent := hrequests ▸ hgathers.sent
    obtain ⟨history', final', hgathers', hcomplete, -, -⟩ := hruns hsent
    obtain ⟨rfl, rfl⟩ := hgathers.unique hgathers'
    exact ⟨hsent, hcomplete.symm.trans hmeasured.complete⟩
  · rintro ⟨hsent, hrounds⟩
    obtain ⟨history, final, hgathers, hcomplete, hcollected, hiterations⟩ := hruns hsent
    rw [hrounds] at hcomplete hcollected
    refine ⟨history, final, hgathers, hrequests ▸ hcollected, hcomplete, fun i hi => ?_, ?_⟩
    · rw [← hcomplete]
      exact hgathers.not_before i hi
    · rw [hiterations, hcomplete]

theorem burstMeasured_two :
    let state : BurstProvider := ⟨⟨[6, 7], initializeMetric2papiset⟩, [], 0, 0, false,
      .notAllInfoGathered⟩
    1 ≤ 2 ∧ ∃ history final, Gathers (fun _ => .papiCounter) (state.setIterationBurstLength 2)
        history final ∧ BurstMeasured 2 state history final :=
  ⟨by decide, (burstMeasured_iff _ _ 2 (by decide)).mpr ⟨by decide, .inr (by decide)⟩⟩

/-- Two counters of two sets: two experiments measure each once, and are counted as two
iterations. -/
theorem not_burstMeasured :
    let state : BurstProvider := ⟨⟨[6, 155], initializeMetric2papiset⟩, [], 0, 0, false,
      .notAllInfoGathered⟩
    ¬ ∃ history final, Gathers (fun _ => .papiCounter) (state.setIterationBurstLength 2)
        history final ∧ BurstMeasured 2 state history final := by
  rintro state ⟨history, final, hgathers, hmeasured⟩
  have hfirst : (state.setIterationBurstLength 2).experiment (fun _ => .papiCounter) =
      .ok (⟨[6], false, .notAllInfoGathered⟩, ⟨⟨[155], initializeMetric2papiset⟩, [6, 155], 1, 1,
        false, .notAllInfoGathered⟩) := rfl
  have hsecond : (⟨⟨[155], initializeMetric2papiset⟩, [6, 155], 1, 1, false,
      .notAllInfoGathered⟩ : BurstProvider).experiment (fun _ => .papiCounter) =
        .ok (⟨[155], true, .allInfoGathered⟩, ⟨⟨[], initializeMetric2papiset⟩, [6, 155], 0, 2,
          false, .allInfoGathered⟩) := rfl
  obtain ⟨rfl, -⟩ := hgathers.unique (.more hfirst rfl (.last hsecond rfl))
  exact absurd hmeasured.complete (by decide)

end BurstProvider
end ReadexPtf.Agents
