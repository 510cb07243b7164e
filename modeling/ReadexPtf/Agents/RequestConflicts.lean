import ReadexPtf.Agents.RequestSet
import Mathlib

/-! Which requests are selected together: the counters of the most populated set, and all others
that Score-P supports. -/
namespace ReadexPtf.Agents
open ReadexPtf

def Group.papi : Group → Bool
  | .papiCounter | .papiPower6Counter | .papiNehalemCounter | .periscopeCounter => true
  | _ => false

def Group.energyMeasurement : Group → Bool
  | .hdeem | .energy | .enoptEnergyCounter => true
  | _ => false

/-- `metric2papiset[ request ]`. -/
def DataProvider.papiSet (provider : DataProvider) (request : Metric) : ℤ :=
  (provider.metric2papiset.get? request).getD 0

section Proofs
variable {eventGroup : Metric → Group} {provider : DataProvider}

/-- The counters of a set. -/
def counters (eventGroup : Metric → Group) (provider : DataProvider) (papiSet : ℤ)
    (requests : List Metric) : List Metric :=
  requests.filter fun request =>
    (eventGroup request).papi ∧ provider.papiSet request = papiSet

/-- What the sets hold after some requests, set by set. -/
structure Distributed (eventGroup : Metric → Group) (provider : DataProvider)
    (sets : RequestSets) (requests : List Metric) : Prop where
  sets_eq : ∀ papiSet, (sets.papiSets.get? papiSet).getD [] =
    counters eventGroup provider papiSet requests
  enopt_eq : sets.enoptSet = requests.filter fun request => !(eventGroup request).papi
  numbers : ∀ request, (sets.metric2papiset.get? request).getD 0 = provider.papiSet request
  bounded : ∀ papiSet,
    (counters eventGroup provider papiSet requests).length ≤ sets.largestSetSize
  largest : sets.largestSetSize =
    (counters eventGroup provider sets.largestSetId requests).length

theorem counters_append (papiSet : ℤ) (requests requests' : List Metric) :
    counters eventGroup provider papiSet (requests ++ requests') =
      counters eventGroup provider papiSet requests ++
        counters eventGroup provider papiSet requests' := List.filter_append _ _

theorem counters_singleton {request : Metric} (papiSet : ℤ) :
    counters eventGroup provider papiSet [request] =
      if (eventGroup request).papi ∧ provider.papiSet request = papiSet then [request] else [] := by
  rw [counters, List.filter_cons, List.filter_nil]
  split_ifs <;> simp_all

/-- The most populated set is the largest so far, or the one that a counter has joined. -/
theorem Distributed.papi {sets : RequestSets} {requests : List Metric}
    (h : Distributed eventGroup provider sets requests) {request : Metric}
    (hpapi : (eventGroup request).papi) :
    let metric2papiset := sets.metric2papiset.insertNew request 0
    let papiSet := (metric2papiset.get? request).getD 0
    let set := (sets.papiSets.get? papiSet).getD [] ++ [request]
    let sets' := { sets with metric2papiset, papiSets := sets.papiSets.set papiSet set }
    Distributed eventGroup provider
      (if sets'.largestSetSize < set.length then
        { sets' with largestSetId := papiSet, largestSetSize := set.length }
      else sets') (requests ++ [request]) := by
  have hnumbers : ∀ other, ((sets.metric2papiset.insertNew request 0).get? other).getD 0 =
      provider.papiSet other := by
    intro other
    rw [OrdMap.get?_insertNew, ← h.numbers other]
    cases sets.metric2papiset.get? other with
    | some papiSet => rfl
    | none => by_cases hsame : other = request <;> simp [hsame]
  intro metric2papiset papiSet set sets'
  have hpapiSet : papiSet = provider.papiSet request := hnumbers request
  have hjoined : ∀ other, counters eventGroup provider other (requests ++ [request]) =
      if papiSet = other then set else counters eventGroup provider other requests := by
    intro other
    rw [counters_append, counters_singleton]
    by_cases hsame : papiSet = other
    · rw [if_pos hsame, if_pos ⟨hpapi, hpapiSet ▸ hsame⟩, ← hsame, ← h.sets_eq]
    · rw [if_neg hsame, if_neg fun hboth => hsame (hpapiSet ▸ hboth.2), List.append_nil]
  have hset : set.length = (counters eventGroup provider papiSet requests).length + 1 := by
    rw [List.length_append, h.sets_eq, List.length_singleton]
  have hsets : ∀ other, ((sets.papiSets.set papiSet set).get? other).getD [] =
      counters eventGroup provider other (requests ++ [request]) := by
    intro other
    rw [hjoined, OrdMap.get?_set]
    by_cases hsame : papiSet = other
    · rw [if_pos hsame.symm, if_pos hsame, Option.getD_some]
    · rw [if_neg (Ne.symm hsame), if_neg hsame, h.sets_eq]
  have henopt : sets.enoptSet =
      (requests ++ [request]).filter fun request => !(eventGroup request).papi := by
    rw [List.filter_append, List.filter_cons_of_neg (by simp [hpapi]), List.filter_nil,
      List.append_nil, h.enopt_eq]
  split_ifs with hlarger
  · refine ⟨hsets, henopt, hnumbers, fun other => ?_, ?_⟩
    · rw [hjoined]
      split_ifs
      · exact le_rfl
      · exact (h.bounded other).trans hlarger.le
    · dsimp only
      rw [hjoined, if_pos rfl]
  · have hother : papiSet ≠ sets.largestSetId := by
      intro hsame
      have hlargest := h.largest
      rw [← hsame] at hlargest
      exact hlarger (by dsimp only [sets']; omega)
    refine ⟨hsets, henopt, hnumbers, fun other => ?_, ?_⟩
    · rw [hjoined]
      split_ifs
      · exact not_lt.mp hlarger
      · exact h.bounded other
    · rw [hjoined, if_neg hother]
      exact h.largest

theorem Distributed.other {sets : RequestSets} {requests : List Metric}
    (h : Distributed eventGroup provider sets requests) {request : Metric}
    (hother : (eventGroup request).papi = false) :
    Distributed eventGroup provider { sets with enoptSet := sets.enoptSet ++ [request] }
      (requests ++ [request]) := by
  have hsame : ∀ papiSet, counters eventGroup provider papiSet (requests ++ [request]) =
      counters eventGroup provider papiSet requests := by
    intro papiSet
    rw [counters_append, counters_singleton, if_neg (by simp [hother]), List.append_nil]
  refine ⟨fun papiSet => ?_, ?_, h.numbers, fun papiSet => ?_, ?_⟩
  · rw [hsame]
    exact h.sets_eq papiSet
  · rw [List.filter_append, List.filter_cons_of_pos (by simp [hother]), List.filter_nil, h.enopt_eq]
  · rw [hsame]
    exact h.bounded papiSet
  · rw [hsame]
    exact h.largest

theorem Distributed.distribute {sets sets' : RequestSets} {requests : List Metric}
    (h : Distributed eventGroup provider sets requests) {request : Metric}
    (hrun : sets.distribute eventGroup request = .ok sets') :
    Distributed eventGroup provider sets' (requests ++ [request]) := by
  rw [RequestSets.distribute] at hrun
  cases hgroup : eventGroup request with
  | papiCounter | papiPower6Counter | papiNehalemCounter | periscopeCounter =>
    rw [hgroup] at hrun
    rw [← Outcome.ok.inj hrun]
    exact h.papi (by rw [hgroup]; rfl)
  | timeMeasurement | mpi | hdeem | energy | enoptEnergyCounter =>
    rw [hgroup] at hrun
    rw [← Outcome.ok.inj hrun]
    exact h.other (by rw [hgroup]; rfl)
  | _ =>
    rw [hgroup] at hrun
    cases hrun

theorem distributed_all : ∀ (requests done : List Metric) (sets sets' : RequestSets),
    Distributed eventGroup provider sets done →
    requests.foldlM (RequestSets.distribute eventGroup) sets = .ok sets' →
    Distributed eventGroup provider sets' (done ++ requests) := by
  intro requests
  induction requests with
  | nil =>
    intro done sets sets' h hrun
    rw [List.append_nil]
    exact Outcome.ok.inj hrun ▸ h
  | cons request requests ih =>
    intro done sets sets' h hrun
    rw [List.foldlM_cons] at hrun
    obtain ⟨next, hnext, hrest⟩ := Outcome.bind_eq_ok.mp hrun
    have hall := ih (done ++ [request]) next sets' (h.distribute hnext) hrest
    rwa [List.append_assoc, List.singleton_append] at hall

/-- The entry of a key. -/
theorem flatMap_filter_key (papiSets : OrdMap ℤ (List Metric)) (papiSet : ℤ) :
    (papiSets.entries.filter fun set => set.1 = papiSet).flatMap Prod.snd =
      (papiSets.get? papiSet).getD [] := by
  have hsame : papiSets.filterKeys (fun key => key = papiSet) =
      match papiSets.get? papiSet with
      | some set => OrdMap.empty.set papiSet set
      | none => .empty := by
    refine OrdMap.ext_get? fun key => ?_
    rw [OrdMap.get?_filterKeys]
    cases hget : papiSets.get? papiSet with
    | none => by_cases hkey : key = papiSet <;> simp [hkey, hget]
    | some set => by_cases hkey : key = papiSet <;> simp [hkey, hget, OrdMap.get?_set]
  have hentries := congrArg OrdMap.entries hsame
  rw [OrdMap.filterKeys] at hentries
  dsimp only at hentries
  rw [hentries]
  cases papiSets.get? papiSet with
  | none => rfl
  | some set =>
    rw [Option.getD_some]
    exact List.append_nil set

/-- The selection is a most populated set of counters and everything that is no counter. -/
theorem formRequestSet_selects
    (hsupported : ∀ request ∈ provider.measurementRequests, (eventGroup request).supported) :
    ∃ papiSet provider',
      (∀ other, (counters eventGroup provider other provider.measurementRequests).length ≤
        (counters eventGroup provider papiSet provider.measurementRequests).length) ∧
      formRequestSet eventGroup provider =
        .ok (counters eventGroup provider papiSet provider.measurementRequests ++
          provider.measurementRequests.filter fun request => !(eventGroup request).papi,
          provider') := by
  have hholds : (⟨provider.metric2papiset, .empty, [], -1, 0⟩ : RequestSets).Holds [] :=
    ⟨.refl _, .inl ⟨rfl, rfl⟩⟩
  have hstart : Distributed eventGroup provider ⟨provider.metric2papiset, .empty, [], -1, 0⟩ [] :=
    ⟨fun _ => rfl, rfl, fun _ => rfl, fun _ => le_rfl, rfl⟩
  obtain ⟨sets, hrun, -⟩ := distribute_all provider.measurementRequests [] _ hholds hsupported
  have hsets := distributed_all provider.measurementRequests [] _ _ hstart hrun
  rw [List.nil_append] at hsets
  refine ⟨sets.largestSetId,
    ⟨(sets.papiSets.entries.filter fun set => set.1 ≠ sets.largestSetId).flatMap Prod.snd,
      sets.metric2papiset⟩, fun other => hsets.largest ▸ hsets.bounded other, ?_⟩
  rw [formRequestSet, hrun, Outcome.ok_bind]
  simp only [foldl_papi, foldl_enopt, List.nil_append, flatMap_filter_key, hsets.sets_eq,
    hsets.enopt_eq]
  rfl

theorem mem_counters {papiSet : ℤ} {requests : List Metric} {request : Metric} :
    request ∈ counters eventGroup provider papiSet requests ↔
      request ∈ requests ∧ (eventGroup request).papi ∧ provider.papiSet request = papiSet := by
  rw [counters, List.mem_filter, decide_eq_true_eq]

theorem filter_selected (papiSet : ℤ) (requests : List Metric) :
    ((counters eventGroup provider papiSet requests ++
        requests.filter fun request => !(eventGroup request).papi).filter
      fun request => (eventGroup request).papi) =
      counters eventGroup provider papiSet requests := by
  rw [List.filter_append, List.filter_filter]
  have hcounters : (counters eventGroup provider papiSet requests).filter
      (fun request => (eventGroup request).papi) =
        counters eventGroup provider papiSet requests :=
    List.filter_eq_self.mpr fun request hrequest => (mem_counters.mp hrequest).2.1
  have hothers : (requests.filter fun request =>
      (eventGroup request).papi && !(eventGroup request).papi) = [] :=
    List.filter_eq_nil_iff.mpr fun request _ => by simp
  rw [hcounters, hothers, List.append_nil]

theorem Group.papi_of_energy {group : Group} (h : group.energyMeasurement) :
    group.papi = false := by
  cases group <;> first | rfl | cases h

end Proofs

/-- Requests that may be measured together, with so many hardware counters. -/
structure Compatible (eventGroup : Metric → Group) (available : ℕ) (requests : List Metric) :
    Prop where
  separate : ∀ counter ∈ requests, (eventGroup counter).papi →
    ∀ energy ∈ requests, ¬ (eventGroup energy).energyMeasurement
  fits : (requests.filter fun request => (eventGroup request).papi).length ≤ available

/-- Counters and energy measurements are separate only where one of them is not requested, and
as many counters are selected as one set has. -/
theorem formRequestSet_compatible_iff (eventGroup : Metric → Group) (available : ℕ)
    (provider : DataProvider) :
    (∀ selected provider', formRequestSet eventGroup provider = .ok (selected, provider') →
        Compatible eventGroup available selected) ↔
      ((∀ request ∈ provider.measurementRequests, (eventGroup request).supported) →
        ((∀ request ∈ provider.measurementRequests, ¬ (eventGroup request).papi) ∨
          ∀ request ∈ provider.measurementRequests, ¬ (eventGroup request).energyMeasurement) ∧
        ∀ papiSet, (counters eventGroup provider papiSet
          provider.measurementRequests).length ≤ available) := by
  by_cases hsupported : ∀ request ∈ provider.measurementRequests, (eventGroup request).supported
  · obtain ⟨papiSet, provider', hlargest, hrun⟩ := formRequestSet_selects hsupported
    have hone : (∀ selected provider', formRequestSet eventGroup provider =
        .ok (selected, provider') → Compatible eventGroup available selected) ↔
        Compatible eventGroup available (counters eventGroup provider papiSet
          provider.measurementRequests ++
            provider.measurementRequests.filter fun request => !(eventGroup request).papi) := by
      rw [hrun]
      simp only [Outcome.ok.injEq, Prod.mk.injEq, and_imp]
      exact ⟨fun h => h _ _ rfl rfl, fun h selected _ hselected _ => hselected ▸ h⟩
    rw [hone, forall_prop_of_true hsupported]
    constructor
    · intro h
      have hfits := h.fits
      rw [filter_selected] at hfits
      refine ⟨?_, fun other => (hlargest other).trans hfits⟩
      by_contra hboth
      push Not at hboth
      obtain ⟨⟨counter, hcounter, hpapi⟩, energy, henergy, hmeasures⟩ := hboth
      -- A requested counter makes its set, and so the most populated one, not empty.
      have hset : counter ∈ counters eventGroup provider (provider.papiSet counter)
          provider.measurementRequests := mem_counters.mpr ⟨hcounter, hpapi, rfl⟩
      have hsome := (List.length_pos_of_mem hset).trans_le (hlargest _)
      obtain ⟨selected, hselected⟩ := List.exists_mem_of_length_pos hsome
      refine h.separate selected (List.mem_append_left _ hselected) (mem_counters.mp hselected).2.1
        energy (List.mem_append_right _ (List.mem_filter.mpr ⟨henergy, ?_⟩)) hmeasures
      rw [Group.papi_of_energy hmeasures]
      rfl
    · intro h
      refine ⟨fun counter hcounter hpapi energy henergy hmeasures => ?_, ?_⟩
      · have hrequested : ∀ request ∈ counters eventGroup provider papiSet
            provider.measurementRequests ++
              provider.measurementRequests.filter fun request => !(eventGroup request).papi,
            request ∈ provider.measurementRequests := by
          intro request hrequest
          cases List.mem_append.mp hrequest with
          | inl hset => exact (mem_counters.mp hset).1
          | inr hother => exact (List.mem_filter.mp hother).1
        cases h.1 with
        | inl hnone => exact hnone counter (hrequested counter hcounter) hpapi
        | inr hnone => exact hnone energy (hrequested energy henergy) hmeasures
      · rw [filter_selected]
        exact h.2 papiSet
  · refine iff_of_true (fun selected provider' hrun => ?_) fun hall => absurd hall hsupported
    push Not at hsupported
    have haborts := @formRequestSet_aborts eventGroup provider (by simpa using hsupported)
    rw [haborts] at hrun
    cases hrun

/-- A counter and an energy measurement, requested together. -/
theorem not_formRequestSet_compatible :
    ¬ ∀ (eventGroup : Metric → Group) (available : ℕ) (provider : DataProvider)
      (selected : List Metric) (provider' : DataProvider),
      formRequestSet eventGroup provider = .ok (selected, provider') →
        Compatible eventGroup available selected := by
  intro h
  have hcompatible := h (fun request => if request = 6 then .papiCounter else .energy) 4
    ⟨[6, 300], initializeMetric2papiset⟩ [6, 300] ⟨[], initializeMetric2papiset⟩ rfl
  exact hcompatible.separate 6 (by decide) rfl 300 (by decide) rfl

end ReadexPtf.Agents
