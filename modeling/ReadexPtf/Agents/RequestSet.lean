import ReadexPtf.Lib.OrdMap
import ReadexPtf.Lib.Rounds
import Mathlib

/-! Which metric requests the data provider of an analysis agent submits together: counters
of one valid set, and the requests that conflict with none. -/
namespace ReadexPtf.Agents
open ReadexPtf

inductive Group where
  | papiCounter
  | papiPower6Counter
  | papiNehalemCounter
  | periscopeCounter
  | openclTimeMeasurement
  | cudaTimeMeasurement
  | cudaBytesTransferred
  | cudaCounter
  | configurableCounter
  | enoptEnergyCounter
  | vpatternCounter
  | libcallsOverheadCounter
  | timeMeasurement
  | mpi
  | omp
  | hdeem
  | energy
  | other
  | undefined
  deriving DecidableEq

/-- The value of an enumerator, which is its index in the list of events. -/
abbrev Metric := ℕ

structure DataProvider where
  measurementRequests : List Metric
  metric2papiset : OrdMap Metric ℤ

/-- Enumerators from `PSC_NP_THREAD_P` on, and those from `PSC_PAPI_L2_DCM` on. -/
def initializeMetric2papiset : OrdMap Metric ℤ := .ofList
  [(155, 0), (156, 0), (157, 0), (158, 0), (159, 0),
    (160, 1), (161, 1), (162, 1), (163, 1), (164, 1),
    (165, 2), (166, 2), (167, 2), (168, 2),
    (169, 3), (170, 3),
    (6, 4), (7, 4), (15, 4), (17, 5)]

/-- The requests that have been distributed. -/
structure RequestSets where
  metric2papiset : OrdMap Metric ℤ
  papiSets : OrdMap ℤ (List Metric)
  enoptSet : List Metric
  largestSetId : ℤ
  largestSetSize : ℕ

section Models
variable (eventGroup : Metric → Group)

/-- The set of a counter that has none yet is 0. -/
def RequestSets.distribute (sets : RequestSets) (request : Metric) : Outcome RequestSets :=
  match eventGroup request with
  | .papiCounter | .papiPower6Counter | .papiNehalemCounter | .periscopeCounter =>
    let metric2papiset := sets.metric2papiset.insertNew request 0
    let papiSet := (metric2papiset.get? request).getD 0
    let set := (sets.papiSets.get? papiSet).getD [] ++ [request]
    let sets := { sets with metric2papiset, papiSets := sets.papiSets.set papiSet set }
    .ok (if sets.largestSetSize < set.length then
        { sets with largestSetId := papiSet, largestSetSize := set.length }
      else sets)
  | .timeMeasurement | .mpi | .hdeem | .energy | .enoptEnergyCounter =>
    .ok { sets with enoptSet := sets.enoptSet ++ [request] }
  | _ => .aborts

structure Selection where
  result : List Metric
  measurementRequests : List Metric
  papiUsed : Bool

/-- Requests of the largest set are selected, others wait. -/
def Selection.papi (largestSetId : ℤ) (selection : Selection) (set : ℤ × List Metric) :
    Selection :=
  set.2.foldl (fun selection request =>
    if set.1 = largestSetId then
      { selection with result := selection.result ++ [request], papiUsed := false }
    else { selection with
      measurementRequests := selection.measurementRequests ++ [request] }) selection

def Selection.enopt (selection : Selection) (request : Metric) : Selection :=
  if selection.papiUsed then
    { selection with measurementRequests := selection.measurementRequests ++ [request] }
  else { selection with result := selection.result ++ [request] }

def formRequestSet (provider : DataProvider) : Outcome (List Metric × DataProvider) := do
  let sets ← provider.measurementRequests.foldlM (RequestSets.distribute eventGroup)
    ⟨provider.metric2papiset, .empty, [], -1, 0⟩
  let selection := sets.papiSets.entries.foldl (Selection.papi sets.largestSetId) ⟨[], [], false⟩
  let selection := sets.enoptSet.foldl Selection.enopt selection
  return (selection.result, ⟨selection.measurementRequests, sets.metric2papiset⟩)

/-- The requests that are sent to the processes: duplicates are removed before. -/
def transferMeasurementRequests (provider : DataProvider) :
    Outcome (List Metric × DataProvider) :=
  formRequestSet eventGroup { provider with
    measurementRequests :=
      (provider.measurementRequests.insertionSort (· ≤ ·)).destutter (· ≠ ·) }

end Models

/-- Groups that Score-P knows. -/
def Group.supported : Group → Bool
  | .papiCounter | .papiPower6Counter | .papiNehalemCounter | .periscopeCounter
  | .timeMeasurement | .mpi | .hdeem | .energy | .enoptEnergyCounter => true
  | _ => false

section Proofs
variable {eventGroup : Metric → Group}

/-- What the sets hold after some requests. -/
structure RequestSets.Holds (sets : RequestSets) (requests : List Metric) : Prop where
  perm : (sets.papiSets.entries.flatMap Prod.snd ++ sets.enoptSet).Perm requests
  largest : (sets.papiSets.entries = [] ∧ sets.largestSetSize = 0) ∨
    ∃ set, sets.papiSets.get? sets.largestSetId = some set ∧ 0 < set.length ∧
      set.length = sets.largestSetSize

/-- A counter goes to its set, which may become the largest. -/
theorem RequestSets.Holds.papi {sets : RequestSets} {requests : List Metric}
    (h : sets.Holds requests) (request : Metric) (papiSet : ℤ)
    (metric2papiset : OrdMap Metric ℤ) (set : List Metric)
    (hset : set = (sets.papiSets.get? papiSet).getD [] ++ [request]) :
    (if sets.largestSetSize < set.length then
      { sets with
        metric2papiset
        papiSets := sets.papiSets.set papiSet set
        largestSetId := papiSet
        largestSetSize := set.length }
    else { sets with metric2papiset, papiSets := sets.papiSets.set papiSet set }).Holds
      (requests ++ [request]) := by
  have hperm : ((sets.papiSets.set papiSet set).entries.flatMap Prod.snd ++
      sets.enoptSet).Perm (requests ++ [request]) := by
    have hinsert := OrdMap.Entries.flatMap_insert_append (k := papiSet) request
      sets.papiSets.sorted
    rw [hset]
    have hmoved := hinsert.append_right sets.enoptSet
    rw [List.append_assoc] at hmoved
    have hswap : (sets.papiSets.entries.flatMap Prod.snd ++ ([request] ++ sets.enoptSet)).Perm
        (sets.papiSets.entries.flatMap Prod.snd ++ sets.enoptSet ++ [request]) := by
      rw [List.append_assoc]
      exact List.perm_append_comm.append_left _
    exact hmoved.trans (hswap.trans (h.perm.append_right [request]))
  have hpositive : 0 < set.length := by
    rw [hset, List.length_append, List.length_singleton]
    omega
  split_ifs with hlarger
  · exact ⟨hperm, .inr ⟨set, OrdMap.get?_set_self _ _ _, hpositive, rfl⟩⟩
  · refine ⟨hperm, .inr ?_⟩
    cases h.largest with
    | inl hempty => omega
    | inr hlargest =>
      obtain ⟨largest, hget, hlargestPositive, hsize⟩ := hlargest
      have hne : sets.largestSetId ≠ papiSet := by
        intro heq
        rw [hset, ← heq, hget, Option.getD_some, List.length_append,
          List.length_singleton] at hlarger
        omega
      exact ⟨largest, by rw [OrdMap.get?_set_ne _ _ hne, hget], hlargestPositive, hsize⟩

/-- A supported request is distributed, another one ends the run. -/
theorem RequestSets.Holds.distribute {sets : RequestSets} {requests : List Metric}
    (h : sets.Holds requests) {request : Metric} (hsupported : (eventGroup request).supported) :
    ∃ sets', sets.distribute eventGroup request = .ok sets' ∧
      sets'.Holds (requests ++ [request]) := by
  have henopt : (⟨sets.metric2papiset, sets.papiSets, sets.enoptSet ++ [request],
      sets.largestSetId, sets.largestSetSize⟩ : RequestSets).Holds (requests ++ [request]) := by
    refine ⟨?_, h.largest⟩
    rw [← List.append_assoc]
    exact h.perm.append_right [request]
  rw [RequestSets.distribute]
  cases hgroup : eventGroup request with
  | papiCounter | papiPower6Counter | papiNehalemCounter | periscopeCounter =>
    exact ⟨_, rfl, h.papi request _ _ _ rfl⟩
  | timeMeasurement | mpi | hdeem | energy | enoptEnergyCounter => exact ⟨_, rfl, henopt⟩
  | _ => exact absurd hsupported (by rw [hgroup]; decide)

theorem distribute_aborts {sets : RequestSets} {request : Metric}
    (hunsupported : ¬ (eventGroup request).supported) :
    sets.distribute eventGroup request = .aborts := by
  rw [RequestSets.distribute]
  cases hgroup : eventGroup request with
  | papiCounter | papiPower6Counter | papiNehalemCounter | periscopeCounter | timeMeasurement
  | mpi | hdeem | energy | enoptEnergyCounter =>
    exact absurd (by rw [hgroup]; rfl) hunsupported
  | _ => rfl

theorem distribute_all : ∀ (requests done : List Metric) (sets : RequestSets),
    sets.Holds done → (∀ request ∈ requests, (eventGroup request).supported) →
    ∃ sets', requests.foldlM (RequestSets.distribute eventGroup) sets = .ok sets' ∧
      sets'.Holds (done ++ requests) := by
  intro requests
  induction requests with
  | nil =>
    intro done sets h _
    exact ⟨sets, rfl, by rwa [List.append_nil]⟩
  | cons request requests ih =>
    intro done sets h hall
    obtain ⟨sets₁, hfirst, h₁⟩ := h.distribute (hall request List.mem_cons_self)
    obtain ⟨sets₂, hrest, h₂⟩ := ih (done ++ [request]) sets₁ h₁
      (fun other hother => hall other (List.mem_cons_of_mem request hother))
    refine ⟨sets₂, ?_, ?_⟩
    · rw [List.foldlM_cons, hfirst, Outcome.ok_bind, hrest]
    · rwa [List.append_assoc, List.singleton_append] at h₂

theorem distribute_all_aborts : ∀ (requests : List Metric) (sets : RequestSets),
    (∃ request ∈ requests, ¬ (eventGroup request).supported) →
    requests.foldlM (RequestSets.distribute eventGroup) sets = .aborts := by
  intro requests
  induction requests with
  | nil => exact fun _ hnone => absurd hnone (by simp)
  | cons request requests ih =>
    intro sets hsome
    rw [List.foldlM_cons]
    by_cases hfirst : (eventGroup request).supported
    · have hrest : ∃ other ∈ requests, ¬ (eventGroup other).supported := by
        obtain ⟨other, hother, hunsupported⟩ := hsome
        cases List.mem_cons.mp hother with
        | inl heq => exact absurd (heq ▸ hfirst) hunsupported
        | inr hin => exact ⟨other, hin, hunsupported⟩
      cases hrun : sets.distribute eventGroup request with
      | ok sets' => exact ih sets' hrest
      | aborts => rfl
      | throws message =>
        exfalso
        revert hrun
        rw [RequestSets.distribute]
        cases eventGroup request <;> exact fun hrun => nomatch hrun
      | undefined =>
        exfalso
        revert hrun
        rw [RequestSets.distribute]
        cases eventGroup request <;> exact fun hrun => nomatch hrun
    · rw [distribute_aborts hfirst]
      rfl

/-- The selection of whole sets, with `papiUsed` false as it stays. -/
theorem foldl_papi (largestSetId : ℤ) (entries : List (ℤ × List Metric)) :
    ∀ result waiting, entries.foldl (Selection.papi largestSetId) ⟨result, waiting, false⟩ =
      ⟨result ++ (entries.filter fun set => set.1 = largestSetId).flatMap Prod.snd,
        waiting ++ (entries.filter fun set => set.1 ≠ largestSetId).flatMap Prod.snd, false⟩ := by
  have hset : ∀ (id : ℤ) (set result waiting : List Metric),
      Selection.papi largestSetId ⟨result, waiting, false⟩ (id, set) =
        if id = largestSetId then ⟨result ++ set, waiting, false⟩
        else ⟨result, waiting ++ set, false⟩ := by
    intro id set
    induction set with
    | nil => intro result waiting; simp [Selection.papi]
    | cons request set ih =>
      intro result waiting
      simp only [Selection.papi, List.foldl_cons] at ih ⊢
      split_ifs with heq
      · simp only [heq, if_true] at ih ⊢
        rw [ih, List.append_assoc, List.singleton_append]
      · simp only [heq, if_false] at ih ⊢
        rw [ih, List.append_assoc, List.singleton_append]
  induction entries with
  | nil => intro result waiting; simp
  | cons set entries ih =>
    intro result waiting
    obtain ⟨id, requests⟩ := set
    rw [List.foldl_cons, hset]
    split_ifs with heq
    · rw [ih]
      simp [heq]
    · rw [ih]
      simp [heq]

theorem foldl_enopt (requests : List Metric) : ∀ result waiting,
    requests.foldl Selection.enopt ⟨result, waiting, false⟩ =
      ⟨result ++ requests, waiting, false⟩ := by
  induction requests with
  | nil => intro result waiting; simp
  | cons request requests ih =>
    intro result waiting
    rw [List.foldl_cons, Selection.enopt]
    simp only [Bool.false_eq_true, if_false]
    rw [ih, List.append_assoc, List.singleton_append]

/-- One round selects something, and what it selects and what waits are the requests. -/
theorem formRequestSet_conserves (provider : DataProvider)
    (hsupported : ∀ request ∈ provider.measurementRequests, (eventGroup request).supported) :
    Conserves DataProvider.measurementRequests (formRequestSet eventGroup) provider := by
  have hstart : (⟨provider.metric2papiset, .empty, [], -1, 0⟩ : RequestSets).Holds [] :=
    ⟨.refl _, .inl ⟨rfl, rfl⟩⟩
  obtain ⟨sets, hrun, hperm, hlargest⟩ := distribute_all provider.measurementRequests [] _ hstart
    hsupported
  rw [List.nil_append] at hperm
  obtain ⟨chosen, hchosen⟩ : ∃ chosen, chosen =
      sets.papiSets.entries.filter fun set => set.1 = sets.largestSetId := ⟨_, rfl⟩
  obtain ⟨others, hothers⟩ : ∃ others, others =
      sets.papiSets.entries.filter fun set => set.1 ≠ sets.largestSetId := ⟨_, rfl⟩
  have hsplit : (chosen ++ others).Perm sets.papiSets.entries := by
    rw [hchosen, hothers]
    simpa using List.filter_append_perm
      (fun set : ℤ × List Metric => decide (set.1 = sets.largestSetId)) sets.papiSets.entries
  refine ⟨chosen.flatMap Prod.snd ++ sets.enoptSet,
    ⟨others.flatMap Prod.snd, sets.metric2papiset⟩, ?_, ?_, fun hne => ?_⟩
  · rw [formRequestSet, hrun, Outcome.ok_bind]
    simp only [foldl_papi, foldl_enopt, List.nil_append, ← hchosen, ← hothers]
    rfl
  · have hmoved : (chosen.flatMap Prod.snd ++ sets.enoptSet ++ others.flatMap Prod.snd).Perm
        ((chosen ++ others).flatMap Prod.snd ++ sets.enoptSet) := by
      rw [List.flatMap_append, List.append_assoc, List.append_assoc]
      exact List.perm_append_comm.append_left _
    have hall := (hsplit.flatMap_right Prod.snd).append_right sets.enoptSet
    exact hmoved.trans (hall.trans hperm)
  · cases hlargest with
    | inl hempty =>
      intro hnone
      rw [hempty.1, List.flatMap_nil, (List.append_eq_nil_iff.mp hnone).2] at hperm
      exact hne hperm.nil_eq.symm
    | inr hlargest =>
      obtain ⟨set, hget, hpositive, -⟩ := hlargest
      have hmem : (sets.largestSetId, set) ∈ chosen := by
        rw [hchosen, List.mem_filter]
        exact ⟨OrdMap.get?_eq_some.mp hget, decide_eq_true rfl⟩
      intro hnone
      have hnil := (List.append_eq_nil_iff.mp hnone).1
      obtain ⟨request, hrequest⟩ := List.exists_mem_of_length_pos hpositive
      have hin : request ∈ chosen.flatMap Prod.snd :=
        List.mem_flatMap.mpr ⟨(sets.largestSetId, set), hmem, hrequest⟩
      rw [hnil] at hin
      exact absurd hin List.not_mem_nil

theorem formRequestSet_aborts {provider : DataProvider}
    (hunsupported : ∃ request ∈ provider.measurementRequests, ¬ (eventGroup request).supported) :
    formRequestSet eventGroup provider = .aborts := by
  rw [formRequestSet, distribute_all_aborts _ _ hunsupported]
  rfl

/-- Sorting and removing neighbours that are equal. -/
theorem sort_unique (requests : List Metric) :
    (requests.insertionSort (· ≤ ·)).destutter (· ≠ ·) =
      (requests.insertionSort (· ≤ ·)).dedup :=
  (List.pairwise_insertionSort (· ≤ ·) requests).destutter_eq_dedup

theorem transfer_conserves {provider : DataProvider}
    (hsupported : ∀ request ∈ provider.measurementRequests, (eventGroup request).supported)
    (hnodup : provider.measurementRequests.Nodup) :
    Conserves DataProvider.measurementRequests (transferMeasurementRequests eventGroup)
      provider := by
  have hsorted := List.perm_insertionSort (· ≤ ·) provider.measurementRequests
  have hunique : (provider.measurementRequests.insertionSort (· ≤ ·)).destutter (· ≠ ·) =
      provider.measurementRequests.insertionSort (· ≤ ·) := by
    rw [sort_unique, (hsorted.nodup_iff.mpr hnodup).dedup]
  obtain ⟨selected, provider', hrun, hperm, hne⟩ := formRequestSet_conserves
    ⟨provider.measurementRequests.insertionSort (· ≤ ·), provider.metric2papiset⟩
    (fun request hrequest => hsupported request (hsorted.mem_iff.mp hrequest))
  refine ⟨selected, provider', ?_, hperm.trans hsorted, fun hsome => hne ?_⟩
  · rw [transferMeasurementRequests, hunique]
    exact hrun
  · intro hnone
    exact hsome (List.Perm.nil_eq (hnone ▸ hsorted)).symm

/-- Rounds of `formRequestSet` serve every supported request once; other requests abort. With
the removal of duplicates before each round every metric is served once. -/
theorem formRequestSet_rounds (eventGroup : Metric → Group) (provider : DataProvider) :
    ((∃ request ∈ provider.measurementRequests, ¬ (eventGroup request).supported) ∧
      formRequestSet eventGroup provider = .aborts) ∨
    ((∀ request ∈ provider.measurementRequests, (eventGroup request).supported) ∧
      Conserves DataProvider.measurementRequests (formRequestSet eventGroup) provider ∧
      (∃ served provider', rounds DataProvider.measurementRequests (formRequestSet eventGroup)
          provider.measurementRequests.length provider = .ok (served, provider') ∧
        provider'.measurementRequests = [] ∧
        served.flatten.Perm provider.measurementRequests) ∧
      ∃ served provider', rounds DataProvider.measurementRequests
          (transferMeasurementRequests eventGroup) provider.measurementRequests.length provider =
            .ok (served, provider') ∧
        provider'.measurementRequests = [] ∧ served.flatten.Nodup ∧
        ∀ request, request ∈ served.flatten ↔ request ∈ provider.measurementRequests) := by
  by_cases hsome : ∃ request ∈ provider.measurementRequests, ¬ (eventGroup request).supported
  · exact .inl ⟨hsome, formRequestSet_aborts hsome⟩
  have hsupported : ∀ request ∈ provider.measurementRequests, (eventGroup request).supported := by
    intro request hrequest
    by_contra hnot
    exact hsome ⟨request, hrequest, hnot⟩
  have hkept : ∀ (provider provider' : DataProvider) (selected : List Metric),
      (∀ request ∈ provider.measurementRequests, (eventGroup request).supported) →
      (selected ++ provider'.measurementRequests).Perm provider.measurementRequests →
      ∀ request ∈ provider'.measurementRequests, (eventGroup request).supported := by
    intro provider provider' selected hall hperm request hrequest
    exact hall request (hperm.mem_iff.mp (List.mem_append_right selected hrequest))
  refine .inr ⟨hsupported, formRequestSet_conserves provider hsupported, ?_, ?_⟩
  · apply rounds_serve
      (fun provider => ∀ request ∈ provider.measurementRequests, (eventGroup request).supported)
    · exact fun provider hall => formRequestSet_conserves provider hall
    · intro provider selected provider' hall hrun
      obtain ⟨selected', provider'', hrun', hperm, -⟩ := formRequestSet_conserves provider hall
      rw [hrun'] at hrun
      obtain ⟨rfl, rfl⟩ := Prod.mk.inj (Outcome.ok.inj hrun)
      exact hkept provider _ _ hall hperm
    · exact hsupported
    · exact le_rfl
  · by_cases hnil : provider.measurementRequests = []
    · exact ⟨[], provider, by rw [hnil]; simp [rounds, hnil], hnil, .nil, fun request => by simp [hnil]⟩
    -- after the first round no request is there twice
    obtain ⟨count, hcount⟩ := Nat.exists_eq_succ_of_ne_zero (List.length_pos_iff.mpr hnil).ne'
    have hsorted := List.perm_insertionSort (· ≤ ·) provider.measurementRequests
    obtain ⟨unique, hunique⟩ : ∃ unique, unique =
        (provider.measurementRequests.insertionSort (· ≤ ·)).destutter (· ≠ ·) := ⟨_, rfl⟩
    have hdedup := hunique.trans (sort_unique provider.measurementRequests)
    have hmem : ∀ request, request ∈ unique ↔ request ∈ provider.measurementRequests := by
      intro request
      rw [hdedup, List.mem_dedup]
      exact hsorted.mem_iff
    have hnodup : unique.Nodup := hdedup ▸ List.nodup_dedup _
    have hshort : unique.length ≤ provider.measurementRequests.length := by
      rw [hdedup, ← hsorted.length_eq]
      exact (List.dedup_sublist _).length_le
    have hall : ∀ request ∈ unique, (eventGroup request).supported :=
      fun request hrequest => hsupported request ((hmem request).mp hrequest)
    have hne : unique ≠ [] := by
      obtain ⟨request, hrequest⟩ := List.exists_mem_of_ne_nil _ hnil
      exact List.ne_nil_of_mem ((hmem request).mpr hrequest)
    obtain ⟨selected, provider₁, hrun, hperm, hselected⟩ :=
      formRequestSet_conserves ⟨unique, provider.metric2papiset⟩ hall
    simp only at hperm hselected
    have hnodup₁ := hperm.nodup_iff.mpr hnodup
    have hlengths := hperm.length_eq
    have hpositive := List.length_pos_iff.mpr (hselected hne)
    rw [List.length_append] at hlengths
    have hlater : ∃ served provider', rounds DataProvider.measurementRequests
        (transferMeasurementRequests eventGroup) count provider₁ = .ok (served, provider') ∧
        provider'.measurementRequests = [] ∧
        served.flatten.Perm provider₁.measurementRequests := by
      apply rounds_serve fun provider : DataProvider =>
        (∀ request ∈ provider.measurementRequests, (eventGroup request).supported) ∧
          provider.measurementRequests.Nodup
      · exact fun provider hprovider => transfer_conserves hprovider.1 hprovider.2
      · intro provider selected provider' hprovider hrun
        obtain ⟨selected', provider'', hrun', hperm, -⟩ :=
          transfer_conserves hprovider.1 hprovider.2
        rw [hrun'] at hrun
        obtain ⟨rfl, rfl⟩ := Prod.mk.inj (Outcome.ok.inj hrun)
        exact ⟨hkept provider _ _ hprovider.1 hperm,
          (List.nodup_append.mp (hperm.nodup_iff.mpr hprovider.2)).2.1⟩
      · exact ⟨hkept ⟨unique, provider.metric2papiset⟩ _ _ hall hperm,
          (List.nodup_append.mp hnodup₁).2.1⟩
      · omega
    obtain ⟨later, provider', hrest, hdone, hserved⟩ := hlater
    have htotal : ((selected :: later).flatten).Perm unique := by
      rw [List.flatten_cons]
      exact (hserved.append_left selected).trans hperm
    refine ⟨selected :: later, provider', ?_, hdone, htotal.nodup_iff.mpr hnodup,
      fun request => htotal.mem_iff.trans (hmem request)⟩
    rw [hcount, rounds, List.isEmpty_eq_false_iff.mpr hnil, transferMeasurementRequests, ← hunique,
      hrun]
    simp only [Bool.false_eq_true, if_false, Outcome.ok_bind, hrest]
    rfl

theorem formRequestSet_not_total : ¬ ∀ (eventGroup : Metric → Group) (provider : DataProvider),
    Conserves DataProvider.measurementRequests (formRequestSet eventGroup) provider := by
  intro hall
  obtain ⟨selected, provider', hrun, -, -⟩ := hall (fun _ => .omp) ⟨[1], initializeMetric2papiset⟩
  rw [formRequestSet_aborts ⟨1, List.mem_singleton_self 1, by decide⟩] at hrun
  cases hrun

end Proofs
end ReadexPtf.Agents
