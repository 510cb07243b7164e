import ReadexPtf.Lib.OrdMap
import ReadexPtf.Lib.Outcome
import ReadexPtf.Lib.Traversal
import Mathlib

/-! The PCAP plugin's choice of the regions to tune: the longest running ones, by two
cutoffs of the total time and a least and a greatest number. -/
namespace ReadexPtf.Pcap
open ReadexPtf

/-- A region by the id that properties refer to it with. -/
structure Region where
  idForPropertyMatching : String
  deriving DecidableEq

/-- What the plugin reads of a property of the pre-analysis. -/
structure MetaProperty where
  regionId : String
  severity : ℚ

structure PCAPPlugin where
  code_region_candidates : OrdMap String Region
  regionExectimeMap : List (String × ℚ)
  firstTuningStep : Bool
  withParallelRegions : Bool
  withUserRegion : Bool
  firstCutOff : ℚ
  secondCutOff : ℚ
  minNoRegions : ℤ
  maxNoRegions : ℤ
  phase_region : Region
  /-- The regions of the search spaces that the search algorithm was given. -/
  searchAlgorithm : Option (List Region)

/-- The regions given to the search algorithm and their number. -/
structure Selection where
  noRegionsAdded : ℤ
  searchSpaces : List Region

variable (plugin : PCAPPlugin)

/-- `addRegionToSearchAlgorithm` of the candidate with the id. Where there is none, a null
pointer is dereferenced. -/
def addRegion (regionId : String) (s : Selection) : Outcome Selection :=
  match plugin.code_region_candidates.get? regionId with
  | some selected_region =>
    .ok ⟨s.noRegionsAdded + 1, s.searchSpaces ++ [selected_region]⟩
  | none => .undefined

/-- A loop over the sorted regions that breaks at the cutoff and at a number of regions. -/
def addUpTo (cutoff : ℚ) (limit : ℤ) : List (String × ℚ) → Selection → Outcome Selection
  | [], s => .ok s
  | (regionId, execTime) :: rest, s =>
    if execTime < cutoff then .ok s
    else do
      let s ← addRegion plugin regionId s
      if s.noRegionsAdded = limit then .ok s else addUpTo cutoff limit rest s

/-- The regions that are above the first cutoff. -/
def addAboveFirst (totalExecTime : ℚ) : List (String × ℚ) → Selection → Outcome Selection :=
  addUpTo plugin (plugin.firstCutOff * totalExecTime) plugin.maxNoRegions

/-- The regions between the cutoffs. -/
def addAboveSecond (totalExecTime : ℚ) : List (String × ℚ) → Selection → Outcome Selection
  | [], s => .ok s
  | (regionId, execTime) :: rest, s =>
    if execTime < plugin.secondCutOff * totalExecTime then .ok s
    else if execTime ≥ plugin.firstCutOff * totalExecTime then
      addAboveSecond totalExecTime rest s
    else do
      let s ← addRegion plugin regionId s
      if s.noRegionsAdded = plugin.minNoRegions then .ok s
      else addAboveSecond totalExecTime rest s

/-- The loop runs over all of the regions and adds `regionExectimeMap[ 0 ]` each time. -/
def addFirstFew (regionExectimeMap : List (String × ℚ)) :
    List (String × ℚ) → Selection → Outcome Selection
  | [], s => .ok s
  | _ :: rest, s => do
    let first ← Outcome.elementAt regionExectimeMap 0
    let s ← addRegion plugin first.1 s
    if s.noRegionsAdded = plugin.minNoRegions then .ok s
    else addFirstFew regionExectimeMap rest s

/-- The map with the new regions, sorted according to decreasing execution time. -/
def sortedRegions (sort : Traversal (String × ℚ)) (found_properties : List MetaProperty) :
    List (String × ℚ) :=
  sort.sort (fun firstPair secondPair => firstPair.2 > secondPair.2)
    (plugin.regionExectimeMap ++
      found_properties.map fun property => (property.regionId, property.severity))

def totalTime (found_properties : List MetaProperty) : ℚ :=
  (found_properties.map MetaProperty.severity).sum

/-- The part of the method that is for parallel regions. -/
def selectRegions (sort : Traversal (String × ℚ)) (found_properties : List MetaProperty)
    (searchSpaces : List Region) : Outcome Selection := do
  let totalExecTime := totalTime found_properties
  let regionExectimeMap := sortedRegions plugin sort found_properties
  let s ← addAboveFirst plugin totalExecTime regionExectimeMap ⟨0, searchSpaces⟩
  let s ← if s.noRegionsAdded < plugin.minNoRegions then
    addAboveSecond plugin totalExecTime regionExectimeMap s else .ok s
  if s.noRegionsAdded = 0 then addFirstFew plugin regionExectimeMap regionExectimeMap s
  else .ok s

/-- The search spaces are added once, although the method is called for every round. -/
def createScenarios2EnergyTuning (sort : Traversal (String × ℚ))
    (found_properties : List MetaProperty) : Outcome PCAPPlugin :=
  match plugin.searchAlgorithm with
  | none => .throws "NULL_REFERENCE"
  | some searchSpaces =>
    if plugin.firstTuningStep then do
      let s ← if plugin.withParallelRegions then
        selectRegions plugin sort found_properties searchSpaces else .ok ⟨0, searchSpaces⟩
      let searchSpaces := if !plugin.withParallelRegions || plugin.withUserRegion then
        s.searchSpaces ++ [plugin.phase_region] else s.searchSpaces
      .ok { plugin with
        firstTuningStep := false
        regionExectimeMap := if plugin.withParallelRegions then
          sortedRegions plugin sort found_properties else plugin.regionExectimeMap
        searchAlgorithm := some searchSpaces }
    else .ok plugin

/-- The properties of regions with their times. -/
def propertiesOf (regions : List (Region × ℚ)) : List MetaProperty :=
  regions.map fun r => ⟨r.1.idForPropertyMatching, r.2⟩

def timeOf (regions : List (Region × ℚ)) : ℚ := (regions.map Prod.snd).sum

/-- Distinct candidates and how long they ran. -/
structure Measured (regions : List (Region × ℚ)) : Prop where
  candidates : ∀ r ∈ regions,
    plugin.code_region_candidates.get? r.1.idForPropertyMatching = some r.1
  distinct : (regions.map Prod.fst).Nodup
  times : ∀ r ∈ regions, 0 ≤ r.2

/-- The plugin before its first tuning step, with cutoffs and numbers that go together. -/
structure PCAPPlugin.Configured : Prop where
  fresh : plugin.regionExectimeMap = []
  cutoffs : plugin.secondCutOff ≤ plugin.firstCutOff
  least : 1 ≤ plugin.minNoRegions
  greatest : plugin.minNoRegions ≤ plugin.maxNoRegions

/-- A selection of the regions as it is meant to be. -/
structure Selects (regions : List (Region × ℚ)) (selected : List Region) : Prop where
  measured : ∀ region ∈ selected, region ∈ regions.map Prod.fst
  once : selected.Nodup
  atMost : selected.length ≤ plugin.maxNoRegions
  longest : ∀ r ∈ regions, r.1 ∈ selected → ∀ r' ∈ regions, r'.1 ∉ selected → r'.2 ≤ r.2
  few : (∀ r ∈ regions, r.2 < plugin.firstCutOff * timeOf regions ∧
    r.2 < plugin.secondCutOff * timeOf regions) →
    selected.length = min plugin.minNoRegions regions.length

/-- The method returns having added such a selection. -/
def SelectsRegions (sort : Traversal (String × ℚ)) (regions : List (Region × ℚ))
    (searchSpaces : List Region) : Prop :=
  ∃ s selected, selectRegions plugin sort (propertiesOf regions) searchSpaces = .ok s ∧
    s.searchSpaces = searchSpaces ++ selected ∧ Selects plugin regions selected

section Loops
variable {plugin} {regions : List (Region × ℚ)} {totalExecTime : ℚ}

def exectime (r : Region × ℚ) : String × ℚ := (r.1.idForPropertyMatching, r.2)

def Selection.add (s : Selection) (regions : List (Region × ℚ)) : Selection where
  noRegionsAdded := s.noRegionsAdded + regions.length
  searchSpaces := s.searchSpaces ++ regions.map Prod.fst

theorem Selection.add_nil (s : Selection) : s.add [] = s := by simp [add]

theorem Selection.add_add (s : Selection) (xs ys : List (Region × ℚ)) :
    (s.add xs).add ys = s.add (xs ++ ys) := by
  simp only [add, List.length_append, List.map_append, List.append_assoc]
  push_cast
  rw [add_assoc]

theorem addRegion_candidate {r : Region × ℚ}
    (h : plugin.code_region_candidates.get? r.1.idForPropertyMatching = some r.1)
    (s : Selection) : addRegion plugin r.1.idForPropertyMatching s = .ok (s.add [r]) := by
  simp only [addRegion, h]
  rfl

theorem addUpTo_cons (cutoff : ℚ) (limit : ℤ) (r : Region × ℚ) (s : Selection) :
    addUpTo plugin cutoff limit ((r :: regions).map exectime) s =
      if r.2 < cutoff then .ok s else
        addRegion plugin r.1.idForPropertyMatching s >>= fun s =>
          if s.noRegionsAdded = limit then .ok s
          else addUpTo plugin cutoff limit (regions.map exectime) s :=
  rfl

/-- Such a loop adds the regions above the cutoff, up to the number. -/
theorem addUpTo_spec {cutoff : ℚ} {limit : ℤ}
    (hsorted : regions.Pairwise fun r r' => r'.2 ≤ r.2)
    (hcand : ∀ r ∈ regions,
      plugin.code_region_candidates.get? r.1.idForPropertyMatching = some r.1)
    {s : Selection} (hs : s.noRegionsAdded < limit) :
    ∃ taken rest, regions = taken ++ rest ∧
      addUpTo plugin cutoff limit (regions.map exectime) s = .ok (s.add taken) ∧
      (∀ r ∈ taken, cutoff ≤ r.2) ∧ s.noRegionsAdded + taken.length ≤ limit ∧
      (s.noRegionsAdded + taken.length = limit ∨ ∀ r ∈ rest, r.2 < cutoff) := by
  induction regions generalizing s with
  | nil =>
    exact ⟨[], [], rfl, by simp [addUpTo, Selection.add_nil], by simp, by simpa using hs.le,
      .inr (by simp)⟩
  | cons r regions ih =>
    rw [List.pairwise_cons] at hsorted
    rw [List.forall_mem_cons] at hcand
    rw [addUpTo_cons]
    by_cases hbelow : r.2 < cutoff
    · refine ⟨[], r :: regions, rfl, by rw [if_pos hbelow, Selection.add_nil], by simp,
        by simpa using hs.le, .inr ?_⟩
      exact List.forall_mem_cons.mpr ⟨hbelow, fun r' h => (hsorted.1 r' h).trans_lt hbelow⟩
    · rw [if_neg hbelow, addRegion_candidate hcand.1, Outcome.ok_bind]
      by_cases hfull : (s.add [r]).noRegionsAdded = limit
      · exact ⟨[r], regions, rfl, by rw [if_pos hfull], by simpa using hbelow, hfull.le, .inl hfull⟩
      · have hless : (s.add [r]).noRegionsAdded < limit := by
          simp only [Selection.add, List.length_singleton] at hfull ⊢
          omega
        obtain ⟨taken, rest, hsplit, hrun, habove, hle, hend⟩ := ih hsorted.2 hcand.2 hless
        have hcount : s.noRegionsAdded + ((r :: taken).length : ℤ) =
            (s.add [r]).noRegionsAdded + taken.length := by
          simp only [Selection.add, List.length_cons, List.length_nil]
          push_cast
          ring
        refine ⟨r :: taken, rest, by rw [hsplit, List.cons_append], ?_, ?_, ?_, ?_⟩
        · rw [if_neg hfull, hrun, Selection.add_add, List.singleton_append]
        · exact List.forall_mem_cons.mpr ⟨not_lt.mp hbelow, habove⟩
        · rw [hcount]
          exact hle
        · rw [hcount]
          exact hend

/-- The second loop passes over what the first cutoff lets through. -/
theorem addAboveSecond_skip {taken rest : List (Region × ℚ)}
    (hcut : plugin.secondCutOff * totalExecTime ≤ plugin.firstCutOff * totalExecTime)
    (habove : ∀ r ∈ taken, plugin.firstCutOff * totalExecTime ≤ r.2) (s : Selection) :
    addAboveSecond plugin totalExecTime ((taken ++ rest).map exectime) s =
      addAboveSecond plugin totalExecTime (rest.map exectime) s := by
  induction taken with
  | nil => rfl
  | cons r taken ih =>
    rw [List.forall_mem_cons] at habove
    have hsecond : ¬ (exectime r).2 < plugin.secondCutOff * totalExecTime :=
      not_lt.mpr (hcut.trans habove.1)
    have hfirst : (exectime r).2 ≥ plugin.firstCutOff * totalExecTime := habove.1
    rw [List.cons_append, List.map_cons, addAboveSecond, if_neg hsecond, if_pos hfirst,
      ih habove.2]

/-- Below the first cutoff it is a loop like the first one. -/
theorem addAboveSecond_left (hleft : ∀ r ∈ regions, r.2 < plugin.firstCutOff * totalExecTime)
    (s : Selection) : addAboveSecond plugin totalExecTime (regions.map exectime) s =
      addUpTo plugin (plugin.secondCutOff * totalExecTime) plugin.minNoRegions
        (regions.map exectime) s := by
  induction regions generalizing s with
  | nil => rfl
  | cons r regions ih =>
    rw [List.forall_mem_cons] at hleft
    have hfirst : ¬ (exectime r).2 ≥ plugin.firstCutOff * totalExecTime := not_le.mpr hleft.1
    rw [List.map_cons, addAboveSecond, if_neg hfirst, addUpTo]
    simp only [ih hleft.2]

/-- The last loop adds the first region again and again. -/
theorem addFirstFew_spec {r : Region × ℚ} {all : List (String × ℚ)}
    (hfirst : all[0]? = some (exectime r))
    (hcand : plugin.code_region_candidates.get? r.1.idForPropertyMatching = some r.1)
    {s : Selection} (hs : s.noRegionsAdded < plugin.minNoRegions) :
    ∃ n, addFirstFew plugin all (regions.map exectime) s = .ok (s.add (List.replicate n r)) ∧
      s.noRegionsAdded + n =
        min plugin.minNoRegions (s.noRegionsAdded + regions.length) := by
  induction regions generalizing s with
  | nil =>
    refine ⟨0, by simp [addFirstFew, Selection.add_nil], ?_⟩
    simp [hs.le]
  | cons r' regions ih =>
    have hread : Outcome.elementAt all 0 = .ok (exectime r) :=
      Outcome.elementAt_eq_ok.mpr ⟨le_rfl, hfirst⟩
    have hadd : addRegion plugin (exectime r).1 s = .ok (s.add [r]) := addRegion_candidate hcand s
    have hcount : (s.add [r]).noRegionsAdded = s.noRegionsAdded + 1 := rfl
    rw [List.map_cons, addFirstFew, hread, Outcome.ok_bind, hadd, Outcome.ok_bind]
    by_cases hfull : (s.add [r]).noRegionsAdded = plugin.minNoRegions
    · refine ⟨1, by rw [if_pos hfull, List.replicate_one], ?_⟩
      rw [List.length_cons]
      push_cast
      omega
    · obtain ⟨n, hrun, hn⟩ := ih (s := s.add [r]) (by omega)
      refine ⟨n + 1, by rw [if_neg hfull, hrun, Selection.add_add, List.singleton_append]; rfl, ?_⟩
      rw [List.length_cons]
      push_cast
      omega

/-- The regions in the order of the sorted map. -/
theorem sortedRegions_eq (hfresh : plugin.regionExectimeMap = [])
    (sort : Traversal (String × ℚ)) : ∃ sorted : List (Region × ℚ), sorted.Perm regions ∧
      sortedRegions plugin sort (propertiesOf regions) = sorted.map exectime ∧
      sorted.Pairwise fun r r' => r'.2 ≤ r.2 := by
  have hmap : plugin.regionExectimeMap ++ (propertiesOf regions).map
      (fun property => (property.regionId, property.severity)) = regions.map exectime := by
    rw [hfresh, propertiesOf, List.map_map]
    rfl
  have hperm := sort.sort_perm (fun firstPair secondPair => firstPair.2 > secondPair.2)
    (regions.map exectime)
  obtain ⟨sorted, hsorted, heq⟩ := Traversal.exists_of_perm_map hperm
  refine ⟨sorted, hsorted, by rw [sortedRegions, hmap, heq], ?_⟩
  have hpairwise := sort.sort_pairwise (fun p => OrderDual.toDual p.2) (regions.map exectime)
  have horder : (sorted.map exectime).Pairwise fun p p' => p'.2 ≤ p.2 := heq ▸ hpairwise
  exact List.pairwise_map.mp horder

theorem totalTime_eq : totalTime (propertiesOf regions) = timeOf regions := by
  rw [totalTime, timeOf, propertiesOf, List.map_map]
  rfl

theorem timeOf_nonneg (h : Measured plugin regions) : 0 ≤ timeOf regions := by
  apply List.sum_nonneg
  intro t ht
  obtain ⟨r, hr, rfl⟩ := List.mem_map.mp ht
  exact h.times r hr

/-- Whatever stands first in the sorted list is a selection, but for its size where no
region reaches a cutoff. -/
theorem selects_of_taken (h : Measured plugin regions) {taken rest : List (Region × ℚ)}
    (hperm : (taken ++ rest).Perm regions)
    (hsorted : (taken ++ rest).Pairwise fun r r' => r'.2 ≤ r.2)
    (hatMost : taken.length ≤ plugin.maxNoRegions)
    (hfew : (∀ r ∈ regions, r.2 < plugin.firstCutOff * timeOf regions ∧
      r.2 < plugin.secondCutOff * timeOf regions) →
      taken.length = min plugin.minNoRegions regions.length) :
    Selects plugin regions (taken.map Prod.fst) := by
  have hdistinct : ((taken ++ rest).map Prod.fst).Nodup :=
    (hperm.map Prod.fst).nodup_iff.mpr h.distinct
  refine ⟨?_, ?_, by simpa using hatMost, ?_, by simpa using hfew⟩
  · intro region hregion
    rw [← (hperm.map Prod.fst).mem_iff, List.map_append]
    exact List.mem_append_left _ hregion
  · rw [List.map_append] at hdistinct
    exact hdistinct.of_append_left
  · intro r hr hin r' hr' hout
    rw [← hperm.mem_iff] at hr hr'
    obtain ⟨t, ht, heq⟩ := List.mem_map.mp hin
    obtain rfl : t = r :=
      List.inj_on_of_nodup_map hdistinct (List.mem_append_left _ ht) hr heq
    have hrest : r' ∈ rest := by
      cases List.mem_append.mp hr' with
      | inl htaken => exact absurd (List.mem_map_of_mem htaken) hout
      | inr hrest => exact hrest
    exact (List.pairwise_append.mp hsorted).2.2 t ht r' hrest

/-- Where a region reaches the lower cutoff, the two loops select the first regions of the
sorted list, and they select one at least. -/
theorem selectRegions_reached (hplugin : plugin.Configured) (h : Measured plugin regions)
    (sort : Traversal (String × ℚ)) (searchSpaces : List Region)
    (hreached : ∃ r ∈ regions, plugin.secondCutOff * timeOf regions ≤ r.2) :
    ∃ taken rest, (taken ++ rest).Perm regions ∧
      (taken ++ rest).Pairwise (fun r r' => r'.2 ≤ r.2) ∧
      taken.length ≤ plugin.maxNoRegions ∧
      selectRegions plugin sort (propertiesOf regions) searchSpaces =
        .ok (Selection.add ⟨0, searchSpaces⟩ taken) := by
  have hleast := hplugin.least
  have hgreatest := hplugin.greatest
  have hcut := mul_le_mul_of_nonneg_right hplugin.cutoffs (timeOf_nonneg h)
  obtain ⟨sorted, hperm, hmap, hsorted⟩ := @sortedRegions_eq plugin regions hplugin.fresh sort
  have hcand : ∀ r ∈ sorted,
      plugin.code_region_candidates.get? r.1.idForPropertyMatching = some r.1 :=
    fun r hr => h.candidates r (hperm.mem_iff.mp hr)
  obtain ⟨r₀, hr₀, hreach⟩ := hreached
  rw [← hperm.mem_iff] at hr₀
  simp only [selectRegions, hmap, totalTime_eq]
  obtain ⟨taken, rest, rfl, hrun, habove, hle, hend⟩ := @addUpTo_spec plugin sorted
    (plugin.firstCutOff * timeOf regions) plugin.maxNoRegions hsorted hcand
    ⟨0, searchSpaces⟩ (by simp only; omega)
  rw [addAboveFirst, hrun, Outcome.ok_bind]
  simp only [zero_add] at hle hend
  by_cases henough : (taken.length : ℤ) < plugin.minNoRegions
  · have hleft : ∀ r ∈ rest, r.2 < plugin.firstCutOff * timeOf regions :=
      hend.resolve_left (by omega)
    rw [List.pairwise_append] at hsorted
    obtain ⟨more, rest', rfl, hrun', -, hle', hend'⟩ := @addUpTo_spec plugin rest
      (plugin.secondCutOff * timeOf regions) plugin.minNoRegions hsorted.2.1
      (fun r hr => hcand r (List.mem_append_right _ hr)) (Selection.add ⟨0, searchSpaces⟩ taken)
      (by simpa only [Selection.add, zero_add] using henough)
    have hsome : ((taken ++ more).length : ℤ) ≠ 0 := by
      intro hzero
      obtain ⟨rfl, rfl⟩ : taken = [] ∧ more = [] := by
        rw [← List.append_eq_nil_iff, ← List.length_eq_zero_iff]
        exact_mod_cast hzero
      have hnone := hend'.resolve_left (by simp [Selection.add]; omega)
      exact absurd (hnone r₀ (by simpa using hr₀)) (not_lt.mpr hreach)
    have hif : (Selection.add ⟨0, searchSpaces⟩ taken).noRegionsAdded < plugin.minNoRegions := by
      simpa only [Selection.add, zero_add] using henough
    refine ⟨taken ++ more, rest', by rwa [List.append_assoc], ?_, ?_, ?_⟩
    · rw [List.append_assoc]
      exact List.pairwise_append.mpr hsorted
    · simp only [Selection.add, zero_add] at hle'
      rw [List.length_append]
      push_cast
      omega
    · rw [if_pos hif, addAboveSecond_skip hcut habove, addAboveSecond_left hleft, hrun',
        Outcome.ok_bind, Selection.add_add, if_neg]
      simpa only [Selection.add, zero_add] using hsome
  · have hif : ¬ (Selection.add ⟨0, searchSpaces⟩ taken).noRegionsAdded < plugin.minNoRegions := by
      simpa only [Selection.add, zero_add] using henough
    refine ⟨taken, rest, hperm, hsorted, hle, ?_⟩
    rw [if_neg hif, Outcome.ok_bind, if_neg]
    simp only [Selection.add, zero_add]
    omega

/-- Where none does, the longest running region is added up to the least number of times. -/
theorem selectRegions_none (hplugin : plugin.Configured) (h : Measured plugin regions)
    (sort : Traversal (String × ℚ)) (searchSpaces : List Region)
    (hnone : ∀ r ∈ regions, r.2 < plugin.secondCutOff * timeOf regions)
    {first : Region × ℚ} {rest : List (Region × ℚ)} (hperm : (first :: rest).Perm regions)
    (hmap : sortedRegions plugin sort (propertiesOf regions) = (first :: rest).map exectime) :
    ∃ n : ℕ, (n : ℤ) = min plugin.minNoRegions regions.length ∧
      selectRegions plugin sort (propertiesOf regions) searchSpaces =
        .ok (Selection.add ⟨0, searchSpaces⟩ (List.replicate n first)) := by
  have hleast := hplugin.least
  have hcut := mul_le_mul_of_nonneg_right hplugin.cutoffs (timeOf_nonneg h)
  have hbelow : first.2 < plugin.secondCutOff * timeOf regions :=
    hnone first (hperm.mem_iff.mp List.mem_cons_self)
  have hcand := h.candidates first (hperm.mem_iff.mp List.mem_cons_self)
  have hfirst : addAboveFirst plugin (timeOf regions) ((first :: rest).map exectime)
      ⟨0, searchSpaces⟩ = .ok ⟨0, searchSpaces⟩ := by
    rw [addAboveFirst, addUpTo_cons, if_pos (hbelow.trans_le hcut)]
  have hsecond : addAboveSecond plugin (timeOf regions) ((first :: rest).map exectime)
      ⟨0, searchSpaces⟩ = .ok ⟨0, searchSpaces⟩ := by
    have hbelow' : (exectime first).2 < plugin.secondCutOff * timeOf regions := hbelow
    rw [List.map_cons, addAboveSecond, if_pos hbelow']
  obtain ⟨n, hrun, hn⟩ := @addFirstFew_spec plugin (first :: rest) first
    ((first :: rest).map exectime) rfl hcand ⟨0, searchSpaces⟩
    (by simp only; omega)
  refine ⟨n, ?_, ?_⟩
  · rw [← hperm.length_eq]
    simpa using hn
  · simp only [selectRegions, hmap, totalTime_eq, hfirst, Outcome.ok_bind]
    rw [if_pos (by omega), hsecond, Outcome.ok_bind, if_pos rfl, hrun]

end Loops

/-- A region that is added more than once is no selection. -/
theorem le_one_of_repeated {plugin : PCAPPlugin} {regions : List (Region × ℚ)}
    {sort : Traversal (String × ℚ)} {searchSpaces : List Region} {first : Region × ℚ} {n : ℕ}
    (hrun : selectRegions plugin sort (propertiesOf regions) searchSpaces =
      .ok (Selection.add ⟨0, searchSpaces⟩ (List.replicate n first)))
    (h : SelectsRegions plugin sort regions searchSpaces) : n ≤ 1 := by
  obtain ⟨s, selected, hrun', hspaces, hselects⟩ := h
  obtain rfl := Outcome.ok.inj (hrun.symm.trans hrun')
  obtain rfl : (List.replicate n first).map Prod.fst = selected := List.append_cancel_left hspaces
  have honce := hselects.once
  rw [List.map_replicate, List.nodup_replicate] at honce
  exact honce

/-- The selection is as it is meant to be exactly where the loop that adds the first region
again and again is not reached, or runs once at most. -/
theorem selectsRegions_iff {plugin : PCAPPlugin} {regions : List (Region × ℚ)}
    (hplugin : plugin.Configured) (h : Measured plugin regions) (sort : Traversal (String × ℚ))
    (searchSpaces : List Region) : SelectsRegions plugin sort regions searchSpaces ↔
      (∃ r ∈ regions, plugin.secondCutOff * timeOf regions ≤ r.2) ∨ regions.length ≤ 1 ∨
        plugin.minNoRegions = 1 := by
  have hleast := hplugin.least
  by_cases hreached : ∃ r ∈ regions, plugin.secondCutOff * timeOf regions ≤ r.2
  · simp only [hreached, true_or, iff_true]
    obtain ⟨taken, rest, hperm, hsorted, hatMost, hrun⟩ :=
      selectRegions_reached hplugin h sort searchSpaces hreached
    refine ⟨_, taken.map Prod.fst, hrun, rfl, selects_of_taken h hperm hsorted hatMost ?_⟩
    intro hnone
    obtain ⟨r, hr, hreach⟩ := hreached
    exact absurd (hnone r hr).2 (not_lt.mpr hreach)
  · have hnone : ∀ r ∈ regions, r.2 < plugin.secondCutOff * timeOf regions :=
      fun r hr => not_le.mp fun hle => hreached ⟨r, hr, hle⟩
    simp only [hreached, false_or]
    obtain ⟨sorted, hperm, hmap, hsorted⟩ :=
      @sortedRegions_eq plugin regions hplugin.fresh sort
    cases sorted with
    | nil =>
      obtain rfl := hperm.nil_eq
      have hrun : selectRegions plugin sort (propertiesOf []) searchSpaces =
          .ok ⟨0, searchSpaces⟩ := by
        simp [selectRegions, hmap, addAboveFirst, addUpTo, addAboveSecond, addFirstFew]
      refine iff_of_true ⟨_, [], hrun, by simp, ?_⟩ (.inl (by simp))
      have hmax : 0 ≤ plugin.maxNoRegions := by
        have hgreatest := hplugin.greatest
        omega
      exact ⟨by simp, by simp, by simpa using hmax, by simp, fun _ => by simp; omega⟩
    | cons first rest =>
      obtain ⟨n, hn, hrun⟩ := selectRegions_none hplugin h sort searchSpaces hnone hperm hmap
      constructor
      · intro hselects
        have hn1 := le_one_of_repeated hrun hselects
        omega
      · intro hone
        have hlength := hperm.length_eq
        rw [List.length_cons] at hlength
        obtain rfl : n = 1 := by omega
        refine ⟨_, _, hrun, rfl, ?_⟩
        refine @selects_of_taken plugin _ h _ rest hperm hsorted ?_ fun _ => hn
        simpa using hleast.trans hplugin.greatest

/-- A tuning step that is not the first adds nothing, and the first one asks for the selection. -/
theorem createScenarios2EnergyTuning_cases {plugin : PCAPPlugin} {searchSpaces : List Region}
    (halgorithm : plugin.searchAlgorithm = some searchSpaces) (sort : Traversal (String × ℚ))
    (found_properties : List MetaProperty) :
    (plugin.firstTuningStep = false →
      createScenarios2EnergyTuning plugin sort found_properties = .ok plugin) ∧
    (plugin.firstTuningStep = true → plugin.withParallelRegions = true →
      plugin.withUserRegion = false → ∀ s,
      selectRegions plugin sort found_properties searchSpaces = .ok s →
      ∃ plugin', createScenarios2EnergyTuning plugin sort found_properties = .ok plugin' ∧
        plugin'.searchAlgorithm = some s.searchSpaces ∧ plugin'.firstTuningStep = false) := by
  constructor
  · intro hlater
    simp [createScenarios2EnergyTuning, halgorithm, hlater]
  · intro hfirst hparallel huser s hrun
    simp [createScenarios2EnergyTuning, halgorithm, hfirst, hparallel, huser, hrun]

/-- A plugin for two regions, between them the whole time, that are both to be tuned. -/
def twoRegions : PCAPPlugin where
  code_region_candidates := (OrdMap.empty.set "solve" ⟨"solve"⟩).set "print" ⟨"print"⟩
  regionExectimeMap := []
  firstTuningStep := true
  withParallelRegions := true
  withUserRegion := false
  firstCutOff := 0.9
  secondCutOff := 0.6
  minNoRegions := 2
  maxNoRegions := 2
  phase_region := ⟨"phase"⟩
  searchAlgorithm := some []

theorem twoRegions_configured : twoRegions.Configured :=
  ⟨rfl, by norm_num [twoRegions], by norm_num [twoRegions], by norm_num [twoRegions]⟩

theorem twoRegions_measured {t t' : ℚ} (ht : 0 ≤ t) (ht' : 0 ≤ t') :
    Measured twoRegions [(⟨"solve"⟩, t), (⟨"print"⟩, t')] := by
  refine ⟨?_, by simp, by simpa using ⟨ht, ht'⟩⟩
  intro r hr
  obtain rfl | rfl : r = (⟨"solve"⟩, t) ∨ r = (⟨"print"⟩, t') := by simpa using hr
  · rfl
  · rfl

theorem selectsRegions_twoRegions :
    SelectsRegions twoRegions .inserted [(⟨"solve"⟩, 2), (⟨"print"⟩, 1)] [] :=
  (selectsRegions_iff twoRegions_configured (twoRegions_measured (by norm_num) (by norm_num))
    .inserted []).mpr (.inl ⟨(⟨"solve"⟩, 2), by simp, by norm_num [twoRegions, timeOf]⟩)

/-- Two regions that each take half of the time: the same one is added twice. -/
theorem not_selectsRegions : ¬ ∀ (plugin : PCAPPlugin) (regions : List (Region × ℚ)),
    plugin.Configured → Measured plugin regions → ∀ (sort : Traversal (String × ℚ))
    (searchSpaces : List Region), SelectsRegions plugin sort regions searchSpaces := by
  intro h
  have hmeasured := twoRegions_measured (zero_le_one' ℚ) (zero_le_one' ℚ)
  have hselects := h twoRegions _ twoRegions_configured hmeasured .inserted []
  obtain ⟨sorted, hperm, hmap, -⟩ :=
    @sortedRegions_eq twoRegions [(⟨"solve"⟩, 1), (⟨"print"⟩, 1)] rfl
      .inserted
  cases sorted with
  | nil => simpa using hperm.length_eq
  | cons first rest =>
    obtain ⟨n, hn, hrun⟩ := selectRegions_none twoRegions_configured hmeasured .inserted []
      (by norm_num [twoRegions, timeOf]) hperm hmap
    have hone := le_one_of_repeated hrun hselects
    simp only [twoRegions, List.length_cons, List.length_nil] at hn
    omega

end ReadexPtf.Pcap
