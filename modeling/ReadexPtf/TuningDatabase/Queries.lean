import ReadexPtf.Lib.Traversal
import Mathlib

/-! The query for the configurations that are nearly as fast as the best one, over the cases
that a back end iterates through. -/
namespace ReadexPtf.TuningDatabase
open ReadexPtf
variable {α κ : Type}

/-- The second loop of the query: it breaks at the first case beyond the ratio. -/
def addWithinRatio (r minExecTime : ℚ) : List (α × ℚ) → List α
  | [] => []
  | (config, execTime) :: it =>
    if execTime > r * minExecTime then [] else config :: addWithinRatio r minExecTime it

/-- The cases that the iterator has left are a list. -/
def queryConfigurationsByRatio (it : List (α × ℚ)) (r : ℚ) : List α :=
  match it with
  | [] => []
  | (config, execTime) :: it => config :: addWithinRatio r execTime it

/-- `casez[ id ]` of the JSON back end, sorted by `lessTuningCase` when it was loaded. -/
def jsonQueryCases (sort : Traversal (α × ℚ)) (cases : List (α × ℚ)) : List (α × ℚ) :=
  sort.sort (fun c1 c2 => c1.2 < c2.2) cases

section Answers
variable (key : α → κ) (saved : List (α × ℚ))

def savedTimes : Set ℚ := {t | ∃ s ∈ saved, s.2 = t}

/-- The times of the cases that have the configuration. -/
def timesOf (config : κ) : Set ℚ := {t | ∃ s ∈ saved, key s.1 = config ∧ s.2 = t}

/-- The time is at most `r` times the least one. -/
def WithinRatio (r t : ℚ) : Prop := ∃ m, IsLeast (savedTimes saved) m ∧ t ≤ r * m

/-- What a query is to return: the configurations within the ratio, each of them once, by
their best times. A configuration is told by its key. -/
structure Answers (r : ℚ) (result : List α) : Prop where
  within : ∀ c ∈ result, ∃ s ∈ saved, key s.1 = key c ∧ WithinRatio saved r s.2
  all : ∀ s ∈ saved, WithinRatio saved r s.2 → ∃ c ∈ result, key c = key s.1
  once : (result.map key).Nodup
  ascending : result.Pairwise fun c c' => ∀ t t',
    IsLeast (timesOf key saved (key c)) t → IsLeast (timesOf key saved (key c')) t' → t ≤ t'

end Answers

section Sorted
variable {it : List (α × ℚ)} {r m : ℚ}

theorem addWithinRatio_eq (hsorted : it.Pairwise fun c c' => c.2 ≤ c'.2) :
    addWithinRatio r m it = (it.filter fun c => c.2 ≤ r * m).map Prod.fst := by
  induction it with
  | nil => rfl
  | cons c it ih =>
    rw [List.pairwise_cons] at hsorted
    rw [addWithinRatio]
    by_cases hbeyond : c.2 > r * m
    · have hnone : (c :: it).filter (fun c => c.2 ≤ r * m) = [] := by
        rw [List.filter_eq_nil_iff]
        intro c' hc'
        cases List.mem_cons.mp hc' with
        | inl hself => simpa [hself] using hbeyond
        | inr hrest => simpa using hbeyond.trans_le (hsorted.1 c' hrest)
      rw [if_pos hbeyond, hnone, List.map_nil]
    · rw [if_neg hbeyond, ih hsorted.2, List.filter_cons_of_pos (by simpa using hbeyond),
        List.map_cons]

/-- The first case counts as any other where the least time is within the ratio. -/
theorem queryConfigurationsByRatio_eq {config : α}
    (hsorted : ((config, m) :: it).Pairwise fun c c' => c.2 ≤ c'.2) (hm : m ≤ r * m) :
    queryConfigurationsByRatio ((config, m) :: it) r =
      (((config, m) :: it).filter fun c => c.2 ≤ r * m).map Prod.fst := by
  rw [queryConfigurationsByRatio, addWithinRatio_eq (List.pairwise_cons.mp hsorted).2,
    List.filter_cons_of_pos (by simpa using hm), List.map_cons]

end Sorted

section Iterated
variable {key : α → κ} {saved : List (α × ℚ)} {r m : ℚ}

/-- The cases of an iterator up to a time are those that were saved, as far as the
configurations and their best times go. -/
structure Iterates (key : α → κ) (saved it : List (α × ℚ)) (bound : ℚ) : Prop where
  sorted : it.Pairwise fun c c' => c.2 ≤ c'.2
  known : ∀ c ∈ it, c.2 ≤ bound → ∃ s ∈ saved, key s.1 = key c.1 ∧ s.2 = c.2
  iterated : ∀ s ∈ saved, s.2 ≤ bound → ∃ c ∈ it, key c.1 = key s.1 ∧ c.2 ≤ s.2

theorem withinRatio_iff (hm : IsLeast (savedTimes saved) m) {t : ℚ} :
    WithinRatio saved r t ↔ t ≤ r * m := by
  constructor
  · rintro ⟨m', hm', hle⟩
    exact hm.unique hm' ▸ hle
  · exact fun hle => ⟨m, hm, hle⟩

/-- A least time that is itself beyond the ratio is returned all the same. -/
theorem not_answers_of_beyond (hm : IsLeast (savedTimes saved) m) (hbeyond : r * m < m)
    {config : α} {it : List (α × ℚ)} :
    ¬ Answers key saved r (queryConfigurationsByRatio ((config, m) :: it) r) := by
  intro h
  obtain ⟨s, hs, -, hwithin⟩ := h.within config List.mem_cons_self
  rw [withinRatio_iff hm] at hwithin
  exact absurd (hm.2 ⟨s, hs, rfl⟩) (not_le.mpr (hwithin.trans_lt hbeyond))

/-- An iterator gives the right answer exactly where no configuration comes twice within
the ratio. -/
theorem answers_iff (hm : IsLeast (savedTimes saved) m) (hwithin : m ≤ r * m)
    {config : α} {it : List (α × ℚ)} (h : Iterates key saved ((config, m) :: it) (r * m)) :
    Answers key saved r (queryConfigurationsByRatio ((config, m) :: it) r) ↔
      ((((config, m) :: it).filter fun c => c.2 ≤ r * m).map fun c => key c.1).Nodup := by
  rw [queryConfigurationsByRatio_eq h.sorted hwithin]
  constructor
  · intro hanswers
    simpa [List.map_map, Function.comp_def] using hanswers.once
  · intro honce
    refine ⟨?_, ?_, by simpa [List.map_map, Function.comp_def] using honce, ?_⟩
    · intro c hc
      obtain ⟨x, hx, rfl⟩ := List.mem_map.mp hc
      obtain ⟨hx, hle⟩ := List.mem_filter.mp hx
      have hle : x.2 ≤ r * m := by simpa using hle
      obtain ⟨s, hs, hkey, htime⟩ := h.known x hx hle
      exact ⟨s, hs, hkey, (withinRatio_iff hm).mpr (htime ▸ hle)⟩
    · intro s hs hwithin
      rw [withinRatio_iff hm] at hwithin
      obtain ⟨x, hx, hkey, hle⟩ := h.iterated s hs hwithin
      refine ⟨x.1, List.mem_map_of_mem (List.mem_filter.mpr ⟨hx, ?_⟩), hkey⟩
      simpa using hle.trans hwithin
    · -- the case that is left of a configuration has its best time
      have hbest : ∀ x ∈ ((config, m) :: it).filter (fun c => c.2 ≤ r * m), ∀ t,
          IsLeast (timesOf key saved (key x.1)) t → t = x.2 := by
        intro x hx t ht
        obtain ⟨hmem, hle⟩ := List.mem_filter.mp hx
        have hle : x.2 ≤ r * m := by simpa using hle
        obtain ⟨s, hs, hkey, htime⟩ := h.known x hmem hle
        have htle : t ≤ x.2 := ht.2 ⟨s, hs, hkey, htime⟩
        obtain ⟨s', hs', hkey', rfl⟩ := ht.1
        obtain ⟨x', hx', hkey'', hle'⟩ := h.iterated s' hs' (htle.trans hle)
        have hx'mem : x' ∈ ((config, m) :: it).filter (fun c => c.2 ≤ r * m) :=
          List.mem_filter.mpr ⟨hx', by simpa using hle'.trans (htle.trans hle)⟩
        obtain rfl : x' = x :=
          List.inj_on_of_nodup_map honce hx'mem hx (hkey''.trans hkey')
        exact le_antisymm htle hle'
      rw [List.pairwise_map]
      refine (h.sorted.filter _).imp_of_mem fun {x x'} hx hx' hle t t' ht ht' => ?_
      rw [hbest x hx t ht, hbest x' hx' t' ht']
      exact hle

/-- The least time of the saved cases is within the ratio, and no configuration was saved
twice within it. -/
def DistinctWithin (key : α → κ) (saved : List (α × ℚ)) (r : ℚ) : Prop :=
  ∀ m, IsLeast (savedTimes saved) m → m ≤ r * m ∧
    ((saved.filter fun s => s.2 ≤ r * m).map fun s => key s.1).Nodup

theorem isLeast_of_perm {β : Type} {config : β} {it : List (β × ℚ)}
    (hperm : (((config, m) :: it).map Prod.snd).Perm (saved.map Prod.snd))
    (hsorted : ((config, m) :: it).Pairwise fun c c' => c.2 ≤ c'.2) :
    IsLeast (savedTimes saved) m := by
  have hmem : ∀ t, t ∈ savedTimes saved ↔ ∃ c ∈ (config, m) :: it, c.2 = t := by
    intro t
    rw [← List.mem_map, hperm.mem_iff, List.mem_map]
    rfl
  refine ⟨(hmem m).mpr ⟨_, List.mem_cons_self, rfl⟩, fun t ht => ?_⟩
  obtain ⟨c, hc, rfl⟩ := (hmem t).mp ht
  cases List.mem_cons.mp hc with
  | inl hself => exact hself ▸ le_rfl
  | inr hrest => exact (List.pairwise_cons.mp hsorted).1 c hrest

theorem iterates_of_perm {it : List (α × ℚ)} (hperm : it.Perm saved)
    (hsorted : it.Pairwise fun c c' => c.2 ≤ c'.2) (bound : ℚ) : Iterates key saved it bound :=
  ⟨hsorted, fun c hc _ => ⟨c, hperm.mem_iff.mp hc, rfl, rfl⟩,
    fun s hs _ => ⟨s, hperm.mem_iff.mpr hs, rfl, le_rfl⟩⟩

theorem answers_nil : Answers key [] r [] :=
  ⟨by simp, by simp, by simp, by simp⟩

/-- The JSON back end does not look for repeated configurations. -/
theorem json_answers_iff (sort : Traversal (α × ℚ)) (saved : List (α × ℚ)) (r : ℚ) :
    Answers key saved r (queryConfigurationsByRatio (jsonQueryCases sort saved) r) ↔
      DistinctWithin key saved r := by
  have hperm := sort.sort_perm (fun c1 c2 => c1.2 < c2.2) saved
  have hsorted := sort.sort_pairwise (fun c : α × ℚ => c.2) saved
  change (jsonQueryCases sort saved).Perm saved at hperm
  change (jsonQueryCases sort saved).Pairwise _ at hsorted
  generalize jsonQueryCases sort saved = it at hperm hsorted ⊢
  cases it with
  | nil =>
    obtain rfl := hperm.nil_eq
    refine iff_of_true answers_nil fun m hm => ?_
    obtain ⟨s, hs, -⟩ := hm.1
    simp at hs
  | cons first it =>
    obtain ⟨config, m⟩ := first
    have hm := isLeast_of_perm (hperm.map Prod.snd) hsorted
    have honce : ((((config, m) :: it).filter fun c => c.2 ≤ r * m).map fun c => key c.1).Nodup ↔
        ((saved.filter fun s => s.2 ≤ r * m).map fun s => key s.1).Nodup :=
      ((hperm.filter _).map _).nodup_iff
    by_cases hwithin : m ≤ r * m
    · rw [answers_iff hm hwithin (iterates_of_perm hperm hsorted _), honce]
      constructor
      · exact fun h m' hm' => hm.unique hm' ▸ ⟨hwithin, h⟩
      · exact fun h => (h m hm).2
    · refine iff_of_false (not_answers_of_beyond hm (not_le.mp hwithin)) fun h => ?_
      exact hwithin (h m hm).1

end Iterated

end ReadexPtf.TuningDatabase
