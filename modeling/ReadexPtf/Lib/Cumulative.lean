import Mathlib

/-! Running sums of weights, and the choice of a weight by a number below their total: the
first sum that is past the number. -/
namespace ReadexPtf
variable {K : Type*} [AddCommGroup K] [LinearOrder K] [IsOrderedAddMonoid K]

/-- The sums of the weights up to each of them, from `base` on. -/
def cumulative (base : K) : List K → List K
  | [] => []
  | w :: ws => (base + w) :: cumulative (base + w) ws

/-- What each sum adds to the one before it. -/
def increments (base : K) : List K → List K
  | [] => []
  | c :: cs => (c - base) :: increments c cs

/-- The index that `upper_bound` finds in a sorted vector. -/
def upperBound (cs : List K) (u : K) : ℕ := cs.findIdx fun c => u < c

omit [LinearOrder K] [IsOrderedAddMonoid K] in
@[simp] theorem increments_cumulative (base : K) (ws : List K) :
    increments base (cumulative base ws) = ws := by
  induction ws generalizing base with
  | nil => rfl
  | cons w ws ih => rw [cumulative, increments, ih, add_sub_cancel_left]

omit [LinearOrder K] [IsOrderedAddMonoid K] in
@[simp] theorem length_cumulative (base : K) (ws : List K) :
    (cumulative base ws).length = ws.length := by
  induction ws generalizing base with
  | nil => rfl
  | cons w ws ih => rw [cumulative, List.length_cons, ih, List.length_cons]

omit [AddCommGroup K] [IsOrderedAddMonoid K] in
theorem upperBound_cons (c : K) (cs : List K) (u : K) :
    upperBound (c :: cs) u = if u < c then 0 else upperBound cs u + 1 := by
  rw [upperBound, List.findIdx_cons]
  by_cases h : u < c
  · simp [h]
  · simp [h, upperBound]

/-- A number below the total chooses a weight, and one that is positive. -/
theorem upperBound_chooses {base u : K} {ws : List K} (hfrom : base ≤ u)
    (hto : u < base + ws.sum) :
    ∃ w, ws[upperBound (cumulative base ws) u]? = some w ∧ 0 < w := by
  induction ws generalizing base with
  | nil => exact absurd hto (by simpa using hfrom)
  | cons w ws ih =>
    rw [cumulative, upperBound_cons]
    by_cases h : u < base + w
    · rw [if_pos h]
      have hgain : base + 0 < base + w := (add_zero base).symm ▸ hfrom.trans_lt h
      exact ⟨w, rfl, lt_of_add_lt_add_left hgain⟩
    · rw [if_neg h, List.getElem?_cons_succ]
      exact ih (not_lt.mp h) (by rwa [List.sum_cons, ← add_assoc] at hto)

/-- Every positive weight is chosen by some number. -/
theorem exists_upperBound {base : K} {ws : List K} {w : K} {i : ℕ} (hnonneg : ∀ w ∈ ws, 0 ≤ w)
    (hw : ws[i]? = some w) (hpos : 0 < w) :
    ∃ u, base ≤ u ∧ u < base + ws.sum ∧ upperBound (cumulative base ws) u = i := by
  induction ws generalizing base i with
  | nil => exact absurd hw (by simp)
  | cons v ws ih =>
    rw [List.forall_mem_cons] at hnonneg
    have hrest : 0 ≤ ws.sum := List.sum_nonneg hnonneg.2
    cases i with
    | zero =>
      have hv : v = w := by simpa using hw
      refine ⟨base, le_rfl, ?_, ?_⟩
      · rw [List.sum_cons, hv]
        exact lt_add_of_pos_right base (add_pos_of_pos_of_nonneg hpos hrest)
      · rw [cumulative, upperBound_cons, if_pos (hv ▸ lt_add_of_pos_right base hpos)]
    | succ i =>
      obtain ⟨u, hfrom, hto, hu⟩ := @ih (base + v) i hnonneg.2 (by simpa using hw)
      refine ⟨u, (le_add_of_nonneg_right hnonneg.1).trans hfrom, ?_, ?_⟩
      · rwa [List.sum_cons, ← add_assoc]
      · rw [cumulative, upperBound_cons, if_neg hfrom.not_gt, hu]

end ReadexPtf
