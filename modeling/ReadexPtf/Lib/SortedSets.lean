import Mathlib

/-! The merges `std::set_intersection` and `std::set_difference` of sorted ranges. -/
namespace ReadexPtf
variable {α : Type*} [LinearOrder α]

def setIntersection : List α → List α → List α
  | [], _ => []
  | _, [] => []
  | x :: xs, y :: ys =>
    if x < y then setIntersection xs (y :: ys)
    else if y < x then setIntersection (x :: xs) ys
    else x :: setIntersection xs ys
termination_by xs ys => xs.length + ys.length

def setDifference : List α → List α → List α
  | [], _ => []
  | xs, [] => xs
  | x :: xs, y :: ys =>
    if x < y then x :: setDifference xs (y :: ys)
    else if y < x then setDifference (x :: xs) ys
    else setDifference xs ys
termination_by xs ys => xs.length + ys.length

theorem notMem_of_lt_head {a y : α} {ys : List α} (hys : (y :: ys).Pairwise (· ≤ ·))
    (h : a < y) : a ∉ y :: ys := by
  intro hmem
  cases List.mem_cons.mp hmem with
  | inl hself => exact h.ne hself
  | inr hrest => exact h.not_ge ((List.pairwise_cons.mp hys).1 a hrest)

theorem mem_setIntersection {xs ys : List α} (hxs : xs.Pairwise (· ≤ ·))
    (hys : ys.Pairwise (· ≤ ·)) {a : α} : a ∈ setIntersection xs ys ↔ a ∈ xs ∧ a ∈ ys := by
  fun_induction setIntersection xs ys with
  | case1 ys => simp
  | case2 xs => simp
  | case3 x xs y ys hlt ih =>
    rw [ih (List.pairwise_cons.mp hxs).2 hys]
    refine ⟨fun h => ⟨List.mem_cons_of_mem x h.1, h.2⟩, fun h => ⟨?_, h.2⟩⟩
    refine (List.mem_cons.mp h.1).resolve_left fun hself => ?_
    exact notMem_of_lt_head hys hlt (hself ▸ h.2)
  | case4 x xs y ys _ hlt ih =>
    rw [ih hxs (List.pairwise_cons.mp hys).2]
    refine ⟨fun h => ⟨h.1, List.mem_cons_of_mem y h.2⟩, fun h => ⟨h.1, ?_⟩⟩
    refine (List.mem_cons.mp h.2).resolve_left fun hself => ?_
    exact notMem_of_lt_head hxs hlt (hself ▸ h.1)
  | case5 x xs y ys hxy hyx ih =>
    have heq : x = y := le_antisymm (not_lt.mp hyx) (not_lt.mp hxy)
    rw [List.mem_cons, ih (List.pairwise_cons.mp hxs).2 (List.pairwise_cons.mp hys).2, ← heq,
      List.mem_cons, List.mem_cons]
    by_cases hself : a = x <;> simp [hself]

theorem setIntersection_sublist (xs ys : List α) : (setIntersection xs ys).Sublist xs := by
  fun_induction setIntersection xs ys with
  | case1 ys => exact .refl _
  | case2 xs => exact List.nil_sublist _
  | case3 x xs y ys _ ih => exact ih.cons x
  | case4 x xs y ys _ _ ih => exact ih
  | case5 x xs y ys _ _ ih => exact ih.cons_cons x

theorem setDifference_sublist (xs ys : List α) : (setDifference xs ys).Sublist xs := by
  fun_induction setDifference xs ys with
  | case1 ys => exact .refl _
  | case2 xs => exact .refl _
  | case3 x xs y ys _ ih => exact ih.cons_cons x
  | case4 x xs y ys _ _ ih => exact ih
  | case5 x xs y ys _ _ ih => exact ih.cons x

theorem mem_setDifference {xs ys : List α} (hxs : xs.Pairwise (· < ·))
    (hys : ys.Pairwise (· ≤ ·)) {a : α} : a ∈ setDifference xs ys ↔ a ∈ xs ∧ a ∉ ys := by
  fun_induction setDifference xs ys with
  | case1 ys => simp
  | case2 xs => simp
  | case3 x xs y ys hlt ih =>
    have hx : x ∉ y :: ys := notMem_of_lt_head hys hlt
    rw [List.mem_cons, ih (List.pairwise_cons.mp hxs).2 hys]
    by_cases hself : a = x
    · simpa [hself] using hx
    · simp [hself]
  | case4 x xs y ys _ hlt ih =>
    have hy : y ∉ x :: xs := notMem_of_lt_head (hxs.imp le_of_lt) hlt
    rw [ih hxs (List.pairwise_cons.mp hys).2]
    refine and_congr_right fun ha => ?_
    have hne : a ≠ y := fun heq => hy (heq ▸ ha)
    simp [hne]
  | case5 x xs y ys hxy hyx ih =>
    have heq : x = y := le_antisymm (not_lt.mp hyx) (not_lt.mp hxy)
    obtain ⟨hx, hrest⟩ := List.pairwise_cons.mp hxs
    rw [ih hrest (List.pairwise_cons.mp hys).2, ← heq, List.mem_cons, List.mem_cons]
    by_cases hself : a = x
    · have hnot : a ∉ xs := fun ha => absurd (hx a ha) (hself ▸ lt_irrefl x)
      simp [hself, hself ▸ hnot]
    · simp [hself]

end ReadexPtf
