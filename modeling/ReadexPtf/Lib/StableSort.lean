import Mathlib

/-! Sorting by a key, as `std::list::sort` does it: elements with the same key keep their order. -/
namespace ReadexPtf
variable {α κ : Type*} [LinearOrder κ] {key : α → κ}

def stableSort (key : α → κ) (l : List α) : List α :=
  l.insertionSort fun a b => ¬ key b < key a

namespace StableSort

theorem perm (l : List α) : (stableSort key l).Perm l := List.perm_insertionSort _ l

theorem sorted (l : List α) : (stableSort key l).Pairwise (key · ≤ key ·) := by
  have htotal : Std.Total fun a b => ¬ key b < key a :=
    ⟨fun a b => by
      rw [not_lt, not_lt]
      exact le_total _ _⟩
  have htrans : IsTrans α fun a b => ¬ key b < key a :=
    ⟨fun a b c => by
      rw [not_lt, not_lt, not_lt]
      exact le_trans⟩
  exact (List.pairwise_insertionSort _ l).imp not_lt.mp

theorem filter_key (l : List α) (k : κ) :
    ((stableSort key l).filter fun a => key a = k) = l.filter fun a => key a = k := by
  have hinsert : ∀ (a : α) (l : List α),
      ((l.orderedInsert (fun a b => ¬ key b < key a) a).filter fun a => key a = k) =
        (a :: l).filter fun a => key a = k := by
    intro a l
    induction l with
    | nil => rfl
    | cons b l ih =>
      rw [List.orderedInsert_cons]
      split_ifs with hless
      · -- the element goes behind one that is less, so not both have the key
        rw [List.filter_cons, ih, List.filter_cons, List.filter_cons, List.filter_cons]
        by_cases hb : key b = k
        · have ha : key a ≠ k := fun ha => absurd (hb ▸ ha ▸ hless) (lt_irrefl _)
          simp only [ha, hb, decide_false, decide_true]
          rfl
        · simp only [hb, decide_false]
          rfl
      · rfl
  induction l with
  | nil => rfl
  | cons a l ih =>
    rw [stableSort] at ih
    rw [stableSort, List.insertionSort_cons, hinsert, List.filter_cons, List.filter_cons, ih]

theorem find?_key (l : List α) (k : κ) :
    ((stableSort key l).find? fun a => key a = k) = l.find? fun a => key a = k := by
  rw [← List.head?_filter, filter_key, List.head?_filter]

/-- In a sorted list the elements with the least key come first. -/
theorem filter_append_filter {k : κ} {l : List α} (hsorted : l.Pairwise (key · ≤ key ·))
    (hleast : ∀ a ∈ l, k ≤ key a) :
    ((l.filter fun a => key a = k) ++ l.filter fun a => ¬ key a = k) = l := by
  induction l with
  | nil => rfl
  | cons a l ih =>
    rw [List.pairwise_cons] at hsorted
    rw [List.forall_mem_cons] at hleast
    by_cases ha : key a = k
    · rw [List.filter_cons_of_pos (by simpa using ha), List.filter_cons_of_neg (by simpa using ha),
        List.cons_append, ih hsorted.2 hleast.2]
    · have hgreater : ∀ b ∈ a :: l, ¬ key b = k := by
        rw [List.forall_mem_cons]
        refine ⟨ha, fun b hb heq => ?_⟩
        exact ha (le_antisymm (heq ▸ hsorted.1 b hb) hleast.1)
      rw [List.filter_eq_nil_iff.mpr (by simpa using hgreater), List.nil_append,
        List.filter_eq_self.mpr (by simpa using hgreater)]

/-- The elements of one key after the other. -/
theorem flatMap_filter {ks : List κ} (hks : ks.Pairwise (· < ·)) {l : List α}
    (hsorted : l.Pairwise (key · ≤ key ·)) (hmem : ∀ a ∈ l, key a ∈ ks) :
    (ks.flatMap fun k => l.filter fun a => key a = k) = l := by
  induction ks generalizing l with
  | nil =>
    rw [List.eq_nil_iff_forall_not_mem.mpr fun a ha => absurd (hmem a ha) List.not_mem_nil]
    rfl
  | cons k ks ih =>
    rw [List.pairwise_cons] at hks
    have hleast : ∀ a ∈ l, k ≤ key a := fun a ha => by
      rcases List.mem_cons.mp (hmem a ha) with heq | hlater
      · exact heq.ge
      · exact (hks.1 _ hlater).le
    have hrest := ih hks.2 (hsorted.filter fun a => ¬ key a = k) fun a ha => by
      rw [List.mem_filter, decide_eq_true_eq] at ha
      exact (List.mem_cons.mp (hmem a ha.1)).resolve_left ha.2
    rw [List.flatMap_cons]
    conv_rhs => rw [← filter_append_filter hsorted hleast, ← hrest]
    congr 1
    refine List.flatMap_congr fun k' hk' => ?_
    rw [List.filter_filter]
    refine List.filter_congr fun a _ => ?_
    by_cases ha : key a = k'
    · simp [ha, (hks.1 k' hk').ne']
    · simp [ha]

theorem eq_flatMap {ks : List κ} (hks : ks.Pairwise (· < ·)) {l : List α}
    (hmem : ∀ a ∈ l, key a ∈ ks) :
    stableSort key l = ks.flatMap fun k => l.filter fun a => key a = k := by
  have hsorted : (stableSort key l).Pairwise (key · ≤ key ·) := sorted l
  have hsort := flatMap_filter hks hsorted fun a ha => hmem a ((perm l).mem_iff.mp ha)
  rw [← hsort]
  exact List.flatMap_congr fun k _ => filter_key l k

end StableSort
end ReadexPtf
