import ReadexPtf.Lib.Outcome
import Mathlib

/-! Vectors changed by position: what a set of marked positions leaves, and elements
erased while an iterator runs over them. -/
namespace ReadexPtf
variable {α : Type*}

/-- The elements at the positions that are not marked, in their order. -/
def unmarked (marked : Finset ℕ) (xs : List α) : List α :=
  (xs.zipIdx.filter fun p => p.2 ∉ marked).map Prod.fst

theorem mem_unmarked {marked : Finset ℕ} {xs : List α} {a : α} :
    a ∈ unmarked marked xs ↔ ∃ i, xs[i]? = some a ∧ i ∉ marked := by
  simp only [unmarked, List.mem_map, List.mem_filter, List.mem_zipIdx_iff_getElem?,
    decide_eq_true_eq]
  constructor
  · intro ⟨p, ⟨hget, hnot⟩, heq⟩
    exact ⟨p.2, heq ▸ hget, hnot⟩
  · intro ⟨i, hget, hnot⟩
    exact ⟨(a, i), ⟨hget, hnot⟩, rfl⟩

theorem unmarked_sublist (marked : Finset ℕ) (xs : List α) :
    (unmarked marked xs).Sublist xs := by
  have h := (List.filter_sublist (p := fun p : α × ℕ => p.2 ∉ marked) (l := xs.zipIdx)).map Prod.fst
  rwa [List.zipIdx_map_fst] at h

@[simp] theorem unmarked_empty (xs : List α) : unmarked ∅ xs = xs := by
  simp [unmarked, List.zipIdx_map_fst]

theorem length_unmarked {marked : Finset ℕ} {xs : List α}
    (h : marked ⊆ Finset.range xs.length) :
    (unmarked marked xs).length = xs.length - marked.card := by
  have hpositions : (xs.zipIdx.filter fun p => p.2 ∉ marked).map Prod.snd =
      (List.range xs.length).filter (· ∉ marked) := by
    rw [List.range_eq_range', ← List.zipIdx_map_snd 0 xs, List.filter_map]
    rfl
  have hset : ((List.range xs.length).filter (· ∉ marked)).toFinset =
      Finset.range xs.length \ marked := by
    ext i
    simp
  calc (unmarked marked xs).length
      = ((List.range xs.length).filter (· ∉ marked)).length := by
        rw [unmarked, List.length_map, ← hpositions, List.length_map]
    _ = (Finset.range xs.length \ marked).card := by
        rw [← hset, List.toFinset_card_of_nodup (List.nodup_range.filter _)]
    _ = xs.length - marked.card := by
        rw [Finset.card_sdiff_of_subset h, Finset.card_range]

/-- Positions marked by what is found there. -/
theorem unmarked_eq_filter {marked : Finset ℕ} {xs : List α} {kept : α → Bool}
    (h : ∀ i a, xs[i]? = some a → (i ∉ marked ↔ kept a)) :
    unmarked marked xs = xs.filter kept := by
  have hcongr : (xs.zipIdx.filter fun p => p.2 ∉ marked) = xs.zipIdx.filter (kept ∘ Prod.fst) := by
    apply List.filter_congr
    intro p hp
    have hiff := h p.2 p.1 (List.mem_zipIdx_iff_getElem?.mp hp)
    rw [Function.comp_apply, Bool.eq_iff_iff, decide_eq_true_eq]
    exact hiff
  rw [unmarked, hcongr, ← List.filter_map, List.zipIdx_map_fst]

/-- In a list without repetitions, marking one position more takes away its element alone. -/
theorem mem_unmarked_insert {marked : Finset ℕ} {xs : List α} {i : ℕ} {a b : α} (hxs : xs.Nodup)
    (hget : xs[i]? = some a) :
    b ∈ unmarked (insert i marked) xs ↔ b ≠ a ∧ b ∈ unmarked marked xs := by
  rw [mem_unmarked, mem_unmarked]
  constructor
  · intro ⟨j, hj, hnot⟩
    rw [Finset.mem_insert, not_or] at hnot
    have hlt : j < xs.length := (List.getElem?_eq_some_iff.mp hj).1
    refine ⟨?_, j, hj, hnot.2⟩
    intro heq
    subst heq
    exact hnot.1 ((List.getElem?_inj hlt hxs).mp (hj.trans hget.symm))
  · intro ⟨hne, j, hj, hnot⟩
    refine ⟨j, hj, ?_⟩
    rw [Finset.mem_insert, not_or]
    refine ⟨?_, hnot⟩
    intro hji
    subst hji
    exact hne (Option.some.inj (hj.symm.trans hget))

theorem unmarked_perm_cons {marked : Finset ℕ} {xs : List α} {i : ℕ} {a : α} (hxs : xs.Nodup)
    (hget : xs[i]? = some a) (hnot : i ∉ marked) :
    (unmarked marked xs).Perm (a :: unmarked (insert i marked) xs) := by
  have hgone : a ∉ unmarked (insert i marked) xs :=
    fun hmem => ((mem_unmarked_insert hxs hget).mp hmem).1 rfl
  apply (List.perm_ext_iff_of_nodup (hxs.sublist (unmarked_sublist _ _))
    (List.nodup_cons.mpr ⟨hgone, hxs.sublist (unmarked_sublist _ _)⟩)).mpr
  intro b
  rw [List.mem_cons, mem_unmarked_insert hxs hget]
  constructor
  · intro h
    by_cases heq : b = a
    · exact .inl heq
    · exact .inr ⟨heq, h⟩
  · intro h
    cases h with
    | inl heq => exact heq ▸ mem_unmarked.mpr ⟨i, hget, hnot⟩
    | inr hrest => exact hrest.2

section Erase
variable [DecidableEq α]

/-- `for( it = v.begin(); it != v.end(); ++it ) if( *it == a ) v.erase( it );` from an
iterator on: after `erase` it is at the next element, which the increment passes over,
or past the end if there is none. -/
def eraseLoop (a : α) : List α → Outcome (List α)
  | [] => .ok []
  | x :: xs =>
    if x = a then
      match xs with
      | [] => .undefined
      | y :: ys => return y :: (← eraseLoop a ys)
    else return x :: (← eraseLoop a xs)

/-- A loop that returns has erased the element, if it was there once at most. -/
theorem eraseLoop_spec {a : α} {xs ys : List α} (hnodup : xs.Nodup)
    (h : eraseLoop a xs = .ok ys) : ys = xs.erase a := by
  fun_induction eraseLoop a xs generalizing ys with
  | case1 => exact (Outcome.ok.inj h).symm
  | case2 => exact absurd h (by simp)
  | case3 y rest ih =>
    obtain ⟨zs, hzs, hret⟩ := Outcome.bind_eq_ok.mp h
    obtain ⟨hnot, hrest⟩ := List.nodup_cons.mp hnodup
    have hkeep : rest.erase a = rest :=
      List.erase_of_not_mem fun hmem => hnot (List.mem_cons_of_mem y hmem)
    rw [List.erase_cons_head, ← Outcome.ok.inj hret, ih hrest.of_cons hzs, hkeep]
  | case4 x xs hne ih =>
    obtain ⟨zs, hzs, hret⟩ := Outcome.bind_eq_ok.mp h
    rw [List.erase_cons_tail (by simpa using hne), ← Outcome.ok.inj hret,
      ih hnodup.of_cons hzs]

/-- What stands right after each `a` is something else. -/
def Followed (a : α) (xs : List α) : Prop :=
  ∀ i, xs[i]? = some a → ∃ b, xs[i + 1]? = some b ∧ b ≠ a

omit [DecidableEq α] in
theorem followed_cons {a x : α} {xs : List α} :
    Followed a (x :: xs) ↔ (x = a → ∃ b, xs.head? = some b ∧ b ≠ a) ∧ Followed a xs := by
  constructor
  · intro h
    constructor
    · intro hx
      have hfirst := h 0 (by simp [hx])
      simpa [List.head?_eq_getElem?] using hfirst
    · intro i hi
      simpa using h (i + 1) (by simpa using hi)
  · intro ⟨hfirst, hrest⟩ i hi
    cases i with
    | zero => simpa [List.head?_eq_getElem?] using hfirst (by simpa using hi)
    | succ i => simpa using hrest i (by simpa using hi)

/-- The loop erases the element wherever it is, exactly if it is never last and never twice
in a row. -/
theorem eraseLoop_eq_filter_iff (a : α) (xs : List α) :
    eraseLoop a xs = .ok (xs.filter (· ≠ a)) ↔ Followed a xs := by
  fun_induction eraseLoop a xs with
  | case1 => exact ⟨fun _ i hi => by simp at hi, fun _ => rfl⟩
  | case2 => simp [followed_cons]
  | case3 y rest ih =>
    rw [followed_cons, followed_cons, ← ih, List.filter_cons_of_neg (by simp)]
    by_cases hy : y = a
    · -- the loop passes over the second of the two
      simp only [List.head?_cons, Option.some.injEq, exists_eq_left', hy, ne_eq, not_true_eq_false,
        forall_const, false_and, iff_false]
      intro h
      obtain ⟨zs, _, hret⟩ := Outcome.bind_eq_ok.mp h
      have hmem : a ∈ (a :: rest).filter (· ≠ a) := Outcome.ok.inj hret ▸ List.mem_cons_self
      simp at hmem
    · rw [List.filter_cons_of_pos (by simpa using hy)]
      simp [hy, Outcome.bind_eq_ok]
  | case4 x xs hne ih =>
    rw [followed_cons, ← ih, List.filter_cons_of_pos (by simpa using hne)]
    simp [hne, Outcome.bind_eq_ok]

end Erase
end ReadexPtf
