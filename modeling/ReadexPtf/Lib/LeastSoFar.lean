import ReadexPtf.Lib.OrdMap
import Mathlib

/-! The least value met so far, alone and for each key of a map. Values that the order does
not compare are never less, so nothing in a list is less than what is kept. -/
namespace ReadexPtf
variable {V ι κ : Type*} (lt : V → V → Bool)

/-- A candidate is kept if it is less than what is there. -/
def keepLess (best candidate : V × ι) : V × ι := if lt candidate.1 best.1 then candidate else best

/-- The same for the entry of a key, which the first candidate makes. -/
def keepLessAt [LinearOrder κ] (m : OrdMap κ (V × ι)) (candidate : κ × V × ι) : OrdMap κ (V × ι) :=
  match m.get? candidate.1 with
  | none => m.insertNew candidate.1 candidate.2
  | some best => if lt candidate.2.1 best.1 then m.set candidate.1 candidate.2 else m

variable {lt}

/-- What the start is not below stays so, and the result is the start or a lesser candidate. -/
theorem foldl_keepLess (htrans : ∀ a b c, lt a b → lt b c → lt a c)
    (hirrefl : ∀ a, lt a a = false) (candidates : List (V × ι)) (start : V × ι) :
    (∀ v, ¬ lt v start.1 → ¬ lt v (candidates.foldl (keepLess lt) start).1) ∧
      (∀ c ∈ candidates, ¬ lt c.1 (candidates.foldl (keepLess lt) start).1) ∧
      (candidates.foldl (keepLess lt) start = start ∨
        candidates.foldl (keepLess lt) start ∈ candidates ∧
          lt (candidates.foldl (keepLess lt) start).1 start.1) := by
  induction candidates generalizing start with
  | nil => exact ⟨fun v hv => hv, by simp, .inl rfl⟩
  | cons c candidates ih =>
    rw [List.foldl_cons]
    obtain ⟨hkept, hall, hfrom⟩ := ih (keepLess lt start c)
    cases hless : lt c.1 start.1 with
    | true =>
      have hstep : keepLess lt start c = c := if_pos hless
      rw [hstep] at hkept hall hfrom ⊢
      refine ⟨fun v hv => hkept v fun hvc => hv (htrans _ _ _ hvc hless), ?_, .inr ?_⟩
      · intro d hd
        cases List.mem_cons.mp hd with
        | inl hdc => exact hdc ▸ hkept c.1 (by simp [hirrefl])
        | inr hrest => exact hall d hrest
      · cases hfrom with
        | inl hsame =>
          rw [hsame]
          exact ⟨List.mem_cons_self, hless⟩
        | inr hnew => exact ⟨List.mem_cons_of_mem c hnew.1, htrans _ _ _ hnew.2 hless⟩
    | false =>
      have hstep : keepLess lt start c = start := if_neg (by simp [hless])
      rw [hstep] at hkept hall hfrom ⊢
      refine ⟨hkept, ?_, ?_⟩
      · intro d hd
        cases List.mem_cons.mp hd with
        | inl hdc => exact hdc ▸ hkept c.1 (by simp [hless])
        | inr hrest => exact hall d hrest
      · cases hfrom with
        | inl hsame => exact .inl hsame
        | inr hnew => exact .inr ⟨List.mem_cons_of_mem c hnew.1, hnew.2⟩

/-- A candidate of the key than which no other of them is less. -/
def IsLeastAt (lt : V → V → Bool) (candidates : List (κ × V × ι)) (k : κ) (best : V × ι) : Prop :=
  (k, best) ∈ candidates ∧ ∀ c ∈ candidates, c.1 = k → ¬ lt c.2.1 best.1

variable [LinearOrder κ]

theorem get?_keepLessAt (m : OrdMap κ (V × ι)) (c : κ × V × ι) (k : κ) :
    (keepLessAt lt m c).get? k =
      if k = c.1 then some ((m.get? k).elim c.2 fun best => keepLess lt best c.2) else m.get? k := by
  rw [keepLessAt]
  by_cases hk : k = c.1
  · rw [if_pos hk, hk]
    cases hget : m.get? c.1 with
    | none => simp [OrdMap.get?_insertNew, hget]
    | some best =>
      rw [Option.elim_some, keepLess]
      dsimp only
      split_ifs
      · rw [OrdMap.get?_set, if_pos rfl]
      · exact hget
  · rw [if_neg hk]
    cases hget : m.get? c.1 with
    | none => simp [OrdMap.get?_insertNew, hk]
    | some best =>
      dsimp only
      split_ifs
      · rw [OrdMap.get?_set_ne _ _ hk]
      · rfl

/-- The candidates for one key are kept as if there were no others. -/
theorem get?_foldl_keepLessAt (candidates : List (κ × V × ι)) (m : OrdMap κ (V × ι)) (k : κ) :
    (candidates.foldl (keepLessAt lt) m).get? k =
      ((candidates.filter fun c => c.1 = k).map Prod.snd).foldl
        (fun best c => some (best.elim c fun best => keepLess lt best c)) (m.get? k) := by
  induction candidates generalizing m with
  | nil => rfl
  | cons c candidates ih =>
    rw [List.foldl_cons, ih, get?_keepLessAt]
    by_cases hk : c.1 = k
    · simp [hk]
    · simp [hk, Ne.symm hk]

theorem foldl_elim_keepLess (candidates : List (V × ι)) (best : V × ι) :
    candidates.foldl (fun best c => some (best.elim c fun best => keepLess lt best c)) (some best) =
      some (candidates.foldl (keepLess lt) best) := by
  induction candidates generalizing best with
  | nil => rfl
  | cons c candidates ih => exact ih _

/-- The map of a list of candidates has the least one for each of their keys. -/
theorem foldl_keepLessAt (htrans : ∀ a b c, lt a b → lt b c → lt a c)
    (hirrefl : ∀ a, lt a a = false) (candidates : List (κ × V × ι)) (k : κ) :
    ((candidates.foldl (keepLessAt lt) .empty).get? k = none ∧ ∀ c ∈ candidates, c.1 ≠ k) ∨
      ∃ best, (candidates.foldl (keepLessAt lt) .empty).get? k = some best ∧
        IsLeastAt lt candidates k best := by
  rw [get?_foldl_keepLessAt, OrdMap.get?_empty]
  cases hlist : (candidates.filter fun c => c.1 = k).map Prod.snd with
  | nil =>
    refine .inl ⟨rfl, fun c hc hk => ?_⟩
    have hmem : c.2 ∈ (candidates.filter fun c => c.1 = k).map Prod.snd :=
      List.mem_map.mpr ⟨c, List.mem_filter.mpr ⟨hc, decide_eq_true hk⟩, rfl⟩
    simp [hlist] at hmem
  | cons first rest =>
    have hmem : ∀ d, d ∈ first :: rest ↔ (k, d) ∈ candidates := by
      intro d
      rw [← hlist]
      constructor
      · intro hd
        obtain ⟨c, hc, rfl⟩ := List.mem_map.mp hd
        obtain ⟨hmem, hk⟩ := List.mem_filter.mp hc
        rw [← of_decide_eq_true hk]
        exact hmem
      · exact fun hd => List.mem_map.mpr ⟨_, List.mem_filter.mpr ⟨hd, decide_eq_true rfl⟩, rfl⟩
    obtain ⟨hkept, hall, hfrom⟩ := foldl_keepLess htrans hirrefl rest first
    refine .inr ⟨rest.foldl (keepLess lt) first, foldl_elim_keepLess rest first, ?_, ?_⟩
    · rw [← hmem]
      cases hfrom with
      | inl hsame =>
        rw [hsame]
        exact List.mem_cons_self
      | inr hnew => exact List.mem_cons_of_mem first hnew.1
    · intro c hc hk
      cases List.mem_cons.mp ((hmem c.2).mpr (hk ▸ hc)) with
      | inl hfirst => exact hfirst ▸ hkept first.1 (by simp [hirrefl])
      | inr hrest => exact hall c.2 hrest

end ReadexPtf
