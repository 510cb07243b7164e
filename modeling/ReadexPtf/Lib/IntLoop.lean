import ReadexPtf.Lib.Outcome
import Mathlib

/-! The counting loop of C over 32-bit integers. Its last increment is computed
before the bound is tested, so it must fit the type as well. -/
namespace ReadexPtf
universe u
variable {σ : Type u}

def intMin : Int := -2147483648
def intMax : Int := 2147483647

/-- The value is one of a 32-bit `int`: arithmetic that leaves this range is undefined. -/
def FitsInt (z : Int) : Prop := intMin ≤ z ∧ z ≤ intMax
instance (z : Int) : Decidable (FitsInt z) := inferInstanceAs (Decidable (_ ∧ _))

/-- `for( int i = start; i <= stop; i += step ) body`. A step of zero or less never
ends the loop in a defined way. -/
def forRange (stop step : Int) (body : Int → σ → Outcome σ) (i : Int) (s : σ) : Outcome σ :=
  if _h : i ≤ stop then
    if 0 < step then do
      let s ← body i s
      if i + step ≤ intMax then forRange stop step body (i + step) s else .undefined
    else .undefined
  else .ok s
termination_by (stop + 1 - i).toNat
decreasing_by omega

/-- What every round of the body keeps, a loop that ends keeps. -/
theorem forRange_invariant {stop step : Int} {body : Int → σ → Outcome σ} (inv : σ → Prop)
    (hbody : ∀ i s s', inv s → body i s = .ok s' → inv s') :
    ∀ (i : Int) (s s' : σ), inv s → forRange stop step body i s = .ok s' → inv s' := by
  intro i s
  induction hn : (stop + 1 - i).toNat using Nat.strong_induction_on generalizing i s with
  | _ n ih =>
    intro s' hs h
    rw [forRange] at h
    split_ifs at h with hle hstep hfits
    · obtain ⟨t, ht, hrest⟩ := Outcome.bind_eq_ok.mp h
      exact ih _ (by omega) (i + step) t rfl s' (hbody i s t hs ht) hrest
    · obtain ⟨t, -, hrest⟩ := Outcome.bind_eq_ok.mp h
      exact absurd hrest (by simp)
    · exact Outcome.ok.inj h ▸ hs

def gridCount (start stop step : Int) : Nat := ((stop - start) / step + 1).toNat

/-- The values such a loop passes through. -/
def gridValues (start stop step : Int) : List Int :=
  (List.range (gridCount start stop step)).map fun k : Nat => start + (k : Int) * step

/-- The increment after the last value still fits the type. -/
def LoopFits (start stop step : Int) : Prop :=
  stop < start ∨ start + gridCount start stop step * step ≤ intMax
instance (start stop step : Int) : Decidable (LoopFits start stop step) :=
  inferInstanceAs (Decidable (_ ∨ _))

theorem gridCount_eq_zero {start stop step : Int} (hstep : 0 < step) (h : stop < start) :
    gridCount start stop step = 0 := by
  have hneg : (stop - start) / step < 0 := Int.ediv_neg_of_neg_of_pos (by omega) hstep
  simp only [gridCount]
  omega

theorem gridCount_succ {start stop step : Int} (hstep : 0 < step) (h : start ≤ stop) :
    gridCount start stop step = gridCount (start + step) stop step + 1 := by
  have hdiv : (stop - start) / step = (stop - (start + step)) / step + 1 := by
    rw [show stop - start = stop - (start + step) + 1 * step by ring,
      Int.add_mul_ediv_right _ _ hstep.ne']
  have hnonneg : 0 ≤ (stop - start) / step := Int.ediv_nonneg (by omega) hstep.le
  simp only [gridCount]
  omega

theorem gridValues_nil {start stop step : Int} (hstep : 0 < step) (h : stop < start) :
    gridValues start stop step = [] := by
  simp [gridValues, gridCount_eq_zero hstep h]

theorem gridValues_cons {start stop step : Int} (hstep : 0 < step) (h : start ≤ stop) :
    gridValues start stop step = start :: gridValues (start + step) stop step := by
  simp only [gridValues, gridCount_succ hstep h, List.range_succ_eq_map, List.map_cons,
    List.map_map, Nat.cast_zero, zero_mul, add_zero]
  congr 1
  apply List.map_congr_left
  intro k _
  simp only [Function.comp, Nat.cast_succ]
  ring

/-- A loop whose increments fit runs its body over exactly the grid, in order. -/
theorem forRange_eq_foldlM {stop step : Int} {body : Int → σ → Outcome σ} (hstep : 0 < step) :
    ∀ (start : Int) (s : σ), LoopFits start stop step →
      forRange stop step body start s = (gridValues start stop step).foldlM (fun s i => body i s) s := by
  intro start s
  induction hn : (stop + 1 - start).toNat using Nat.strong_induction_on generalizing start s with
  | _ n ih =>
    intro hfits
    rw [forRange]
    by_cases h : start ≤ stop
    · have hcount := gridCount_succ hstep h
      have hlast : start + gridCount start stop step * step ≤ intMax :=
        hfits.resolve_left (by omega)
      have hmul : (0 : Int) ≤ gridCount (start + step) stop step * step :=
        Int.mul_nonneg (Int.natCast_nonneg _) hstep.le
      have hsum : start + gridCount start stop step * step =
          start + step + gridCount (start + step) stop step * step := by
        rw [hcount]
        push_cast
        ring
      have hnext : start + step ≤ intMax := by omega
      have hrest : LoopFits (start + step) stop step := .inr (by omega)
      simp only [h, hstep, hnext, dif_pos, if_true, gridValues_cons hstep h, List.foldlM_cons]
      congr 1
      funext s'
      exact ih _ (by omega) (start + step) s' rfl hrest
    · simp [h, gridValues_nil hstep (by omega : stop < start)]

/-- A loop that ends has a range without a value, or one that all its increments fit. -/
theorem fits_of_forRange {stop step : Int} {body : Int → σ → Outcome σ} :
    ∀ {start : Int} {s s' : σ}, forRange stop step body start s = .ok s' →
      stop < start ∨ 0 < step ∧ LoopFits start stop step := by
  intro start s
  induction hn : (stop + 1 - start).toNat using Nat.strong_induction_on generalizing start s with
  | _ n ih =>
    intro s' h
    rw [forRange] at h
    split_ifs at h with hle hstep hnext
    · obtain ⟨t, -, hrest⟩ := Outcome.bind_eq_ok.mp h
      have hcount := gridCount_succ hstep hle
      have hsum : start + gridCount start stop step * step =
          start + step + gridCount (start + step) stop step * step := by
        rw [hcount]
        push_cast
        ring
      refine .inr ⟨hstep, .inr ?_⟩
      rw [hsum]
      cases ih _ (by omega) rfl hrest with
      | inl hend =>
        rw [gridCount_eq_zero hstep hend]
        simpa using hnext
      | inr hlater =>
        cases hlater.2 with
        | inl hend =>
          rw [gridCount_eq_zero hstep hend]
          simpa using hnext
        | inr hlast => exact hlast
    · obtain ⟨t, -, hrest⟩ := Outcome.bind_eq_ok.mp h
      exact absurd hrest (by simp)
    · exact .inl (not_le.mp hle)

/-- A loop returns nothing but what the walk over its grid does. -/
theorem forRange_eq_ok {stop step : Int} {body : Int → σ → Outcome σ} {start : Int} {s s' : σ}
    (h : start ≤ stop) : forRange stop step body start s = .ok s' ↔
      (0 < step ∧ LoopFits start stop step) ∧
        (gridValues start stop step).foldlM (fun s i => body i s) s = .ok s' := by
  constructor
  · intro hrun
    have hfits := (fits_of_forRange hrun).resolve_left h.not_gt
    exact ⟨hfits, forRange_eq_foldlM hfits.1 start s hfits.2 ▸ hrun⟩
  · rintro ⟨hfits, hfold⟩
    rw [forRange_eq_foldlM hfits.1 start s hfits.2, hfold]

end ReadexPtf
