import ReadexPtf.Lib.Outcome
import ReadexPtf.Autotune.RationalArith
import Mathlib

/-! The numbers of a `long long`, and what arithmetic and conversions give that stays among them. -/
namespace ReadexPtf
open Autotune (truncate)

def FitsLong (z : ℤ) : Prop := -2 ^ 63 ≤ z ∧ z < 2 ^ 63

instance (z : ℤ) : Decidable (FitsLong z) := inferInstanceAs (Decidable (_ ∧ _))

abbrev Long : Type := { z : ℤ // FitsLong z }

/-- The result of an operation on signed numbers. -/
def checkedLong (z : ℤ) : Outcome ℤ := if FitsLong z then .ok z else .undefined

/-- The conversion of a `double`. -/
def toLong (q : ℚ) : Outcome ℤ := checkedLong (truncate q)

theorem checkedLong_eq_ok {z v : ℤ} : checkedLong z = .ok v ↔ FitsLong z ∧ z = v := by
  rw [checkedLong]
  split_ifs with h
  · simp [h]
  · simp [h]

theorem checkedLong_of_fits {z : ℤ} (h : FitsLong z) : checkedLong z = .ok z :=
  checkedLong_eq_ok.mpr ⟨h, rfl⟩

theorem toLong_eq_ok {q : ℚ} {z : ℤ} : toLong q = .ok z ↔ FitsLong (truncate q) ∧ truncate q = z :=
  checkedLong_eq_ok

section Truncation
variable {x y : ℚ}

@[simp] theorem truncate_intCast (z : ℤ) : truncate z = z := by
  rw [truncate]
  split_ifs with h
  · rw [← Int.cast_neg, Rat.floor_intCast, neg_neg]
  · rw [Rat.floor_intCast]

@[simp] theorem truncate_zero : truncate 0 = 0 := truncate_intCast 0

theorem natCast_le_truncate {k : ℕ} (hk : 1 ≤ k) : (k : ℤ) ≤ truncate x ↔ (k : ℚ) ≤ x := by
  have hk' : (1 : ℚ) ≤ k := by exact_mod_cast hk
  rw [truncate]
  split_ifs with h
  · have hfloor : 0 ≤ (-x).floor := Rat.le_floor_iff.mpr (by push_cast; linarith)
    constructor
    · intro hle
      omega
    · intro hle
      linarith
  · rw [Rat.le_floor_iff]
    simp

theorem truncate_neg (x : ℚ) : truncate (-x) = -truncate x := by
  rcases lt_trichotomy x 0 with h | rfl | h
  · rw [truncate, truncate, if_neg (by linarith), if_pos h, neg_neg]
  · rw [neg_zero, truncate_zero, neg_zero]
  · rw [truncate, truncate, if_pos (by linarith), if_neg (by linarith), neg_neg]

theorem truncate_div_natCast (z : ℤ) (n : ℕ) : truncate (z / n : ℚ) = z.tdiv n := by
  rcases le_or_gt 0 z with hz | hz
  · rw [truncate, if_neg (not_lt.mpr (by positivity)), Int.tdiv_eq_ediv_of_nonneg hz]
    exact Rat.floor_intCast_div_natCast z n
  · have hneg : truncate ((-z : ℤ) / n : ℚ) = (-z).tdiv n := by
      rw [truncate, if_neg (not_lt.mpr (by
        have : (0 : ℚ) ≤ ((-z : ℤ) : ℚ) := by exact_mod_cast (by omega)
        positivity)), Int.tdiv_eq_ediv_of_nonneg (by omega)]
      exact Rat.floor_intCast_div_natCast (-z) n
    rw [Int.neg_tdiv, Int.cast_neg, neg_div, truncate_neg] at hneg
    omega

/-- A whole number is taken off before or behind the fraction. -/
theorem truncate_sub_intCast (hx : 0 ≤ x) {z : ℤ} (hz : z ≤ truncate x) :
    truncate (x - z) = truncate x - z := by
  have hfloor : truncate x = x.floor := if_neg (not_lt.mpr hx)
  rw [hfloor] at hz ⊢
  have hle : (z : ℚ) ≤ x := Rat.le_floor_iff.mp hz
  rw [truncate, if_neg (by linarith)]
  exact Int.floor_sub_intCast x z

end Truncation

end ReadexPtf
