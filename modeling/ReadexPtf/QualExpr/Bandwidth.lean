import ReadexPtf.QualExpr.Aggregators
import Mathlib

/-! What the average of the bandwidths is the average of. -/
namespace ReadexPtf.QualExpr
open Autotune (truncate)

/-- The pairs that are counted: a stop with the id of the start before it. -/
def counted : Option QualExprEvent → List QualExprEvent → List (QualExprEvent × QualExprEvent)
  | _, [] => []
  | last, event :: events =>
    match event.state with
    | .start => counted (some event) events
    | .stop =>
      match last with
      | some start =>
        if start.eid = event.eid then (start, event) :: counted last events else counted last events
      | none => counted last events
    | _ => counted last events

section Condition

/-- Several events divide an unsigned number. -/
def dividend (count : ℕ) (value : ℤ) : ℤ := if count = 1 then value else value % 2 ^ 64

end Condition

section Averages

theorem average_eq {count : ℕ} {value : ℤ} (hcount : count ≠ 0) (hvalue : FitsLong value) :
    average count value = (dividend count value).tdiv count := by
  rw [average, if_neg hcount, dividend]
  split_ifs with hone
  · subst hone
    have hmod : (value % 2 ^ 64).bmod (2 ^ 64) = value.bmod (2 ^ 64) :=
      mod_cast Int.emod_bmod value (2 ^ 64)
    rw [Nat.cast_one, Int.ediv_one, Int.tdiv_one, hmod]
    exact Int.bmod_eq_of_le (by have := hvalue.1; omega) (by have := hvalue.2; omega)
  · have hnonneg : 0 ≤ value % 2 ^ 64 := Int.emod_nonneg _ (by decide)
    have hlt : value % 2 ^ 64 < 2 ^ 64 := Int.emod_lt_of_pos _ (by decide)
    have htwo : (2 : ℤ) ≤ count := by omega
    have hquotient : value % 2 ^ 64 / count < 2 ^ 63 :=
      Int.ediv_lt_of_lt_mul (by omega) (by nlinarith)
    rw [Int.tdiv_eq_ediv_of_nonneg hnonneg]
    exact Int.bmod_eq_of_le (by have := Int.ediv_nonneg hnonneg (show (0 : ℤ) ≤ count by omega); omega)
      (by omega)

theorem average_of_nonneg {count : ℕ} {value : ℤ} (hnonneg : 0 ≤ value) (hfits : FitsLong value) :
    average count value = truncate (value / count : ℚ) := by
  rw [truncate_div_natCast]
  by_cases hcount : count = 0
  · rw [average, if_pos hcount, hcount, Nat.cast_zero, Int.tdiv_zero]
  · have hlt := hfits.2
    have hdividend : dividend count value = value := by
      rw [dividend, Int.emod_eq_of_lt hnonneg (by omega), ite_self]
    rw [average_eq hcount hfits, hdividend]

end Averages

section Runs
variable {last : Option QualExprEvent} {event : QualExprEvent} {events : List QualExprEvent}

/-- What is stored of a start. -/
def stored (start : QualExprEvent) : PreviousEvent :=
  ⟨start.eid, truncate start.timestamp, start.value⟩

section Steps
variable {count : ℕ} {value : ℤ} {s : BandwidthAggregator}

/-- The start before the events that follow. -/
def latest (last : Option QualExprEvent) (event : QualExprEvent) : Option QualExprEvent :=
  if event.state = .start then some event else last

end Steps

end Runs

section Instances

end Instances

end ReadexPtf.QualExpr
