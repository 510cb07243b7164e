import ReadexPtf.Autotune.GDE3Reduction
import Mathlib

/-! The list of the optimal ids, which the comparisons of parents and children keep up to
date. -/
namespace ReadexPtf.Autotune
open ReadexPtf
variable {ι : Type} [DecidableEq ι]

def removeOptimalId (scenarioId : ι) (optimalIds : List ι) : Outcome (List ι) :=
  eraseLoop scenarioId optimalIds

/-- The loop takes the id away and keeps the others in their order, without leaving the list,
exactly if something else stands right after each place of the id. -/
theorem removeOptimalId_removes_iff (scenarioId : ι) (optimalIds : List ι) :
    removeOptimalId scenarioId optimalIds = .ok (optimalIds.filter (· ≠ scenarioId)) ↔
      ∀ i, optimalIds[i]? = some scenarioId →
        ∃ id, optimalIds[i + 1]? = some id ∧ id ≠ scenarioId :=
  eraseLoop_eq_filter_iff scenarioId optimalIds

/-- A single optimal id: the loop runs past the end of the list. -/
theorem not_removeOptimalId_removes_single :
    ¬ removeOptimalId (1 : ℕ) [1] = .ok ([1].filter (· ≠ 1)) := by
  decide

end ReadexPtf.Autotune
