import ReadexPtf.Lib.Outcome
import Mathlib

/-! Work that is served in rounds: each round takes some of the pending elements. -/
namespace ReadexPtf
universe u
variable {σ α : Type u}

/-- Rounds until nothing is pending, with what each has served. -/
def rounds (pending : σ → List α) (round : σ → Outcome (List α × σ)) :
    ℕ → σ → Outcome (List (List α) × σ)
  | 0, s => if (pending s).isEmpty then .ok ([], s) else .undefined
  | count + 1, s =>
    if (pending s).isEmpty then .ok ([], s)
    else do
      let (served, s) ← round s
      let (later, s) ← rounds pending round count s
      return (served :: later, s)

/-- A round serves at least one element, and neither loses nor invents one. -/
def Conserves (pending : σ → List α) (round : σ → Outcome (List α × σ)) (s : σ) : Prop :=
  ∃ served s', round s = .ok (served, s') ∧ (served ++ pending s').Perm (pending s) ∧
    (pending s ≠ [] → served ≠ [])

/-- As many rounds as there are pending elements serve each of them once. -/
theorem rounds_serve {pending : σ → List α} {round : σ → Outcome (List α × σ)}
    (inv : σ → Prop) (hround : ∀ s, inv s → Conserves pending round s)
    (hinv : ∀ s served s', inv s → round s = .ok (served, s') → inv s') :
    ∀ (count : ℕ) (s : σ), inv s → (pending s).length ≤ count →
      ∃ served s', rounds pending round count s = .ok (served, s') ∧ pending s' = [] ∧
        served.flatten.Perm (pending s) := by
  intro count
  induction count with
  | zero =>
    intro s hs hlength
    have hnil : pending s = [] := List.eq_nil_of_length_eq_zero (by omega)
    exact ⟨[], s, by rw [rounds, hnil]; rfl, hnil, by rw [hnil]; exact .refl _⟩
  | succ count ih =>
    intro s hs hlength
    by_cases hnil : pending s = []
    · exact ⟨[], s, by rw [rounds, hnil]; rfl, hnil, by rw [hnil]; exact .refl _⟩
    · obtain ⟨served, s', hrun, hperm, hne⟩ := hround s hs
      have hlengths := hperm.length_eq
      have hpositive := List.length_pos_iff.mpr (hne hnil)
      rw [List.length_append] at hlengths
      obtain ⟨later, s'', hlater, hdone, hrest⟩ :=
        ih s' (hinv s served s' hs hrun) (by omega)
      refine ⟨served :: later, s'', ?_, hdone, ?_⟩
      · rw [rounds, List.isEmpty_eq_false_iff.mpr hnil, hrun]
        simp only [Bool.false_eq_true, if_false, Outcome.ok_bind, hlater]
        rfl
      · rw [List.flatten_cons]
        exact (hrest.append_left served).trans hperm

end ReadexPtf
