import ReadexPtf.Lib.Outcome
import Mathlib

/-! Computations with additional checks: what one of them returns is what the computation
without the checks returns. -/
namespace ReadexPtf.Outcome
universe u
variable {α β σ ι : Type u}

/-- What the one returns the other returns as well. -/
def Refines (x y : Outcome α) : Prop := ∀ a, x = .ok a → y = .ok a

theorem Refines.refl (x : Outcome α) : Refines x x := fun _ h => h

theorem Refines.bind {x y : Outcome α} {f g : α → Outcome β} (hxy : Refines x y)
    (hfg : ∀ a, Refines (f a) (g a)) : Refines (x >>= f) (y >>= g) := by
  intro b h
  obtain ⟨a, ha, hb⟩ := bind_eq_ok.mp h
  exact bind_eq_ok.mpr ⟨a, hxy a ha, hfg a b hb⟩

theorem Refines.foldlM {f g : σ → ι → Outcome σ} (hfg : ∀ s a, Refines (f s a) (g s a))
    (xs : List ι) : ∀ s, Refines (xs.foldlM f s) (xs.foldlM g s) := by
  induction xs with
  | nil => exact fun s => .refl _
  | cons a xs ih =>
    intro s
    rw [List.foldlM_cons, List.foldlM_cons]
    exact (hfg s a).bind ih

/-- The checks of calls that compute something without them. -/
theorem Refines.mapM {f : α → Outcome β} {g : α → β} (hfg : ∀ a, Refines (f a) (.ok (g a)))
    (xs : List α) : Refines (xs.mapM f) (.ok (xs.map g)) := by
  induction xs with
  | nil => exact .refl _
  | cons a xs ih =>
    intro bs h
    rw [List.mapM_cons] at h
    obtain ⟨b, hb, h⟩ := bind_eq_ok.mp h
    obtain ⟨rest, hrest, h⟩ := bind_eq_ok.mp h
    rw [List.map_cons, ok.inj (hfg a b hb), ok.inj (ih rest hrest)]
    exact h

end ReadexPtf.Outcome
