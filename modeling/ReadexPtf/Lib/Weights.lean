import Mathlib

/-! Weighted means over lists, and when a plain mean is one. -/
namespace ReadexPtf
variable {α β K : Type*} [Field K]

/-- Over all pairs, the differences of one value times those of the other. It is zero where
the two values are not correlated. -/
def coSpread (f g : α → K) (list : List α) : K :=
  (list.map fun a => (list.map fun b => (f a - f b) * (g a - g b)).sum).sum

end ReadexPtf
