import Mathlib

/-! Numbers with the special values of `double`: comparisons with `nan` are false. -/
namespace ReadexPtf

inductive Dbl (R : Type*) where
  | nan
  | negInf
  | fin (x : R)
  | posInf
  deriving DecidableEq, Repr

namespace Dbl
variable {R : Type*} [LT R]

/-- `a < b`. -/
def less : Dbl R → Dbl R → Prop
  | .negInf, .fin _ => True
  | .negInf, .posInf => True
  | .fin x, .fin y => x < y
  | .fin _, .posInf => True
  | _, _ => False

instance : LT (Dbl R) := ⟨less⟩

instance [DecidableLT R] : DecidableLT (Dbl R)
  | .fin x, .fin y => inferInstanceAs (Decidable (x < y))
  | .negInf, .fin _ => isTrue trivial
  | .negInf, .posInf => isTrue trivial
  | .fin _, .posInf => isTrue trivial
  | .nan, _ => isFalse (by simp [LT.lt, less])
  | .negInf, .nan => isFalse (by simp [LT.lt, less])
  | .negInf, .negInf => isFalse (by simp [LT.lt, less])
  | .fin _, .nan => isFalse (by simp [LT.lt, less])
  | .fin _, .negInf => isFalse (by simp [LT.lt, less])
  | .posInf, _ => isFalse (by simp [LT.lt, less])

theorem less_trans {R : Type*} [Preorder R] {x y z : Dbl R} (hxy : x < y) (hyz : y < z) :
    x < z :=
  match x, y, z, hxy, hyz with
  | .fin _, .fin _, .fin _, hxy, hyz => @lt_trans R _ _ _ _ hxy hyz
  | .negInf, .fin _, .fin _, _, _ => trivial
  | .negInf, .fin _, .posInf, _, _ => trivial
  | .fin _, .fin _, .posInf, _, _ => trivial

end Dbl
end ReadexPtf
