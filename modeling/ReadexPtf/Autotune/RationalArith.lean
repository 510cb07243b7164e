import ReadexPtf.Autotune.GDE3Search
import Mathlib

/-! Rational numbers in place of `double`. They agree with it as long as every result is a
double, which a square root of a square is. -/
namespace ReadexPtf.Autotune
open ReadexPtf

/-- Newton's iteration for the integer square root. -/
def natSqrt (n : ℕ) : ℕ → ℕ → ℕ
  | 0, root => root
  | rounds + 1, root =>
    let next := (root + n / root) / 2
    if next < root then natSqrt n rounds next else root

def ratSqrt (q : ℚ) : ℚ :=
  mkRat (natSqrt q.num.toNat 64 (q.num.toNat + 1)) (natSqrt q.den 64 q.den)

/-- Towards zero, as a conversion to an integer type rounds. -/
def truncate (q : ℚ) : ℤ := if q < 0 then -(-q).floor else q.floor

def ratArith : DoubleArith ℚ where
  lt a b := decide (a < b)
  eq a b := decide (a = b)
  add := (· + ·)
  sub := (· - ·)
  mul := (· * ·)
  div := (· / ·)
  abs q := if q < 0 then -q else q
  sqrt := ratSqrt
  round q := if q < 0 then -((-q + 1 / 2).floor : ℤ) else (q + 1 / 2).floor
  floor q := q.floor
  ofInt z := z
  toInt q := some (truncate q)
  fltMax := 2 ^ 128 - 2 ^ 104
  eq_symm _ _ h := decide_eq_true (of_decide_eq_true h).symm
  eq_trans _ _ _ h h' := decide_eq_true ((of_decide_eq_true h).trans (of_decide_eq_true h'))
  not_lt_of_eq _ _ h h' := (of_decide_eq_true h').ne (of_decide_eq_true h)

end ReadexPtf.Autotune
