import ReadexPtf.Autotune.GDE3Feasible
import Mathlib

/-! Exactly when the filter of the generational search accepts the values of a parameter: the
walk of its 64-bit counter over a range of `int`, below zero, across it and past its end. -/
namespace ReadexPtf.Autotune
open ReadexPtf

section Counter

/-- Within the sign of its numbers the conversion to `size_t` keeps their order. -/
theorem toSize_le_iff {a b : ℤ} (ha : InWindow a) (hb : InWindow b) (hsign : 0 ≤ a ↔ 0 ≤ b) :
    toSize a ≤ toSize b ↔ a ≤ b := by
  simp only [toSize, InWindow] at *
  omega

/-- The values of the counter. -/
def counter (rangeFrom step : ℤ) (i : ℕ) : ℕ := toSize (rangeFrom + i * step)

theorem counter_succ (rangeFrom step : ℤ) (i : ℕ) :
    counter rangeFrom step (i + 1) = (counter rangeFrom step i + toSize step) % 2 ^ 64 := by
  rw [counter, counter, ← toSize_add]
  congr 1
  push_cast
  ring

variable {rangeTo step value : ℕ} {c : ℕ → ℕ}

/-- The loop accepts the value if it comes to it before it ends. -/
theorem onStep_of_hit {j rounds : ℕ} (hc : ∀ i, c (i + 1) = (c i + step) % 2 ^ 64)
    (hrounds : j < rounds) (hle : ∀ i ≤ j, c i ≤ rangeTo) (hhit : c j = value) :
    onStep rangeTo step value rounds (c 0) = .ok true := by
  induction j generalizing rounds c with
  | zero =>
    obtain ⟨rounds, rfl⟩ := Nat.exists_eq_succ_of_ne_zero (by omega : rounds ≠ 0)
    rw [onStep, if_pos (hle 0 le_rfl), if_pos hhit]
    rfl
  | succ j ih =>
    obtain ⟨rounds, rfl⟩ := Nat.exists_eq_succ_of_ne_zero (by omega : rounds ≠ 0)
    rw [onStep, if_pos (hle 0 (by omega))]
    by_cases hfirst : c 0 = value
    · rw [if_pos hfirst]
      rfl
    · rw [if_neg hfirst, ← hc 0]
      exact ih (fun i => hc (i + 1)) (by omega) (fun i hi => hle (i + 1) (by omega)) hhit

/-- It rejects the value if it ends before it comes to it. -/
theorem onStep_of_exit {j rounds : ℕ} (hc : ∀ i, c (i + 1) = (c i + step) % 2 ^ 64)
    (hrounds : j < rounds) (hbefore : ∀ i < j, c i ≤ rangeTo ∧ c i ≠ value)
    (hexit : rangeTo < c j) : onStep rangeTo step value rounds (c 0) = .ok false := by
  induction j generalizing rounds c with
  | zero =>
    obtain ⟨rounds, rfl⟩ := Nat.exists_eq_succ_of_ne_zero (by omega : rounds ≠ 0)
    rw [onStep, if_neg (by omega)]
    rfl
  | succ j ih =>
    obtain ⟨rounds, rfl⟩ := Nat.exists_eq_succ_of_ne_zero (by omega : rounds ≠ 0)
    have hfirst := hbefore 0 (by omega)
    rw [onStep, if_pos hfirst.1, if_neg hfirst.2, ← hc 0]
    exact ih (fun i => hc (i + 1)) (by omega) (fun i hi => hbefore (i + 1) (by omega)) hexit

/-- It goes on for ever if it neither ends nor comes to the value. -/
theorem onStep_of_never (rounds : ℕ) (hc : ∀ i, c (i + 1) = (c i + step) % 2 ^ 64)
    (hnever : ∀ i, c i ≤ rangeTo ∧ c i ≠ value) :
    onStep rangeTo step value rounds (c 0) = .undefined := by
  induction rounds generalizing c with
  | zero => rfl
  | succ rounds ih =>
    rw [onStep, if_pos (hnever 0).1, if_neg (hnever 0).2, ← hc 0]
    exact ih (fun i => hc (i + 1)) fun i => hnever (i + 1)

end Counter

section Walk

/-- The values of the grid: those of its steps that are not past its end. -/
def OnGrid (rangeFrom rangeTo rangeStep value : ℤ) : Prop :=
  (if rangeStep < 0 then rangeTo ≤ value else value ≤ rangeTo) ∧
    ∃ k : ℕ, value = rangeFrom + k * rangeStep

/-- The loop of `checkFeasible` over a range. -/
def walk (rangeFrom rangeTo rangeStep value : ℤ) : Outcome Bool :=
  onStep (toSize rangeTo) (toSize rangeStep) (toSize value) (2 ^ 64) (toSize rangeFrom)

variable {f t s v : ℤ}

theorem counter_zero : counter f s 0 = toSize f := by
  simp [counter]

theorem walk_of_hit {j : ℕ} (hj : j < 2 ^ 64) (hle : ∀ i ≤ j, counter f s i ≤ toSize t)
    (hhit : counter f s j = toSize v) : walk f t s v = .ok true := by
  rw [walk, ← counter_zero (f := f) (s := s)]
  exact onStep_of_hit (counter_succ f s) hj hle hhit

theorem walk_of_exit {j : ℕ} (hj : j < 2 ^ 64)
    (hbefore : ∀ i < j, counter f s i ≤ toSize t ∧ counter f s i ≠ toSize v)
    (hexit : toSize t < counter f s j) : walk f t s v = .ok false := by
  rw [walk, ← counter_zero (f := f) (s := s)]
  exact onStep_of_exit (counter_succ f s) hj hbefore hexit

theorem walk_of_never (hnever : ∀ i, counter f s i ≤ toSize t ∧ counter f s i ≠ toSize v) :
    walk f t s v = .undefined := by
  rw [walk, ← counter_zero (f := f) (s := s)]
  exact onStep_of_never _ (counter_succ f s) hnever

theorem lt_gridCount_iff {i : ℕ} (hs : 0 < s) (hft : f ≤ t) :
    i < gridCount f t s ↔ f + i * s ≤ t := by
  have hdiv : (i : ℤ) ≤ (t - f) / s ↔ f + i * s ≤ t := by
    rw [Int.le_ediv_iff_mul_le hs]
    omega
  have hnonneg : 0 ≤ (t - f) / s := Int.ediv_nonneg (by omega) hs.le
  rw [← hdiv, gridCount]
  omega

theorem gridCount_le (hs : 0 < s) (hft : f ≤ t) : (gridCount f t s : ℤ) ≤ t - f + 1 := by
  have hle : (t - f) / s ≤ t - f := Int.ediv_le_self _ (by omega)
  have hnonneg : 0 ≤ (t - f) / s := Int.ediv_nonneg (by omega) hs.le
  rw [gridCount]
  omega

/-- A value of a grid on one side of zero is found. -/
theorem walk_onGrid (hf : FitsInt f) (ht : FitsInt t) (hs : 0 < s) (hsign : 0 ≤ f ↔ 0 ≤ t)
    (hgrid : OnGrid f t s v) : walk f t s v = .ok true := by
  obtain ⟨hto, k, rfl⟩ := hgrid
  rw [if_neg (by omega)] at hto
  have hk : 0 ≤ (k : ℤ) * s := Int.mul_nonneg (by omega) hs.le
  have hcount : (k : ℤ) ≤ k * s := le_mul_of_one_le_right (by omega) hs
  simp only [FitsInt, intMin, intMax] at hf ht
  apply walk_of_hit (j := k) (by omega) _ rfl
  intro i hi
  have hi0 : 0 ≤ (i : ℤ) * s := Int.mul_nonneg (by omega) hs.le
  have hik : (i : ℤ) * s ≤ k * s := Int.mul_le_mul_of_nonneg_right (by omega) hs.le
  rw [counter, toSize_le_iff]
  · omega
  · rw [InWindow]; omega
  · rw [InWindow]; omega
  · omega

/-- A value off the grid is not found if the counter ends on the side of zero it began on. -/
theorem walk_offGrid (hf : FitsInt f) (ht : FitsInt t) (hint : FitsInt s) (hs : 0 < s)
    (hsign : 0 ≤ f ↔ 0 ≤ t) (hft : f ≤ t) (hv : FitsInt v) (hto : v ≤ t)
    (hend : 0 ≤ t ∨ f + gridCount f t s * s < 0) (hgrid : ¬ OnGrid f t s v) :
    walk f t s v = .ok false := by
  have hcount := gridCount_le hs hft
  have hlast : t < f + gridCount f t s * s := by
    have hnot := (lt_gridCount_iff (i := gridCount f t s) hs hft).not.mp (lt_irrefl _)
    omega
  have hprevious : f + gridCount f t s * s ≤ t + s := by
    have hpos : 0 < gridCount f t s := (lt_gridCount_iff (i := 0) hs hft).mpr (by simpa using hft)
    have hle := (lt_gridCount_iff (i := gridCount f t s - 1) hs hft).mp (by omega)
    rw [Nat.cast_sub hpos, Nat.cast_one, sub_mul, one_mul] at hle
    omega
  simp only [FitsInt, intMin, intMax] at hf ht hint hv
  apply walk_of_exit (j := gridCount f t s) (by omega)
  · intro i hi
    have hle := (lt_gridCount_iff hs hft).mp hi
    have hi0 : 0 ≤ (i : ℤ) * s := Int.mul_nonneg (by omega) hs.le
    have hwindow : InWindow (f + i * s) := by rw [InWindow]; omega
    constructor
    · rw [counter, toSize_le_iff hwindow (by rw [InWindow]; omega) (by omega)]
      exact hle
    · intro heq
      have hvi := toSize_inj hwindow (by rw [InWindow]; omega) heq
      exact hgrid ⟨by rw [if_neg (by omega)]; exact hto, i, hvi.symm⟩
  · rw [counter, ← not_le, toSize_le_iff (by rw [InWindow]; omega) (by rw [InWindow]; omega)
      (by omega), not_le]
    exact hlast

/-- How far behind `rangeFrom` the counter comes back after it has passed 2^64 for the time `p`. -/
def comeback (step : ℤ) (p : ℕ) : ℤ := -(p * 2 ^ 64) % step

theorem comeback_nonneg (hs : 0 < s) (p : ℕ) : 0 ≤ comeback s p := Int.emod_nonneg _ (by omega)

theorem comeback_lt (hs : 0 < s) (p : ℕ) : comeback s p < s := Int.emod_lt_of_pos _ hs

/-- At the latest in the pass `s` the counter comes back to a negative value. -/
theorem comeback_self (hs : 0 < s) : comeback s s.toNat = 0 := by
  rw [comeback, Int.toNat_of_nonneg hs.le, ← mul_neg]
  exact Int.mul_emod_right s _

/-- The step in which the counter comes back. -/
theorem exists_comeback (hs : 0 < s) (p : ℕ) :
    ∃ j : ℕ, (j : ℤ) * s = p * 2 ^ 64 + comeback s p := by
  have hdiv := Int.emod_add_mul_ediv (-(p * 2 ^ 64)) s
  have hnonneg : 0 ≤ -(-(p * 2 ^ 64) / s) := by
    have hle : -(p * 2 ^ 64) / s ≤ 0 := Int.ediv_nonpos_of_nonpos_of_neg (by omega) (by omega)
    omega
  refine ⟨(-(-(p * 2 ^ 64) / s)).toNat, ?_⟩
  rw [Int.toNat_of_nonneg hnonneg, comeback, neg_mul, mul_comm]
  omega

theorem counter_comeback {p j : ℕ} (hj : (j : ℤ) * s = p * 2 ^ 64 + comeback s p) :
    counter f s j = toSize (f + comeback s p) := by
  rw [counter, hj, toSize, toSize]
  omega

/-- Until it first comes back to a negative value, the counter stays below the range. -/
theorem counter_lt_of_before {p i : ℕ} (hint : FitsInt s) (hs : 0 < s) (hpast : 0 ≤ f + i * s) (hbefore : (i : ℤ) * s < p * 2 ^ 64 + comeback s p)
    (hfirst : ∀ q, 1 ≤ q → q < p → -f ≤ comeback s q) : (counter f s i : ℤ) < 2 ^ 64 + f := by
  by_contra hnot
  rw [not_lt] at hnot
  set z := f + i * s with hz
  have hsize : (counter f s i : ℤ) = z % 2 ^ 64 := by
    rw [counter, toSize, ← hz]
    omega
  -- the pass that the counter would be at the end of
  obtain ⟨q, hq⟩ : ∃ q : ℕ, (q : ℤ) = z / 2 ^ 64 :=
    ⟨(z / 2 ^ 64).toNat, Int.toNat_of_nonneg (by omega)⟩
  set e := (i : ℤ) * s - (q + 1 : ℕ) * 2 ^ 64 with he
  have hrange : 0 ≤ e ∧ e < -f := by
    push_cast at he
    omega
  have hmod : comeback s (q + 1) = e % s := by
    rw [comeback, he, ← Int.add_mul_emod_self_right _ (i : ℤ) s]
    congr 1
    ring
  have hle : e % s ≤ e := by
    have hdiv := Int.emod_add_mul_ediv e s
    have hquot : 0 ≤ s * (e / s) := Int.mul_nonneg hs.le (Int.ediv_nonneg hrange.1 hs.le)
    omega
  have hlast := comeback_lt hs p
  simp only [FitsInt, intMin, intMax] at hint
  have hqp : q + 1 ≤ p := by
    push_cast at he
    omega
  cases Nat.lt_or_eq_of_le hqp with
  | inl hlt =>
    have hout := hfirst (q + 1) (by omega) hlt
    omega
  | inr heq =>
    subst heq
    omega

theorem toSize_of_neg {z : ℤ} (hz : FitsInt z) (hneg : z < 0) : (toSize z : ℤ) = 2 ^ 64 + z := by
  simp only [FitsInt, intMin, intMax] at hz
  rw [toSize]
  omega

/-- On a range below zero whose counter gets past zero: until it first comes back to a negative
value, the counter meets no value of the range but those of the grid. -/
theorem counter_before {p i : ℕ} (hf : FitsInt f) (ht : FitsInt t) (hint : FitsInt s)
    (hs : 0 < s) (hft : f ≤ t) (hneg : t < 0) (hpast : 0 ≤ f + gridCount f t s * s)
    (hbefore : (i : ℤ) * s < p * 2 ^ 64 + comeback s p)
    (hfirst : ∀ q, 1 ≤ q → q < p → -f ≤ comeback s q) (hfv : f ≤ v) (hvt : v ≤ t)
    (hgrid : ¬ OnGrid f t s v) : counter f s i ≤ toSize t ∧ counter f s i ≠ toSize v := by
  have hv : FitsInt v := ⟨hf.1.trans hfv, hvt.trans ht.2⟩
  have hsizeV := toSize_of_neg hv (by omega)
  have hsizeT := toSize_of_neg ht hneg
  by_cases hi : i < gridCount f t s
  · have hle := (lt_gridCount_iff hs hft).mp hi
    have hi0 : 0 ≤ (i : ℤ) * s := Int.mul_nonneg (by omega) hs.le
    have hfits : FitsInt (f + i * s) := ⟨hf.1.trans (by omega), hle.trans ht.2⟩
    have hsize := toSize_of_neg hfits (by omega)
    have hne : f + i * s ≠ v := by
      intro heq
      exact hgrid ⟨by rw [if_neg (by omega)]; exact hvt, i, heq.symm⟩
    rw [counter]
    omega
  · have hmul : (gridCount f t s : ℤ) * s ≤ i * s :=
      Int.mul_le_mul_of_nonneg_right (by omega) hs.le
    have hlt := counter_lt_of_before hint hs (by omega) hbefore hfirst
    omega

/-- The first negative value that the counter comes back to is past the range. -/
def ComesBackPast (f t s : ℤ) : Prop :=
  ∃ p : ℕ, 1 ≤ p ∧ (∀ q, 1 ≤ q → q < p → -f ≤ comeback s q) ∧
    t - f < comeback s p ∧ comeback s p < -f

theorem exists_first_comeback (hs : 0 < s) (hneg : f < 0) :
    ∃ p : ℕ, 1 ≤ p ∧ p ≤ s.toNat ∧ comeback s p < -f ∧
      ∀ q, 1 ≤ q → q < p → -f ≤ comeback s q := by
  have hexists : ∃ p : ℕ, 1 ≤ p ∧ comeback s p < -f :=
    ⟨s.toNat, by omega, by rw [comeback_self hs]; omega⟩
  refine ⟨Nat.find hexists, (Nat.find_spec hexists).1,
    Nat.find_min' hexists ⟨by omega, by rw [comeback_self hs]; omega⟩,
    (Nat.find_spec hexists).2, ?_⟩
  intro q hq hlt
  have hnot := Nat.find_min hexists hlt
  omega

/-- The step of a pass before the last one has a number of 64 bits. -/
theorem lt_of_comeback {p j : ℕ} (hint : FitsInt s) (hs : 0 < s) (hp : p < s.toNat)
    (hj : (j : ℤ) * s = p * 2 ^ 64 + comeback s p) : j < 2 ^ 64 := by
  have hlast := comeback_lt hs p
  simp only [FitsInt, intMin, intMax] at hint
  have hbound : (j : ℤ) * s < 2 ^ 64 * s := by
    have hps : (p : ℤ) + 1 ≤ s := by omega
    omega
  have hlt := lt_of_mul_lt_mul_right hbound hs.le
  omega

/-- Such a counter ends past the range, and the value off the grid is not found. -/
theorem walk_comesBackPast (hf : FitsInt f) (ht : FitsInt t) (hint : FitsInt s)
    (hs : 0 < s) (hft : f ≤ t) (hneg : t < 0) (hpast : 0 ≤ f + gridCount f t s * s)
    (hback : ComesBackPast f t s) (hfv : f ≤ v) (hvt : v ≤ t) (hgrid : ¬ OnGrid f t s v) :
    walk f t s v = .ok false := by
  obtain ⟨p, hp, hfirst, hlow, hhigh⟩ := hback
  obtain ⟨j, hj⟩ := exists_comeback hs p
  have hps : p < s.toNat := by
    by_contra hnot
    cases Nat.lt_or_eq_of_le (not_lt.mp hnot) with
    | inl hlt =>
      have hout := hfirst s.toNat (by omega) hlt
      rw [comeback_self hs] at hout
      omega
    | inr heq =>
      rw [← heq, comeback_self hs] at hlow
      omega
  apply walk_of_exit (lt_of_comeback hint hs hps hj)
  · intro i hi
    have hbefore : (i : ℤ) * s < j * s := mul_lt_mul_of_pos_right (by exact_mod_cast hi) hs
    exact counter_before hf ht hint hs hft hneg hpast (hj ▸ hbefore) hfirst hfv hvt hgrid
  · have hsizeT := toSize_of_neg ht hneg
    have hfits : FitsInt (f + comeback s p) :=
      ⟨hf.1.trans (by omega), le_trans (by omega : f + comeback s p ≤ 0) (by decide)⟩
    have hsize := toSize_of_neg hfits (by omega)
    rw [counter_comeback hj]
    omega

/-- A counter that first comes back to a negative value in the range accepts it, or goes round
for ever. -/
theorem walk_comesBack (hf : FitsInt f) (ht : FitsInt t) (hint : FitsInt s)
    (hs : 2 ≤ s) (hft : f < t) (hneg : t < 0) (hpast : 0 ≤ f + gridCount f t s * s)
    (hback : ¬ ComesBackPast f t s) :
    ∃ v, f ≤ v ∧ v ≤ t ∧ ¬ OnGrid f t s v ∧ walk f t s v ≠ .ok false := by
  obtain ⟨p, hp, hps, hlt, hfirst⟩ := exists_first_comeback (s := s) (by omega) (by omega : f < 0)
  have hin : comeback s p ≤ t - f := by
    by_contra hnot
    exact hback ⟨p, hp, hfirst, by omega, hlt⟩
  obtain ⟨j, hj⟩ := exists_comeback (s := s) (by omega) p
  have hnonneg := comeback_nonneg (s := s) (by omega) p
  have hless := comeback_lt (s := s) (by omega) p
  have hoff : ∀ d, 0 < d → d < s → ¬ OnGrid f t s (f + d) := by
    rintro d hd hds ⟨-, k, hk⟩
    cases k with
    | zero => simp at hk; omega
    | succ k =>
      have hks : 0 ≤ (k : ℤ) * s := Int.mul_nonneg (by omega) (by omega)
      rw [Nat.cast_add, Nat.cast_one, add_mul, one_mul] at hk
      omega
  have hmul : ∀ {i i' : ℕ}, i < i' → (i : ℤ) * s < i' * s := fun hi =>
    mul_lt_mul_of_pos_right (by exact_mod_cast hi) (by omega)
  by_cases hzero : comeback s p = 0
  · -- the counter comes back to `f`
    refine ⟨f + 1, by omega, by omega, hoff 1 one_pos (by omega), ?_⟩
    have hjpos : 0 < j := by
      apply Nat.pos_of_ne_zero
      rintro rfl
      omega
    have hnever : ∀ i, counter f s i ≤ toSize t ∧ counter f s i ≠ toSize (f + 1) := by
      intro i
      have hperiod : counter f s i = counter f s (i % j) := by
        have hsplit : (i : ℤ) * s = (i % j : ℕ) * s + (i / j : ℕ) * (j * s) := by
          have hi : (i : ℤ) = (i % j : ℕ) + j * (i / j : ℕ) := by
            exact_mod_cast (Nat.mod_add_div i j).symm
          calc (i : ℤ) * s = ((i % j : ℕ) + j * (i / j : ℕ)) * s := by rw [← hi]
            _ = (i % j : ℕ) * s + (i / j : ℕ) * (j * s) := by ring
        have hround : ((i / j : ℕ) : ℤ) * (j * s) = (i / j * p : ℕ) * 2 ^ 64 := by
          rw [hj, hzero]
          push_cast
          ring
        rw [counter, counter, toSize, toSize, hsplit, hround]
        omega
      rw [hperiod]
      exact counter_before hf ht hint (by omega) hft.le hneg hpast
        (hj ▸ hmul (Nat.mod_lt i hjpos)) hfirst (by omega) (by omega) (hoff 1 one_pos (by omega))
    rw [walk_of_never hnever]
    simp
  · refine ⟨f + comeback s p, by omega, by omega, hoff _ (by omega) (by omega), ?_⟩
    have hps' : p < s.toNat := by
      apply lt_of_le_of_ne hps
      rintro rfl
      exact hzero (comeback_self (by omega))
    have hhit := counter_comeback (f := f) hj
    have hfits : FitsInt (f + comeback s p) := ⟨hf.1.trans (by omega), le_trans (by omega) ht.2⟩
    rw [walk_of_hit (lt_of_comeback hint (by omega) hps' hj) _ hhit]
    · simp
    · intro i hi
      cases Nat.lt_or_eq_of_le hi with
      | inl hlt' =>
        exact (counter_before hf ht hint (by omega) hft.le hneg hpast (hj ▸ hmul hlt') hfirst
          (by omega) (by omega) (hoff 1 one_pos (by omega))).1
      | inr heq =>
        rw [heq, hhit]
        have hsizeT := toSize_of_neg ht hneg
        have hsizeV := toSize_of_neg hfits (by omega)
        omega

/-- A range across zero is empty for the counter. -/
theorem walk_across (hf : FitsInt f) (ht : FitsInt t) (hneg : f < 0) (hpos : 0 ≤ t) :
    walk f t s v = .ok false := by
  apply walk_of_exit (j := 0) (by omega) (fun i hi => absurd hi (by omega))
  have hsize := toSize_of_neg hf hneg
  simp only [FitsInt, intMin, intMax] at hf ht
  rw [counter_zero]
  simp only [toSize] at *
  omega

theorem walk_first (hf : FitsInt f) (ht : FitsInt t) (hsign : 0 ≤ f ↔ 0 ≤ t) (hft : f ≤ t) :
    walk f t s f = .ok true := by
  simp only [FitsInt, intMin, intMax] at hf ht
  apply walk_of_hit (j := 0) (by omega) _ counter_zero
  intro i hi
  rw [Nat.le_zero.mp hi, counter_zero, toSize_le_iff (by rw [InWindow]; omega)
    (by rw [InWindow]; omega) hsign]
  exact hft

/-- Without a step the counter stays where it is. -/
theorem walk_zero (hf : FitsInt f) (ht : FitsInt t) (hsign : 0 ≤ f ↔ 0 ≤ t) (hft : f < t) :
    walk f t 0 t = .undefined := by
  simp only [FitsInt, intMin, intMax] at hf ht
  apply walk_of_never
  intro i
  have hstay : counter f 0 i = toSize f := by simp [counter]
  rw [hstay, toSize_le_iff (by rw [InWindow]; omega) (by rw [InWindow]; omega) hsign]
  refine ⟨hft.le, ?_⟩
  intro heq
  have hsame := toSize_inj (by rw [InWindow]; omega) (by rw [InWindow]; omega) heq
  omega

theorem OnGrid.bounds (hs : 0 ≤ s) (h : OnGrid f t s v) : f ≤ v ∧ v ≤ t := by
  obtain ⟨hto, k, rfl⟩ := h
  rw [if_neg (by omega)] at hto
  have hk : 0 ≤ (k : ℤ) * s := Int.mul_nonneg (by omega) hs
  omega

theorem onGrid_first (hs : 0 ≤ s) (hft : f ≤ t) : OnGrid f t s f :=
  ⟨by rw [if_neg (by omega)]; exact hft, 0, by simp⟩

/-- The test of a value against a range. -/
def checkRange (rangeFrom rangeTo rangeStep value : ℤ) : Outcome Bool :=
  if value < rangeFrom then .ok false
  else if rangeTo < value then .ok false
  else walk rangeFrom rangeTo rangeStep value

/-- The test ends for every value and accepts those of the grid. -/
def RangeExact (rangeFrom rangeTo rangeStep : ℤ) : Prop :=
  ∀ value, ∃ b, checkRange rangeFrom rangeTo rangeStep value = .ok b ∧
    (b = true ↔ OnGrid rangeFrom rangeTo rangeStep value)

theorem checkRange_inside (hfv : f ≤ v) (hvt : v ≤ t) : checkRange f t s v = walk f t s v := by
  rw [checkRange, if_neg (by omega), if_neg (by omega)]

theorem checkRange_outside (h : ¬ (f ≤ v ∧ v ≤ t)) : checkRange f t s v = .ok false := by
  rw [checkRange]
  by_cases hfv : v < f
  · rw [if_pos hfv]
  · rw [if_neg hfv, if_pos (by omega)]

/-- Outside of the range nothing is accepted, inside the walk decides. -/
theorem rangeExact_iff_walk (hs : 0 ≤ s) :
    RangeExact f t s ↔ ∀ v, f ≤ v → v ≤ t →
      (OnGrid f t s v → walk f t s v = .ok true) ∧
      (¬ OnGrid f t s v → walk f t s v = .ok false) := by
  constructor
  · intro h v hfv hvt
    obtain ⟨b, hb, hiff⟩ := h v
    rw [checkRange_inside hfv hvt] at hb
    constructor
    · exact fun hgrid => hiff.mpr hgrid ▸ hb
    · exact fun hgrid => Bool.eq_false_iff.mpr (mt hiff.mp hgrid) ▸ hb
  · intro h v
    by_cases hin : f ≤ v ∧ v ≤ t
    · rw [checkRange_inside hin.1 hin.2]
      by_cases hgrid : OnGrid f t s v
      · exact ⟨true, (h v hin.1 hin.2).1 hgrid, by simpa using hgrid⟩
      · exact ⟨false, (h v hin.1 hin.2).2 hgrid, by simpa using hgrid⟩
    · refine ⟨false, checkRange_outside hin, ?_⟩
      simpa using fun hgrid : OnGrid f t s v => hin (hgrid.bounds hs)

/-- A range whose counter comes to every value of the grid and to no other value of the range. -/
def CounterExact (f t s : ℤ) : Prop :=
  t < f ∨ 0 ≤ f ∨ t < 0 ∧
    (f = t ∨ s = 1 ∨ f + gridCount f t s * s < 0 ∨ ComesBackPast f t s)

theorem rangeExact_pos_iff (hf : FitsInt f) (ht : FitsInt t) (hint : FitsInt s) (hs : 0 < s) :
    RangeExact f t s ↔ CounterExact f t s := by
  rw [rangeExact_iff_walk hs.le]
  constructor
  · intro h
    by_contra hnot
    simp only [CounterExact, not_or, not_and_or, not_lt, not_le] at hnot
    obtain ⟨hft, hneg, hrest⟩ := hnot
    cases hrest with
    | inl hpos =>
      have hfirst := (h f le_rfl hft).1 (onGrid_first hs.le hft)
      rw [walk_across hf ht hneg hpos] at hfirst
      exact absurd (Outcome.ok.inj hfirst) (by simp)
    | inr hrest =>
      obtain ⟨hne, hone, hpast, hback⟩ := hrest
      by_cases hpos : 0 ≤ t
      · have hfirst := (h f le_rfl hft).1 (onGrid_first hs.le hft)
        rw [walk_across hf ht hneg hpos] at hfirst
        exact absurd (Outcome.ok.inj hfirst) (by simp)
      · obtain ⟨v, hfv, hvt, hgrid, hwalk⟩ :=
          walk_comesBack hf ht hint (by omega) (by omega) (by omega) hpast hback
        exact hwalk ((h v hfv hvt).2 hgrid)
  · intro h v hfv hvt
    have hft : f ≤ t := hfv.trans hvt
    have hv : FitsInt v := ⟨hf.1.trans hfv, hvt.trans ht.2⟩
    have hsign : 0 ≤ f ↔ 0 ≤ t := by
      cases h with
      | inl hempty => omega
      | inr h => cases h with
        | inl hpos => omega
        | inr hneg => omega
    refine ⟨walk_onGrid hf ht hs hsign, ?_⟩
    intro hgrid
    by_cases hend : 0 ≤ t ∨ f + gridCount f t s * s < 0
    · exact walk_offGrid hf ht hint hs hsign hft hv hvt hend hgrid
    · rw [not_or, not_lt, not_le] at hend
      have hcases : f = t ∨ s = 1 ∨ ComesBackPast f t s := by
        cases h with
        | inl hempty => omega
        | inr h => cases h with
          | inl hpos => omega
          | inr hneg => exact hneg.2.imp_right fun h => h.imp_right fun h => h.resolve_left (by omega)
      cases hcases with
      | inl hsingle =>
        have hvf : v = f := by omega
        exact absurd (onGrid_first hs.le hft) (hvf ▸ hgrid)
      | inr hcases => cases hcases with
        | inl hone =>
          refine absurd ⟨by rw [if_neg (by omega)]; exact hvt, (v - f).toNat, ?_⟩ hgrid
          rw [hone, Int.toNat_of_nonneg (by omega)]
          omega
        | inr hback =>
          exact walk_comesBackPast hf ht hint hs hft hend.1 hend.2 hback hfv hvt hgrid

theorem rangeExact_zero_iff (hf : FitsInt f) (ht : FitsInt t) : RangeExact f t 0 ↔ t ≤ f := by
  rw [rangeExact_iff_walk le_rfl]
  constructor
  · intro h
    by_contra hnot
    rw [not_le] at hnot
    by_cases hsign : 0 ≤ f ↔ 0 ≤ t
    · have hlast := (h t hnot.le le_rfl).2 (by
        rintro ⟨-, k, hk⟩
        omega)
      rw [walk_zero hf ht hsign hnot] at hlast
      exact absurd hlast (by simp)
    · have hfirst := (h f le_rfl hnot.le).1 (onGrid_first le_rfl hnot.le)
      rw [walk_across hf ht (by omega) (by omega)] at hfirst
      exact absurd (Outcome.ok.inj hfirst) (by simp)
  · intro htf v hfv hvt
    have hvf : v = f := by omega
    have hft : f = t := by omega
    refine ⟨fun _ => ?_, fun hgrid => absurd (onGrid_first le_rfl hft.le) (hvf ▸ hgrid)⟩
    rw [hvf]
    exact walk_first hf ht (by rw [hft]) hft.le

/-- A grid that goes down is tested right if it is one value, or none and not looked for. -/
theorem rangeExact_neg_iff (hf : FitsInt f) (ht : FitsInt t) (hs : s < 0) :
    RangeExact f t s ↔ f = t ∨ f < 0 ∧ 0 ≤ t := by
  have hbounds : ∀ {v}, OnGrid f t s v → t ≤ v ∧ v ≤ f := by
    rintro v ⟨hto, k, rfl⟩
    rw [if_pos hs] at hto
    have hk : (k : ℤ) * s ≤ 0 := Int.mul_nonpos_of_nonneg_of_nonpos (by omega) hs.le
    omega
  have hfirst : t ≤ f → OnGrid f t s f := fun htf => ⟨by rw [if_pos hs]; exact htf, 0, by simp⟩
  constructor
  · intro h
    obtain ⟨b, hb, hiff⟩ := h f
    by_contra hnot
    rw [not_or, not_and_or] at hnot
    by_cases htf : t ≤ f
    · rw [checkRange_outside (by omega)] at hb
      have htrue := hiff.mpr (hfirst htf)
      rw [← Outcome.ok.inj hb] at htrue
      exact absurd htrue (by simp)
    · rw [checkRange_inside le_rfl (by omega), walk_first hf ht (by omega) (by omega)] at hb
      have hgrid := hbounds (hiff.mp (Outcome.ok.inj hb).symm)
      omega
  · intro h v
    by_cases hin : f ≤ v ∧ v ≤ t
    · rw [checkRange_inside hin.1 hin.2]
      cases h with
      | inl heq =>
        have hvf : v = f := by omega
        rw [hvf]
        exact ⟨true, walk_first hf ht (by rw [heq]) heq.le, by simpa using hfirst heq.ge⟩
      | inr hacross =>
        refine ⟨false, walk_across hf ht hacross.1 hacross.2, ?_⟩
        simpa using fun hgrid : OnGrid f t s v => absurd (hbounds hgrid) (by omega)
    · refine ⟨false, checkRange_outside hin, ?_⟩
      simpa using fun hgrid : OnGrid f t s v => absurd (hbounds hgrid) (by omega)

end Walk

namespace TuningParameter

/-- The values of the parameter: its grid, or the elements of its restriction. -/
def Accepts (tp : TuningParameter) (value : ℤ) : Prop :=
  match tp.elementWise with
  | none => OnGrid tp.rangeFrom tp.rangeTo tp.rangeStep value
  | some v => value ∈ v

/-- A parameter with a restriction of elements, or with a range that its counter meets
exactly. A step of zero or below does so in the few cases of the last two lines. -/
def CheckExact (tp : TuningParameter) : Prop :=
  tp.elementWise ≠ none ∨
  (0 < tp.rangeStep ∧ CounterExact tp.rangeFrom tp.rangeTo tp.rangeStep) ∨
  (tp.rangeStep = 0 ∧ tp.rangeTo ≤ tp.rangeFrom) ∨
  (tp.rangeStep < 0 ∧ (tp.rangeFrom = tp.rangeTo ∨ tp.rangeFrom < 0 ∧ 0 ≤ tp.rangeTo))

/-- The test of a value ends and accepts the values of the parameter. -/
def Tests (tp : TuningParameter) : Prop :=
  ∀ value, ∃ b, tp.checkValue value = .ok b ∧ (b = true ↔ tp.Accepts value)

theorem tests_iff {tp : TuningParameter} (hint : tp.IntTyped) : tp.Tests ↔ tp.CheckExact := by
  obtain ⟨hf, ht, hs⟩ := hint
  cases helem : tp.elementWise with
  | some v =>
    refine iff_of_true ?_ (.inl (by simp [helem]))
    intro value
    refine ⟨v.contains value, by rw [checkValue, helem]; rfl, ?_⟩
    rw [Accepts, helem, List.contains_iff_mem]
  | none =>
    have hrange : tp.Tests ↔ RangeExact tp.rangeFrom tp.rangeTo tp.rangeStep := by
      simp only [Tests, RangeExact, checkValue, Accepts, helem]
      rfl
    rw [hrange, CheckExact, helem]
    rcases lt_trichotomy tp.rangeStep 0 with hneg | hzero | hpos
    · rw [rangeExact_neg_iff hf ht hneg]
      simp [hneg, hneg.ne, hneg.le.not_gt]
    · rw [hzero, rangeExact_zero_iff hf ht]
      simp
    · rw [rangeExact_pos_iff hf ht hs hpos]
      simp [hpos, hpos.ne', hpos.le.not_gt]

end TuningParameter

/-- In a search space of parameters tested right, variants of values of the parameters are
feasible, and no others. -/
theorem checkFeasible_exact {tps : List TuningParameter} (variant : Variant)
    (h : ∀ tp ∈ tps, tp.Tests) :
    ∃ b, checkFeasible variant tps = .ok b ∧
      (b = true ↔ ∀ tp ∈ tps, tp.Accepts ((variant.get? tp.addr).getD 0)) := by
  induction tps with
  | nil => exact ⟨true, rfl, by simp⟩
  | cons tp tps ih =>
    rw [List.forall_mem_cons] at h
    obtain ⟨b, hb, hiff⟩ := h.1 ((variant.get? tp.addr).getD 0)
    obtain ⟨b', hb', hiff'⟩ := ih h.2
    rw [checkFeasible, hb, List.forall_mem_cons, ← hiff, ← hiff', Outcome.ok_bind]
    cases b with
    | false => exact ⟨false, rfl, by simp⟩
    | true => exact ⟨b', hb', by simp⟩

/-- The filter is right for all values of a parameter exactly if its counter is. -/
theorem checkFeasible_exact_iff {tp : TuningParameter} (hint : tp.IntTyped) :
    (∀ variant : Variant, ∃ b, checkFeasible variant [tp] = .ok b ∧
      (b = true ↔ tp.Accepts ((variant.get? tp.addr).getD 0))) ↔ tp.CheckExact := by
  rw [← TuningParameter.tests_iff hint]
  constructor
  · intro h value
    obtain ⟨b, hb, hiff⟩ := h (OrdMap.empty.set tp.addr value)
    rw [OrdMap.get?_set, if_pos rfl, Option.getD_some] at hiff
    rw [checkFeasible, OrdMap.get?_set, if_pos rfl, Option.getD_some] at hb
    obtain ⟨b', hb', hrest⟩ := Outcome.bind_eq_ok.mp hb
    refine ⟨b', hb', ?_⟩
    rw [← hiff]
    cases b' with
    | false => rw [← Outcome.ok.inj (by simpa using hrest : Outcome.ok false = .ok b)]
    | true => rw [← Outcome.ok.inj (by simpa [checkFeasible] using hrest : Outcome.ok true = .ok b)]
  · intro h variant
    have hall := @checkFeasible_exact [tp] variant (by simpa using h)
    simpa using hall

/-- The grid from 0 to 15. -/
theorem checkFeasible_exact_iff_sixteen :
    (∀ variant : Variant, ∃ b, checkFeasible variant [⟨0, 0, 15, 1, none⟩] = .ok b ∧
      (b = true ↔ TuningParameter.Accepts ⟨0, 0, 15, 1, none⟩ ((variant.get? 0).getD 0))) ↔
    TuningParameter.CheckExact ⟨0, 0, 15, 1, none⟩ :=
  @checkFeasible_exact_iff ⟨0, 0, 15, 1, none⟩ (by decide)

/-- From -2 to 2 no value is accepted. -/
theorem not_checkFeasible_exact_across :
    ¬ ∀ variant : Variant, ∃ b, checkFeasible variant [⟨0, -2, 2, 1, none⟩] = .ok b ∧
      (b = true ↔ TuningParameter.Accepts ⟨0, -2, 2, 1, none⟩ ((variant.get? 0).getD 0)) := by
  intro h
  obtain ⟨b, hb, hiff⟩ := h (OrdMap.empty.set 0 (-2))
  have hvalue : ((OrdMap.empty.set 0 (-2) : Variant).get? 0).getD 0 = -2 := by decide
  have hrejected : checkFeasible (OrdMap.empty.set 0 (-2)) [⟨0, -2, 2, 1, none⟩] = .ok false := by
    rw [checkFeasible, hvalue]
    have hwalk := walk_across (f := -2) (t := 2) (s := 1) (v := -2) (by decide) (by decide)
      (by decide) (by decide)
    have hcheck : TuningParameter.checkValue ⟨0, -2, 2, 1, none⟩ (-2) = .ok false := hwalk
    rw [hcheck]
    rfl
  rw [hrejected] at hb
  rw [hvalue, ← Outcome.ok.inj hb] at hiff
  exact absurd (hiff.mpr ⟨by decide, 0, by decide⟩) (by decide)

end ReadexPtf.Autotune
