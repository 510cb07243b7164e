import ReadexPtf.MpiParameters.Configuration
import Mathlib

/-! The multiplicative intervals of the configuration: the values are written out one by
one while the file is parsed. -/
namespace ReadexPtf.MpiParameters
open ReadexPtf

/-- The loop variable, the texts so far and their number. -/
structure Expansion where
  i : ℤ
  values : List String
  count : ℤ

def multiplyRound (factor : ℤ) (s : Expansion) : Outcome Expansion := do
  let count ← toInt (s.count + 1)
  let i ← toInt (s.i * factor)
  .ok { i := i, values := s.values ++ [s.i.repr], count := count }

/-- `INT INTERVALSEP INCMUL INT INTERVALSEP INT ENDVALS`, the loop being followed for a
number of rounds. -/
def multiplyInterval (rounds : ℕ) (start factor stop : ℤ) (tp : MPIParameterTP) :
    Outcome MPIParameterTP := do
  let s ← Outcome.whileLoop (fun s => s.i ≤ stop) (multiplyRound factor) rounds
    { i := start, values := tp.values, count := 0 }
  let last ← toInt (s.count - 1)
  .ok { tp with ranged := false, values := s.values, start := 0, step := 1, end_ := last }

/-- The expansion ends, and its values and indices are those of the products that do not
exceed the end. -/
def Expands (type : LineType) (name : String) (start factor stop : ℤ) : Prop :=
  ∃ rounds tp, multiplyInterval rounds start factor stop (.init type name) = .ok tp ∧
    tp.start = 0 ∧ tp.step = 1 ∧ ∀ k : ℕ,
      tp.values[k]? =
        (if start * factor ^ k ≤ stop then some (start * factor ^ k).repr else none) ∧
      (k ≤ tp.end_ ↔ start * factor ^ k ≤ stop)

section Rounds
variable {start factor stop : ℤ}

/-- The state before round `n`. -/
def expansion (start factor : ℤ) (n : ℕ) : Expansion where
  i := start * factor ^ n
  values := (List.range n).map fun k => (start * factor ^ k).repr
  count := n

theorem toInt_eq_ok {number number' : ℤ} :
    toInt number = .ok number' ↔ FitsInt number ∧ number' = number := by
  rw [toInt]
  split_ifs with h <;> simp [h, eq_comm]

theorem multiplyRound_expansion {n : ℕ} {s : Expansion} :
    multiplyRound factor (expansion start factor n) = .ok s ↔
      (FitsInt ((n + 1 : ℕ) : ℤ) ∧ FitsInt (start * factor ^ (n + 1))) ∧
        s = expansion start factor (n + 1) := by
  have hnext : (expansion start factor n).i * factor = start * factor ^ (n + 1) := by
    rw [expansion, pow_succ, mul_assoc]
  have hcount : (expansion start factor n).count + 1 = ((n + 1 : ℕ) : ℤ) := by
    rw [expansion]
    push_cast
    rfl
  rw [multiplyRound, Outcome.bind_eq_ok, hnext, hcount]
  simp only [toInt_eq_ok, Outcome.bind_eq_ok, Outcome.ok.injEq]
  constructor
  · rintro ⟨_, ⟨hfits, rfl⟩, _, ⟨hfits', rfl⟩, rfl⟩
    exact ⟨⟨hfits, hfits'⟩, by simp [expansion, List.range_succ]⟩
  · rintro ⟨⟨hfits, hfits'⟩, rfl⟩
    exact ⟨_, ⟨hfits, rfl⟩, _, ⟨hfits', rfl⟩, by simp [expansion, List.range_succ]⟩

/-- The loop leaves at the first product beyond the end, if all up to it fit an `int`. -/
structure Leaves (start factor stop : ℤ) (n : ℕ) : Prop where
  below : ∀ k < n, start * factor ^ k ≤ stop
  fits : ∀ k < n, FitsInt ((k + 1 : ℕ) : ℤ) ∧ FitsInt (start * factor ^ (k + 1))
  beyond : stop < start * factor ^ n

theorem leaves_of_whileLoop {rounds : ℕ} {s : Expansion}
    (h : Outcome.whileLoop (fun s => s.i ≤ stop) (multiplyRound factor) rounds
      (expansion start factor 0) = .ok s) :
    ∃ n, Leaves start factor stop n ∧ s = expansion start factor n := by
  obtain ⟨⟨n, hs, hbelow, hfits⟩, hend⟩ := Outcome.whileLoop_invariant
    (fun s => ∃ n, s = expansion start factor n ∧ (∀ k < n, start * factor ^ k ≤ stop) ∧
      ∀ k < n, FitsInt ((k + 1 : ℕ) : ℤ) ∧ FitsInt (start * factor ^ (k + 1)))
    (fun s s' hcond => by
      rintro ⟨n, rfl, hbelow, hfits⟩ hround
      obtain ⟨hfits', rfl⟩ := multiplyRound_expansion.mp hround
      have hle : start * factor ^ n ≤ stop := of_decide_eq_true hcond
      refine ⟨n + 1, rfl, fun k hk => ?_, fun k hk => ?_⟩
      · by_cases hlast : k = n
        · exact hlast ▸ hle
        · exact hbelow k (by omega)
      · by_cases hlast : k = n
        · exact hlast ▸ hfits'
        · exact hfits k (by omega))
    rounds _ s ⟨0, rfl, by simp, by simp⟩ h
  subst hs
  rw [decide_eq_true_eq, not_le] at hend
  exact ⟨n, ⟨hbelow, hfits, hend⟩, rfl⟩

theorem whileLoop_of_leaves {n : ℕ} (h : Leaves start factor stop n) {k m : ℕ} (hk : k + m = n) :
    Outcome.whileLoop (fun s => s.i ≤ stop) (multiplyRound factor) m
      (expansion start factor k) = .ok (expansion start factor n) := by
  induction m generalizing k with
  | zero =>
    obtain rfl : k = n := hk
    have hend : ¬ (expansion start factor k).i ≤ stop := not_le.mpr h.beyond
    rw [Outcome.whileLoop, if_neg (by rwa [decide_eq_true_eq])]
  | succ m ih =>
    have hle : (expansion start factor k).i ≤ stop := h.below k (by omega)
    rw [Outcome.whileLoop, if_pos (decide_eq_true hle),
      multiplyRound_expansion.mpr ⟨h.fits k (by omega), rfl⟩, Outcome.ok_bind, ih (by omega)]

/-- The products up to the end are the first ones, and the loop gets past them. -/
theorem expands_iff_leaves {type : LineType} {name : String} :
    Expands type name start factor stop ↔
      ∃ n, Leaves start factor stop n ∧ ∀ k, start * factor ^ k ≤ stop ↔ k < n := by
  have hinit : ({ i := start, values := (MPIParameterTP.init type name).values, count := 0 } :
      Expansion) = expansion start factor 0 := by simp [expansion, MPIParameterTP.init]
  constructor
  · rintro ⟨rounds, tp, hrun, -, -, hvalues⟩
    rw [multiplyInterval, hinit, Outcome.bind_eq_ok] at hrun
    obtain ⟨s, hloop, hrun⟩ := hrun
    obtain ⟨n, hleaves, rfl⟩ := leaves_of_whileLoop hloop
    rw [Outcome.bind_eq_ok] at hrun
    obtain ⟨last, hlast, hrun⟩ := hrun
    obtain ⟨-, rfl⟩ := toInt_eq_ok.mp hlast
    obtain rfl := Outcome.ok.inj hrun
    refine ⟨n, hleaves, fun k => (hvalues k).2.symm.trans ?_⟩
    simp only [expansion]
    omega
  · rintro ⟨n, hleaves, hiff⟩
    have hfits : FitsInt ((expansion start factor n).count - 1) := by
      simp only [expansion]
      cases n with
      | zero => decide
      | succ n =>
        have h := (hleaves.fits n (by omega)).1
        simp only [FitsInt] at h ⊢
        push_cast at h ⊢
        omega
    have hrun : multiplyInterval n start factor stop (.init type name) =
        .ok { MPIParameterTP.init type name with
          values := (expansion start factor n).values
          start := 0
          step := 1
          end_ := (expansion start factor n).count - 1 } := by
      rw [multiplyInterval, hinit, whileLoop_of_leaves hleaves (Nat.zero_add n), Outcome.ok_bind,
        toInt_eq_ok.mpr ⟨hfits, rfl⟩, Outcome.ok_bind]
      rfl
    refine ⟨n, _, hrun, rfl, rfl, fun k => ⟨?_, ?_⟩⟩
    · by_cases hk : k < n
      · simp [expansion, hk, (hiff k).mpr hk]
      · simp [expansion, hk, mt (hiff k).mp hk]
    · rw [hiff]
      simp only [expansion]
      omega

end Rounds

/-- The intervals that are written out as they should be: those whose products grow beyond
the end within the numbers of an `int`, and those whose products end at once. -/
def Bounded (start factor stop : ℤ) : Prop :=
  (0 < start ∧ 2 ≤ factor ∧ ∃ n : ℕ, stop < start * factor ^ n ∧ FitsInt (start * factor ^ n)) ∨
    (factor = 1 ∧ stop < start) ∨
    (factor = -1 ∧ stop < -|start|) ∨
    ((factor = 0 ∨ start = 0) ∧ stop < 0)

section Products
variable {start factor stop : ℤ}

theorem two_pow_le_product (hstart : start ≠ 0) (hfactor : 2 ≤ |factor|) (k : ℕ) :
    2 ^ k ≤ |start * factor ^ k| := by
  rw [abs_mul, abs_pow]
  have hone : 1 ≤ |start| := Int.one_le_abs hstart
  calc
    (2 : ℤ) ^ k ≤ |factor| ^ k := pow_le_pow_left₀ (by norm_num) hfactor k
    _ ≤ |start| * |factor| ^ k := le_mul_of_one_le_left (by positivity) hone

/-- Products that stay above a bound, although they grow, are positive. -/
theorem products_positive (hstart : start ≠ 0) (hfactor : 2 ≤ |factor|) {n : ℕ}
    (h : ∀ k, n ≤ k → stop < start * factor ^ k) : 0 < start ∧ 2 ≤ factor := by
  have hpos : ∀ k, n + stop.natAbs ≤ k → 0 < start * factor ^ k := by
    intro k hk
    by_contra hneg
    have hgrows := two_pow_le_product hstart hfactor k
    rw [abs_of_nonpos (not_lt.mp hneg)] at hgrows
    have hlt : (k : ℤ) < 2 ^ k := by exact_mod_cast Nat.lt_two_pow_self
    have hbeyond := h k (by omega)
    omega
  set k := n + stop.natAbs
  have hodd := hpos (2 * k + 1) (by omega)
  have heven := hpos (2 * k) (by omega)
  have hsquare : 0 < factor ^ (2 * k) := by
    rw [pow_mul]
    exact pow_pos (by nlinarith [abs_nonneg factor, sq_abs factor]) k
  have hs : 0 < start := pos_of_mul_pos_left heven hsquare.le
  have hf : 0 < factor := by
    rw [pow_succ, ← mul_assoc] at hodd
    exact pos_of_mul_pos_right hodd heven.le
  exact ⟨hs, by rwa [abs_of_pos hf] at hfactor⟩

theorem bounded_of_leaves (hstart : FitsInt start) {n : ℕ} (h : Leaves start factor stop n)
    (hiff : ∀ k, start * factor ^ k ≤ stop ↔ k < n) : Bounded start factor stop := by
  have hbeyond : ∀ k, n ≤ k → stop < start * factor ^ k := fun k hk =>
    not_le.mp fun hle => absurd ((hiff k).mp hle) (by omega)
  by_cases hzero : factor = 0
  · have hnext := hbeyond (n + 1) (by omega)
    rw [hzero, zero_pow (by omega), mul_zero] at hnext
    exact .inr (.inr (.inr ⟨.inl hzero, hnext⟩))
  by_cases hstart0 : start = 0
  · have hnext := hbeyond n le_rfl
    rw [hstart0, zero_mul] at hnext
    exact .inr (.inr (.inr ⟨.inr hstart0, hnext⟩))
  by_cases hone : factor = 1
  · have hnext := hbeyond n le_rfl
    rw [hone, one_pow, mul_one] at hnext
    exact .inr (.inl ⟨hone, hnext⟩)
  by_cases hminus : factor = -1
  · have heven := hbeyond (2 * n) (by omega)
    have hodd := hbeyond (2 * n + 1) (by omega)
    rw [hminus, pow_mul, neg_one_sq, one_pow, mul_one] at heven
    rw [hminus, pow_succ, pow_mul, neg_one_sq, one_pow, one_mul, mul_neg_one] at hodd
    refine .inr (.inr (.inl ⟨hminus, ?_⟩))
    cases abs_choice start with
    | inl habs => rwa [habs]
    | inr habs => rwa [habs, neg_neg]
  · have hfactor : 2 ≤ |factor| := by
      cases abs_choice factor with
      | inl habs => have := abs_nonneg factor; omega
      | inr habs => have := abs_nonneg factor; omega
    obtain ⟨hpos, htwo⟩ := products_positive hstart0 hfactor hbeyond
    refine .inl ⟨hpos, htwo, n, h.beyond, ?_⟩
    cases n with
    | zero => simpa using hstart
    | succ n => exact (h.fits n (by omega)).2

theorem product_strictMono (hstart : 0 < start) (hfactor : 2 ≤ factor) :
    StrictMono fun k : ℕ => start * factor ^ k := by
  intro k k' hlt
  exact mul_lt_mul_of_pos_left (pow_lt_pow_right₀ (by omega) hlt) hstart

/-- The first product beyond the end is not larger than any other. -/
theorem leaves_of_growing (hstart : 0 < start) (hfactor : 2 ≤ factor) {m : ℕ}
    (hbeyond : stop < start * factor ^ m) (hfits : FitsInt (start * factor ^ m)) :
    ∃ n, Leaves start factor stop n ∧ ∀ k, start * factor ^ k ≤ stop ↔ k < n := by
  have hmono := product_strictMono hstart hfactor
  have hex : ∃ n : ℕ, stop < start * factor ^ n := ⟨m, hbeyond⟩
  have hiff : ∀ k, start * factor ^ k ≤ stop ↔ k < Nat.find hex := by
    intro k
    rw [Nat.lt_find_iff]
    constructor
    · exact fun hle j hj => not_lt.mpr ((hmono.monotone hj).trans hle)
    · exact fun h => not_lt.mp (h k le_rfl)
  have hfirst : Nat.find hex ≤ m := Nat.find_min' hex hbeyond
  refine ⟨Nat.find hex, ⟨fun k hk => (hiff k).mpr hk, fun k hk => ?_, Nat.find_spec hex⟩, hiff⟩
  have hle : start * factor ^ (k + 1) ≤ start * factor ^ m := hmono.monotone (by omega)
  have hgrows := two_pow_le_product hstart.ne' (le_abs.mpr (.inl hfactor)) (k + 1)
  have hpos : 0 < start * factor ^ (k + 1) := mul_pos hstart (pow_pos (by omega) _)
  have hlt : ((k + 1 : ℕ) : ℤ) < 2 ^ (k + 1) := by exact_mod_cast Nat.lt_two_pow_self
  rw [abs_of_pos hpos] at hgrows
  simp only [FitsInt] at hfits ⊢
  omega

theorem leaves_at_once (h : ∀ k : ℕ, stop < start * factor ^ k) :
    ∃ n, Leaves start factor stop n ∧ ∀ k, start * factor ^ k ≤ stop ↔ k < n :=
  ⟨0, ⟨by simp, by simp, h 0⟩, fun k => by simpa using h k⟩

theorem leaves_of_bounded (h : Bounded start factor stop) :
    ∃ n, Leaves start factor stop n ∧ ∀ k, start * factor ^ k ≤ stop ↔ k < n := by
  obtain ⟨hstart, hfactor, m, hbeyond, hfits⟩ | ⟨rfl, hstop⟩ | ⟨rfl, hstop⟩ | ⟨hzero, hstop⟩ := h
  · exact leaves_of_growing hstart hfactor hbeyond hfits
  · exact leaves_at_once fun k => by simpa using hstop
  · refine leaves_at_once fun k => hstop.trans_le ?_
    have habs : |start * (-1) ^ k| = |start| := by simp [abs_mul]
    exact habs ▸ neg_abs_le (start * (-1) ^ k)
  · by_cases hstart : start = 0
    · exact leaves_at_once fun k => by simpa [hstart] using hstop
    · obtain rfl := hzero.resolve_right hstart
      by_cases hle : start ≤ stop
      · refine ⟨1, ⟨fun k hk => ?_, fun k hk => ?_, by simpa using hstop⟩, fun k => ?_⟩
        · obtain rfl : k = 0 := by omega
          simpa using hle
        · obtain rfl : k = 0 := by omega
          simp [FitsInt]
        · cases k with
          | zero => simpa using hle
          | succ k => simpa using hstop
      · refine leaves_at_once fun k => ?_
        cases k with
        | zero => simpa using hle
        | succ k => simpa using hstop

end Products

/-- An interval is written out as it should be exactly where it is bounded. -/
theorem expands_iff {type : LineType} {name : String} {start factor stop : ℤ}
    (hstart : FitsInt start) :
    Expands type name start factor stop ↔ Bounded start factor stop := by
  rw [expands_iff_leaves]
  constructor
  · rintro ⟨n, h, hiff⟩
    exact bounded_of_leaves hstart h hiff
  · exact leaves_of_bounded

theorem expands_powers : Expands .unknown "EAGER" 1 2 1024 :=
  (expands_iff (by decide)).mpr (.inl ⟨by decide, by decide, 11, by decide, by decide⟩)

/-- With the factor one the end is never passed. -/
theorem not_expands : ¬ ∀ (type : LineType) (name : String) (start factor stop : ℤ),
    FitsInt start → FitsInt factor → FitsInt stop → Expands type name start factor stop := by
  intro h
  obtain ⟨n, hleaves, -⟩ := expands_iff_leaves.mp
    (h .unknown "LIMIT" 1 1 10 (by decide) (by decide) (by decide))
  have hbeyond := hleaves.beyond
  norm_num at hbeyond

end ReadexPtf.MpiParameters
