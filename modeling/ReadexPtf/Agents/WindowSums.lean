import ReadexPtf.Agents.PerformanceDataBase
import Mathlib

/-! What the reductions of a window are worth: the sum where gaps are filled with zeros, and the
average and the variance. -/
namespace ReadexPtf.Agents
open ReadexPtf

section Zeros
variable {V : Type} {arith : Measures V}

/-- A number to which zero can be added. -/
def Settled (arith : Measures V) (sum : V) : Prop := arith.add sum (arith.ofInt 0) = sum

def total (arith : Measures V) (sum : V) (values : List ℤ) : V :=
  values.foldl (fun sum value => arith.add sum (arith.ofInt value)) sum

theorem total_filter {sum : V} (h : Settled arith sum) (values : List ℤ) :
    total arith sum values = total arith sum (values.filter fun value => value ≠ 0) := by
  induction values generalizing sum with
  | nil => rfl
  | cons value values ih =>
    by_cases hzero : value = 0
    · subst hzero
      have hadd : arith.add sum (arith.ofInt 0) = sum := h
      rw [List.filter_cons_of_neg (by simp), total, List.foldl_cons, hadd]
      exact ih h
    · rw [List.filter_cons_of_pos (by simpa using hzero)]
      exact ih (arith.add_zero sum value)

/-- Values that count once, and zeros. -/
def Stretch.Plain (stretch : Stretch) : Prop :=
  stretch.value = 0 ∧ 0 ≤ stretch.count ∨ stretch.count = 1

theorem foldl_add_sum {mean : V} {stretches : List Stretch}
    (h : ∀ stretch ∈ stretches, stretch.Plain) (reductions : Reductions V) :
    (stretches.foldl (Reductions.add arith.toDoubleArith mean) reductions).sum =
      total arith reductions.sum (stretches.map fun stretch => stretch.value.toInt) := by
  induction stretches generalizing reductions with
  | nil => rfl
  | cons stretch stretches ih =>
    have hterm : arith.mul (arith.ofInt stretch.value.toInt) (arith.ofInt stretch.count) =
        arith.ofInt stretch.value.toInt := by
      cases h stretch List.mem_cons_self with
      | inl hzero =>
        rw [hzero.1, Int64.toInt_zero]
        exact arith.zero_mul _ hzero.2
      | inr hone =>
        rw [hone]
        exact arith.mul_one _
    rw [List.foldl_cons, ih fun next hnext => h next (List.mem_cons_of_mem stretch hnext),
      List.map_cons, Reductions.add]
    dsimp only
    rw [hterm]
    rfl

/-- Stretches that add up to values which are not zero. -/
structure Carries (stretches : List Stretch) (values : List ℤ) : Prop where
  plain : ∀ stretch ∈ stretches, stretch.Plain
  values_eq : ((stretches.map fun stretch => stretch.value.toInt).filter fun value => value ≠ 0) =
    values

theorem Carries.append {stretches stretches' : List Stretch} {values values' : List ℤ}
    (h : Carries stretches values) (h' : Carries stretches' values') :
    Carries (stretches ++ stretches') (values ++ values') where
  plain stretch hmem := (List.mem_append.mp hmem).elim (h.plain stretch) (h'.plain stretch)
  values_eq := by rw [List.map_append, List.filter_append, h.values_eq, h'.values_eq]

theorem carries_gap {leftX rightX : ℤ} {leftY rightY : V} :
    Carries (gap arith .zeros leftX leftY rightX rightY) [] := by
  unfold gap
  split_ifs with hempty
  · exact ⟨fun stretch hmem => absurd hmem List.not_mem_nil, rfl⟩
  · refine ⟨fun stretch hmem => ?_, rfl⟩
    rw [List.mem_singleton.mp hmem]
    exact .inl ⟨rfl, by dsimp only; omega⟩

/-- What the entries left of `right` have recorded. -/
def valuesUpTo (right : ℤ) (entries : List (ℤ × Int64)) : List ℤ :=
  ((entries.filter fun entry => entry.1 < right).map fun entry => entry.2.toInt).filter
    fun value => value ≠ 0

theorem valuesUpTo_outside {right : ℤ} {entry : ℤ × Int64} {entries : List (ℤ × Int64)}
    (hsorted : (entry :: entries).Pairwise fun a b => a.1 < b.1) (h : ¬ entry.1 < right) :
    valuesUpTo right (entry :: entries) = [] := by
  have hnone : (entry :: entries).filter (fun entry => entry.1 < right) = [] := by
    rw [List.filter_eq_nil_iff]
    intro next hnext
    rw [decide_eq_true_eq]
    cases List.mem_cons.mp hnext with
    | inl hsame => exact hsame ▸ h
    | inr hlater =>
      have hlt := (List.pairwise_cons.mp hsorted).1 next hlater
      omega
  rw [valuesUpTo, hnone]
  rfl

theorem Carries.cons {right : ℤ} {entry : ℤ × Int64} {entries : List (ℤ × Int64)}
    {stretches : List Stretch} (hinside : entry.1 < right)
    (h : Carries stretches (valuesUpTo right entries)) :
    Carries (⟨entry.2, 1⟩ :: stretches) (valuesUpTo right (entry :: entries)) where
  plain stretch hmem := by
    cases List.mem_cons.mp hmem with
    | inl hsame => exact hsame ▸ .inr rfl
    | inr hlater => exact h.plain stretch hlater
  values_eq := by
    rw [valuesUpTo, List.filter_cons_of_pos (by simpa using hinside), List.map_cons, List.map_cons,
      List.filter_cons, List.filter_cons, h.values_eq]
    rfl

theorem carries_stretchesFrom {right : ℤ} {entries : List (ℤ × Int64)}
    (hsorted : entries.Pairwise fun a b => a.1 < b.1) :
    ∀ {leftX : ℤ} {leftY : V},
      Carries (stretchesFrom arith .zeros right leftX leftY entries) (valuesUpTo right entries) := by
  induction entries with
  | nil => exact carries_gap
  | cons entry entries ih =>
    intro leftX leftY
    rw [stretchesFrom]
    split_ifs with hinside
    · exact carries_gap.append ((ih (List.pairwise_cons.mp hsorted).2).cons hinside)
    · rw [valuesUpTo_outside hsorted hinside]
      exact carries_gap

theorem carries_stretchesOf {left right : ℤ} {leftY : V} {entries : List (ℤ × Int64)}
    (hsorted : entries.Pairwise fun a b => a.1 < b.1) :
    Carries (stretchesOf arith .zeros left right leftY entries) (valuesUpTo right entries) := by
  cases entries with
  | nil => exact carries_gap
  | cons entry entries =>
    rw [stretchesOf]
    split_ifs with hinside
    · exact carries_gap.append
        ((carries_stretchesFrom (List.pairwise_cons.mp hsorted).2).cons hinside)
    · rw [valuesUpTo_outside hsorted hinside]
      exact carries_gap

/-- An iteration without an entry counts as zero. -/
def recorded (dataEntry : OrdMap ℤ Int64) (iteration : ℤ) : ℤ :=
  ((dataEntry.get? iteration).map Int64.toInt).getD 0

def TimeWindow.iterations (window : TimeWindow) : List ℤ := Int.range window.left window.right

/-- The entries of a window, one iteration after the other. -/
theorem filterMap_range (dataEntry : OrdMap ℤ Int64) (left right : ℤ) :
    ((Int.range left right).filterMap fun iteration =>
        (dataEntry.get? iteration).map (Prod.mk iteration)) =
      dataEntry.entries.filter fun entry => left ≤ entry.1 ∧ entry.1 < right := by
  have hrange : (Int.range left right).Pairwise (· < ·) := by
    rw [Int.range, List.pairwise_map]
    exact List.pairwise_lt_range.imp fun hlt => by omega
  let fromRange : OrdMap ℤ Int64 := ⟨(Int.range left right).filterMap fun iteration =>
      (dataEntry.get? iteration).map (Prod.mk iteration), by
    refine hrange.filterMap _ fun i i' hlt entry hentry entry' hentry' => ?_
    obtain ⟨_, _, rfl⟩ := Option.map_eq_some_iff.mp hentry
    obtain ⟨_, _, rfl⟩ := Option.map_eq_some_iff.mp hentry'
    exact hlt⟩
  have hsame : fromRange =
      dataEntry.filterKeys fun iteration => left ≤ iteration ∧ iteration < right := by
    refine OrdMap.ext_get? fun iteration => Option.ext fun value => ?_
    rw [OrdMap.get?_filterKeys, OrdMap.get?_eq_some, List.mem_filterMap]
    simp only [Int.mem_range_iff, Option.map_eq_some_iff, Prod.mk.injEq]
    split_ifs with hinside
    · constructor
      · rintro ⟨_, _, _, hget, rfl, rfl⟩
        exact hget
      · exact fun hget => ⟨iteration, by simpa using hinside, value, hget, rfl, rfl⟩
    · constructor
      · rintro ⟨_, hrange, _, _, rfl, rfl⟩
        exact absurd (by simpa using hrange) hinside
      · intro hnone
        cases hnone
  exact congrArg OrdMap.entries hsame

theorem filter_recorded (dataEntry : OrdMap ℤ Int64) (iterations : List ℤ) :
    ((iterations.map (recorded dataEntry)).filter fun value => value ≠ 0) =
      (((iterations.filterMap fun iteration =>
          (dataEntry.get? iteration).map (Prod.mk iteration)).map
        fun entry => entry.2.toInt).filter fun value => value ≠ 0) := by
  induction iterations with
  | nil => rfl
  | cons iteration iterations ih =>
    rw [List.map_cons, recorded]
    cases hget : dataEntry.get? iteration with
    | none =>
      rw [List.filterMap_cons_none (by rw [hget]; rfl)]
      exact ih
    | some value =>
      rw [List.filterMap_cons_some (by rw [hget]; rfl), List.map_cons, List.filter_cons,
        List.filter_cons, ih]
      rfl

def windowSum (arith : Measures V) (window : TimeWindow) (dataEntry : OrdMap ℤ Int64) : V :=
  total arith (arith.ofInt 0) (window.iterations.map (recorded dataEntry))

theorem sum_windowStretches (window : TimeWindow) (dataEntry : OrdMap ℤ Int64) (mean : V) :
    (reduced arith.toDoubleArith mean (windowStretches arith .zeros window dataEntry)).sum =
      windowSum arith window dataEntry := by
  have hentries := @rollOver_eq V arith window.left _ dataEntry.sorted (arith.ofInt 0)
  have hcarries : Carries (windowStretches arith .zeros window dataEntry)
      (valuesUpTo window.right
        (dataEntry.entries.filter fun entry => window.left ≤ entry.1)) := by
    rw [← hentries]
    refine carries_stretchesOf ?_
    rw [hentries]
    exact dataEntry.sorted.filter _
  have hvalues : valuesUpTo window.right
      (dataEntry.entries.filter fun entry => window.left ≤ entry.1) =
        (window.iterations.map (recorded dataEntry)).filter fun value => value ≠ 0 := by
    rw [filter_recorded, TimeWindow.iterations, filterMap_range, valuesUpTo, List.filter_filter]
    simp only [Bool.decide_and, Bool.and_comm]
  rw [reduced, foldl_add_sum hcarries.plain, windowSum]
  have hzero : Settled arith (arith.ofInt 0) := arith.zero_add
  calc total arith (arith.ofInt 0)
        ((windowStretches arith .zeros window dataEntry).map fun stretch => stretch.value.toInt)
      = total arith (arith.ofInt 0) ((window.iterations.map (recorded dataEntry)).filter
          fun value => value ≠ 0) := by
        rw [total_filter hzero, hcarries.values_eq, hvalues]
    _ = total arith (arith.ofInt 0) (window.iterations.map (recorded dataEntry)) :=
        (total_filter hzero _).symm

/-- The sum of what the iterations of the window have recorded, and their number. -/
theorem getReductions_zeros (arith : Measures V) (window : TimeWindow)
    (dataEntry : OrdMap ℤ Int64) (mean : V) :
    ∃ reductions,
      getReductions arith .zeros mean window.left window.right dataEntry = .ok reductions ∧
      reductions.sum = windowSum arith window dataEntry ∧
      reductions.numElements = window.iterations.length := by
  refine ⟨_, getReductions_eq window dataEntry mean, sum_windowStretches window dataEntry mean, ?_⟩
  rw [numElements_reduced]
  have hle := window.le
  rw [TimeWindow.iterations, Int.range, List.length_map, List.length_range]
  omega

end Zeros
section Averages
variable {V : Type} {arith : Measures V} {interpType : DataBaseInterpolationType}

open PerformanceDataBase Autotune

/-- Average and variance are those of the values that were summed, and divided by their number.
No values have no average. -/
def SameCount (arith : Measures V) (interpType : DataBaseInterpolationType)
    (window : TimeWindow) (dataEntry : OrdMap ℤ Int64) : Prop :=
  ∃ sums deviations, 0 < sums.numElements ∧
    getReductions arith interpType (arith.ofInt 0) window.left window.right dataEntry = .ok sums ∧
    reducedAverage arith interpType window.left window.right dataEntry =
      .ok (arith.div sums.sum (arith.ofInt sums.numElements)) ∧
    getReductions arith interpType (arith.div sums.sum (arith.ofInt sums.numElements)) window.left
      window.right dataEntry = .ok deviations ∧
    reducedVariance arith interpType window.left window.right dataEntry =
      .ok (arith.div deviations.stddev (arith.ofInt deviations.numElements))

theorem reducedAverage_eq {window : TimeWindow} {dataEntry : OrdMap ℤ Int64}
    (hfits : FitsInt (window.right - window.left + 1)) :
    reducedAverage arith interpType window.left window.right dataEntry =
      .ok (arith.div (reduced arith.toDoubleArith (arith.ofInt 0)
        (windowStretches arith interpType window dataEntry)).sum
          (arith.ofInt (window.right - window.left + 1))) := by
  rw [reducedAverage, checkedInt, if_pos hfits, getReductions_eq]
  rfl

theorem reducedVariance_eq {window : TimeWindow} {dataEntry : OrdMap ℤ Int64}
    (hfits : FitsInt (window.right - window.left + 1)) {mean : V}
    (hmean : reducedAverage arith interpType window.left window.right dataEntry = .ok mean) :
    reducedVariance arith interpType window.left window.right dataEntry =
      .ok (arith.div (reduced arith.toDoubleArith mean
        (windowStretches arith interpType window dataEntry)).stddev
          (arith.ofInt (window.right - window.left + 1))) := by
  rw [reducedVariance, checkedInt, if_pos hfits, hmean]
  simp only [Outcome.ok_bind, getReductions_eq]
  rfl

theorem reduced_zeros {stretches : List Stretch}
    (hzero : ∀ stretch ∈ stretches, stretch.value = 0)
    (hpos : ∀ stretch ∈ stretches, 0 < stretch.count) :
    (reduced arith.toDoubleArith (arith.ofInt 0) stretches).sum = arith.ofInt 0 ∧
      (reduced arith.toDoubleArith (arith.ofInt 0) stretches).stddev = arith.ofInt 0 := by
  have hfold : ∀ reductions : Reductions V, reductions.sum = arith.ofInt 0 →
      reductions.stddev = arith.ofInt 0 →
      let result := stretches.foldl (Reductions.add arith.toDoubleArith (arith.ofInt 0)) reductions
      result.sum = arith.ofInt 0 ∧ result.stddev = arith.ofInt 0 := by
    induction stretches with
    | nil => exact fun _ hsum hstddev => ⟨hsum, hstddev⟩
    | cons stretch stretches ih =>
      intro reductions hsum hstddev
      have hvalue := hzero stretch List.mem_cons_self
      have hcount := arith.zero_mul _ (hpos stretch List.mem_cons_self).le
      have hsquare := arith.zero_mul 0 le_rfl
      refine ih (fun next hnext => hzero next (List.mem_cons_of_mem stretch hnext))
        (fun next hnext => hpos next (List.mem_cons_of_mem stretch hnext)) _ ?_ ?_
      · rw [Reductions.add, hvalue, Int64.toInt_zero, hsum]
        dsimp only
        rw [hcount, arith.zero_add]
      · rw [Reductions.add, hvalue, Int64.toInt_zero, hstddev]
        dsimp only
        rw [arith.sub_zero, hsquare, hcount, arith.zero_add]
  exact hfold (.start arith.toDoubleArith) rfl rfl

/-- The divisor is one more than the number of values. Only zeros have the same average then. -/
theorem sameCount_iff (arith : Measures V) (interpType : DataBaseInterpolationType)
    (window : TimeWindow) (dataEntry : OrdMap ℤ Int64) :
    SameCount arith interpType window dataEntry ↔
      window.left < window.right ∧ FitsInt (window.right - window.left + 1) ∧
        ∀ stretch ∈ windowStretches arith interpType window dataEntry, stretch.value = 0 := by
  have hcount := @count_windowStretches V arith interpType window dataEntry
  have hpos : ∀ stretch ∈ windowStretches arith interpType window dataEntry, 0 < stretch.count :=
    pos_stretchesOf
  have helements := fun mean => @numElements_reduced V arith interpType window dataEntry mean
  have hnonneg := window.nonneg
  have hbound := window.fits
  constructor
  · intro h
    obtain ⟨sums, deviations, hsome, hsums, haverage, hdeviations, hvariance⟩ := h
    have hfits : FitsInt (window.right - window.left + 1) := by
      rw [reducedAverage, checkedInt] at haverage
      split_ifs at haverage with hfits
      · exact hfits
      · cases haverage
    rw [getReductions_eq, Outcome.ok.injEq] at hsums
    subst hsums
    rw [getReductions_eq, Outcome.ok.injEq] at hdeviations
    subst hdeviations
    rw [helements] at hsome haverage hvariance
    have hlt : window.left < window.right := by omega
    have hnumber : 0 < window.right - window.left ∧ window.right - window.left < 2 ^ 31 := by
      omega
    rw [reducedAverage_eq hfits, Outcome.ok.injEq] at haverage
    have hsum := arith.sum_eq_zero _ _ hnumber.1 hnumber.2 hpos hcount haverage
    -- Both averages are zero, so that the deviations are the same.
    have hcode := @reducedAverage_eq V arith interpType window dataEntry hfits
    rw [hsum, arith.zero_div _ (by omega)] at hcode
    rw [hsum, arith.zero_div _ hnumber.1, reducedVariance_eq hfits hcode, helements,
      Outcome.ok.injEq] at hvariance
    exact ⟨hlt, hfits, arith.values_eq_zero _ _ hnumber.1 hnumber.2 hpos hcount hvariance⟩
  · intro h
    obtain ⟨hlt, hfits, hzero⟩ := h
    have hnumber : 0 < window.right - window.left := by omega
    have hsums := @reduced_zeros V arith _ hzero hpos
    have hmean : arith.div (reduced arith.toDoubleArith (arith.ofInt 0)
        (windowStretches arith interpType window dataEntry)).sum
          (arith.ofInt (window.right - window.left)) = arith.ofInt 0 := by
      rw [hsums.1, arith.zero_div _ hnumber]
    have haverage : reducedAverage arith interpType window.left window.right dataEntry =
        .ok (arith.ofInt 0) := by
      rw [reducedAverage_eq hfits, hsums.1, arith.zero_div _ (by omega)]
    refine ⟨_, reduced arith.toDoubleArith (arith.ofInt 0)
      (windowStretches arith interpType window dataEntry), ?_, getReductions_eq _ _ _, ?_, ?_, ?_⟩
    · rwa [helements]
    · rw [helements, hmean, haverage]
    · rw [helements, hmean, getReductions_eq]
    · rw [reducedVariance_eq hfits haverage, helements, hsums.2, arith.zero_div _ (by omega),
        arith.zero_div _ hnumber]

end Averages

/-! The rational numbers, which do not round. -/

theorem foldl_add_stddev (stretches : List Stretch)
    (hpos : ∀ stretch ∈ stretches, 0 < stretch.count) (reductions : Reductions ℚ)
    (hnonneg : 0 ≤ reductions.stddev) :
    let result := stretches.foldl (Reductions.add Autotune.ratArith 0) reductions
    0 ≤ result.stddev ∧
      (result.stddev = 0 → reductions.stddev = 0 ∧ ∀ stretch ∈ stretches, stretch.value = 0) := by
  induction stretches generalizing reductions with
  | nil => exact ⟨hnonneg, fun h => ⟨h, fun stretch hmem => absurd hmem List.not_mem_nil⟩⟩
  | cons stretch stretches ih =>
    have hcount : (0 : ℚ) < stretch.count := Int.cast_pos.mpr (hpos stretch List.mem_cons_self)
    have hterm : (reductions.add Autotune.ratArith 0 stretch).stddev =
        reductions.stddev + (stretch.value.toInt : ℚ) ^ 2 * stretch.count := by
      simp only [Reductions.add, Autotune.ratArith, sub_zero, pow_two]
    have hsquare : (0 : ℚ) ≤ (stretch.value.toInt : ℚ) ^ 2 * stretch.count :=
      mul_nonneg (sq_nonneg _) hcount.le
    have hrest := ih (fun next hnext => hpos next (List.mem_cons_of_mem stretch hnext))
      (reductions.add Autotune.ratArith 0 stretch) (hterm ▸ add_nonneg hnonneg hsquare)
    refine ⟨hrest.1, fun hzero => ?_⟩
    have hsum := (hrest.2 hzero).1
    rw [hterm] at hsum
    have hboth := (add_eq_zero_iff_of_nonneg hnonneg hsquare).mp hsum
    refine ⟨hboth.1, fun next hnext => ?_⟩
    cases List.mem_cons.mp hnext with
    | inl hsame =>
      have hvalue : (stretch.value.toInt : ℚ) = 0 := by
        simpa [hcount.ne'] using hboth.2
      rw [hsame, ← Int64.toInt_inj, Int64.toInt_zero]
      exact_mod_cast hvalue
    | inr hlater => exact (hrest.2 hzero).2 next hlater

theorem eq_zero_of_div_succ {sum : ℚ} {n : ℤ} (hn : 0 < n)
    (h : sum / ((n + 1 : ℤ) : ℚ) = sum / (n : ℚ)) : sum = 0 := by
  have hpos : (0 : ℚ) < n := Int.cast_pos.mpr hn
  rw [div_eq_div_iff (by push_cast; positivity) hpos.ne'] at h
  push_cast at h
  linarith

def ratMeasures : Measures ℚ where
  toDoubleArith := Autotune.ratArith
  toInt64 q := .ofInt (Autotune.truncate q)
  mul_one := by simp [Autotune.ratArith]
  zero_mul := by simp [Autotune.ratArith]
  zero_div := by simp [Autotune.ratArith]
  sub_zero := by simp [Autotune.ratArith]
  zero_add := by simp [Autotune.ratArith]
  add_zero := by simp [Autotune.ratArith]
  sum_eq_zero stretches n hn _ _ _ h := by
    have hzero := eq_zero_of_div_succ hn h
    simpa [Autotune.ratArith] using hzero
  values_eq_zero stretches n hn _ hpos _ h := by
    have hzero := eq_zero_of_div_succ hn h
    have hstart : (0 : ℚ) ≤ (Reductions.start Autotune.ratArith).stddev := by
      simp [Reductions.start, Autotune.ratArith]
    have hfold := foldl_add_stddev stretches hpos (.start Autotune.ratArith) hstart
    have hcast : Autotune.ratArith.ofInt 0 = 0 := by simp [Autotune.ratArith]
    rw [hcast] at hzero
    exact (hfold.2 hzero).2

/-- The average of a single 10 is 5. -/
theorem not_sameCount :
    ¬ ∀ (interpType : DataBaseInterpolationType) (window : TimeWindow)
      (dataEntry : OrdMap ℤ Int64), SameCount ratMeasures interpType window dataEntry := by
  intro h
  obtain ⟨sums, deviations, -, hsums, haverage, -⟩ :=
    h .zeros ⟨0, 1, le_rfl, by decide, by decide⟩ (OrdMap.empty.set 0 10)
  have hten : getReductions ratMeasures .zeros (ratMeasures.ofInt 0) 0 1
      (OrdMap.empty.set 0 10) = .ok ⟨10, 100, 100, 1⟩ := by decide +kernel
  have hfive : PerformanceDataBase.reducedAverage ratMeasures .zeros 0 1
      (OrdMap.empty.set 0 10) = .ok 5 := by decide +kernel
  rw [hten, Outcome.ok.injEq] at hsums
  subst hsums
  rw [hfive] at haverage
  revert haverage
  decide +kernel

end ReadexPtf.Agents
