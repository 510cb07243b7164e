import ReadexPtf.Lib.IntLoop
import ReadexPtf.Lib.Outcome
import Mathlib

/-! The search for the number of workers: one more is tried as long as the performance
index falls by more than a quarter of a percent. The index is an exact rational. -/
namespace ReadexPtf.Masterworker
open ReadexPtf

/-- The measured transfer volume and computation time, and the user's network. -/
structure Measured where
  total_bytes_transferred : ℤ
  total_comp_time : ℚ
  lambda : ℚ
  latency : ℚ

variable (m : Measured)

/-- `Tt`, by the formula that goes with the latency. -/
def totalTime (workers : ℤ) : ℚ :=
  if m.latency ≥ m.lambda * m.total_bytes_transferred / workers then
    (workers + 1) * m.latency +
      (m.total_comp_time + m.total_bytes_transferred * m.lambda) / workers
  else
    2 * m.latency +
      ((workers - 1) * m.lambda * m.total_bytes_transferred + m.total_comp_time) / workers

def performanceIndex (workers : ℤ) : ℚ :=
  workers * (totalTime m workers * totalTime m workers) / m.total_comp_time

/-- The variables of the loop. `DBL_MAX`, which no index reaches, is `⊤`. -/
structure Search where
  previous_index : WithTop ℚ
  index : WithTop ℚ
  workers : ℤ

def searchRound (s : Search) : Outcome Search :=
  if FitsInt (s.workers + 1) then
    .ok {
      previous_index := s.index
      index := (performanceIndex m s.workers : ℚ)
      workers := s.workers + 1 }
  else .undefined

/-- `previous_index > index`, and by more than a quarter of a percent. -/
def goesOn (s : Search) : Bool :=
  match s.previous_index, s.index with
  | some previous_index, some index =>
    previous_index > index ∧ |previous_index - index| > 0.0025 * previous_index
  | none, some _ => true
  | _, none => false

/-- The loop tests its condition after the first round; it is followed for a number of
further ones. -/
def CalculatePi (rounds : ℕ) : Outcome ℤ := do
  let s ← searchRound m { previous_index := ⊤, index := ⊤, workers := 2 }
  let s ← Outcome.whileLoop goesOn (searchRound m) rounds s
  .ok (s.workers - 1)

/-- The index of `workers` is not below that of one less by more than 0.25 percent. -/
def Settles (workers : ℤ) : Prop :=
  performanceIndex m (workers - 1) - 0.0025 * performanceIndex m (workers - 1) ≤
    performanceIndex m workers

/-- The inputs the method is meant for. -/
structure Measured.Valid : Prop where
  bytes : 0 ≤ m.total_bytes_transferred
  comp : 0 < m.total_comp_time
  lambda : 0 ≤ m.lambda
  latency : 0 ≤ m.latency

section Search
variable {m}

/-- The time that all workers together are busy or wait. -/
def workerTime (m : Measured) (workers : ℤ) : ℚ := workers * totalTime m workers

theorem workerTime_eq {workers : ℤ} (h : 0 < workers) : workerTime m workers =
    if m.latency ≥ m.lambda * m.total_bytes_transferred / workers then
      workers * (workers + 1) * m.latency +
        (m.total_comp_time + m.total_bytes_transferred * m.lambda)
    else
      2 * workers * m.latency +
        ((workers - 1) * m.lambda * m.total_bytes_transferred + m.total_comp_time) := by
  have hw : (workers : ℚ) ≠ 0 := by exact_mod_cast h.ne'
  rw [workerTime, totalTime]
  split_ifs <;> field_simp

theorem performanceIndex_eq {workers : ℤ} :
    workers * performanceIndex m workers = workerTime m workers ^ 2 / m.total_comp_time := by
  rw [performanceIndex, workerTime]
  ring

theorem performanceIndex_nonneg (hm : m.Valid) {workers : ℤ} (h : 0 ≤ workers) :
    0 ≤ performanceIndex m workers := by
  have hw : (0 : ℚ) ≤ workers := by exact_mod_cast h
  have hcomp := hm.comp
  rw [performanceIndex]
  exact div_nonneg (mul_nonneg hw (mul_self_nonneg _)) hcomp.le

theorem workerTime_nonneg (hm : m.Valid) {workers : ℤ} (h : 1 ≤ workers) :
    0 ≤ workerTime m workers := by
  have hw : (1 : ℚ) ≤ workers := by exact_mod_cast h
  have hvolume : 0 ≤ m.lambda * m.total_bytes_transferred :=
    mul_nonneg hm.lambda (by exact_mod_cast hm.bytes)
  have hcomp := hm.comp
  have hlatency := hm.latency
  rw [workerTime_eq (by omega)]
  split_ifs
  · have := mul_nonneg (mul_nonneg (by linarith : (0 : ℚ) ≤ workers)
      (by linarith : (0 : ℚ) ≤ (workers : ℚ) + 1)) hlatency
    linarith
  · have := mul_nonneg (by linarith : (0 : ℚ) ≤ (workers : ℚ) - 1) hvolume
    have := mul_nonneg (by linarith : (0 : ℚ) ≤ 2 * (workers : ℚ)) hlatency
    nlinarith

/-- One worker more never takes away from that time, whichever formulas the two numbers
go with. -/
theorem workerTime_mono (hm : m.Valid) {workers : ℤ} (h : 2 ≤ workers) :
    workerTime m workers ≤ workerTime m (workers + 1) := by
  have hw : (2 : ℚ) ≤ workers := by exact_mod_cast h
  have hvolume : 0 ≤ m.lambda * m.total_bytes_transferred :=
    mul_nonneg hm.lambda (by exact_mod_cast hm.bytes)
  have hlatency := hm.latency
  rw [workerTime_eq (by omega), workerTime_eq (by omega)]
  push_cast
  set volume := m.lambda * m.total_bytes_transferred with hdef
  by_cases hnow : m.latency ≥ volume / workers
  · have hnext : m.latency ≥ volume / ((workers : ℚ) + 1) :=
      (div_le_div_of_nonneg_left hvolume (by linarith) (by linarith)).trans hnow
    rw [if_pos hnow, if_pos hnext]
    nlinarith
  · rw [if_neg hnow]
    by_cases hnext : m.latency ≥ volume / ((workers : ℚ) + 1)
    · rw [if_pos hnext]
      have hshare : volume ≤ m.latency * (workers + 1) :=
        (div_le_iff₀ (by linarith)).mp hnext
      nlinarith
    · rw [if_neg hnext]
      nlinarith

/-- A worker more takes at most one part in so many off the index. -/
theorem performanceIndex_falls (hm : m.Valid) {workers : ℤ} (h : 2 ≤ workers) :
    workers * performanceIndex m workers ≤
      (workers + 1) * performanceIndex m (workers + 1) := by
  have hmono := pow_le_pow_left₀ (workerTime_nonneg hm (by omega)) (workerTime_mono hm h) 2
  have hcast : ((workers + 1 : ℤ) : ℚ) = workers + 1 := by push_cast; rfl
  rw [← hcast, performanceIndex_eq, performanceIndex_eq]
  exact div_le_div_of_nonneg_right hmono hm.comp.le

/-- With 400 workers the index has settled, even where it falls forever. -/
theorem settles_400 (hm : m.Valid) : Settles m 400 := by
  have hmany : (2 : ℤ) ≤ 399 := by norm_num
  have hfalls := performanceIndex_falls hm hmany
  norm_num [Settles] at hfalls ⊢
  linarith

/-- The index of the last number tried and of the one before, none of the earlier ones
having settled. -/
structure Tried (m : Measured) (s : Search) : Prop where
  low : 3 ≤ s.workers
  high : s.workers ≤ 401
  index : s.index = (performanceIndex m (s.workers - 1) : ℚ)
  previous : s.previous_index =
    if s.workers = 3 then ⊤ else ((performanceIndex m (s.workers - 2) : ℚ) : WithTop ℚ)
  earlier : ∀ w, 3 ≤ w → w < s.workers - 1 → ¬ Settles m w

theorem goesOn_iff (hm : m.Valid) {s : Search} (hs : Tried m s) :
    goesOn s = true ↔ (3 ≤ s.workers - 1 → ¬ Settles m (s.workers - 1)) := by
  have hlow := hs.low
  by_cases hfirst : s.workers = 3
  · have hprevious : s.previous_index = none := by rw [hs.previous, if_pos hfirst]; rfl
    have hindex : s.index = some (performanceIndex m (s.workers - 1)) := hs.index
    simp [goesOn, hprevious, hindex, hfirst]
  · have hprevious : s.previous_index = some (performanceIndex m (s.workers - 2)) := by
      rw [hs.previous, if_neg hfirst]
      rfl
    have hindex : s.index = some (performanceIndex m (s.workers - 1)) := hs.index
    have hnonneg := performanceIndex_nonneg hm (show 0 ≤ s.workers - 2 by omega)
    have hthree : 3 ≤ s.workers - 1 := by omega
    have hpred : s.workers - 1 - 1 = s.workers - 2 := by ring
    simp only [goesOn, hprevious, hindex, hthree, forall_const, Settles, hpred, not_le,
      decide_eq_true_eq]
    constructor
    · rintro ⟨hfalls, hmuch⟩
      rw [abs_of_pos (by linarith)] at hmuch
      linarith
    · intro hmuch
      have hfalls : performanceIndex m (s.workers - 1) < performanceIndex m (s.workers - 2) := by
        linarith
      exact ⟨hfalls, by rw [abs_of_pos (by linarith)]; linarith⟩

theorem searchRound_tried (hm : m.Valid) {s : Search} (hs : Tried m s) (hcond : goesOn s = true) :
    ∃ s', searchRound m s = .ok s' ∧ Tried m s' ∧ s'.workers = s.workers + 1 := by
  have hlow := hs.low
  have hnot := (goesOn_iff hm hs).mp hcond
  have hless : s.workers ≤ 400 := by
    by_contra hlast
    have hequal : s.workers - 1 = 400 := by have := hs.high; omega
    exact hnot (by omega) (hequal ▸ settles_400 hm)
  have hfits : FitsInt (s.workers + 1) := by
    simp only [FitsInt, intMin, intMax]
    omega
  refine ⟨_, if_pos hfits, ⟨?_, ?_, ?_, ?_, ?_⟩, rfl⟩
  · simp only
    omega
  · simp only
    omega
  · simp
  · simp only [hs.index]
    rw [if_neg (by omega)]
    congr 2
    ring
  · intro w hw hlt
    by_cases hlast : w = s.workers - 1
    · exact hlast ▸ hnot (hlast ▸ hw)
    · exact hs.earlier w hw (by simp only at hlt; omega)

end Search

/-- The search ends and returns the first number of workers, three or more, that settles
the index. It has to go up to 400 at most. -/
theorem CalculatePi_isLeast {m : Measured} (hm : m.Valid) {rounds : ℕ} (hrounds : 398 ≤ rounds) :
    ∃ w, CalculatePi m rounds = .ok w ∧ IsLeast {w | 3 ≤ w ∧ Settles m w} w := by
  have hfirst : searchRound m { previous_index := ⊤, index := ⊤, workers := 2 } =
      .ok { previous_index := ⊤, index := (performanceIndex m 2 : ℚ), workers := 3 } :=
    if_pos (by decide)
  have hstart : Tried m
      { previous_index := ⊤, index := (performanceIndex m 2 : ℚ), workers := 3 } :=
    ⟨le_rfl, by norm_num, by norm_num, by simp, fun w hw hlt => by simp only at hlt; omega⟩
  obtain ⟨s, hrun, hs, hend⟩ := @Outcome.whileLoop_total _ goesOn _ (Tried m)
    (fun s => (401 - s.workers).toNat)
    (fun s hcond hs => by
      obtain ⟨s', hrun, hs', hnext⟩ := searchRound_tried hm hs hcond
      have hhigh := hs'.high
      exact ⟨s', hrun, hs', by omega⟩)
    rounds _ hstart (by simpa using hrounds)
  rw [goesOn_iff hm hs] at hend
  push Not at hend
  refine ⟨s.workers - 1, by rw [CalculatePi, hfirst, Outcome.ok_bind, hrun, Outcome.ok_bind],
    hend, fun w hw => ?_⟩
  by_contra hless
  exact hs.earlier w hw.1 (not_le.mp hless) hw.2

/-- Neither latency nor volume: the index falls with every worker. -/
theorem CalculatePi_isLeast_falling :
    ∃ w, CalculatePi ⟨0, 1, 0, 0⟩ 398 = .ok w ∧ IsLeast {w | 3 ≤ w ∧ Settles ⟨0, 1, 0, 0⟩ w} w :=
  CalculatePi_isLeast ⟨le_rfl, one_pos, le_rfl, le_rfl⟩ le_rfl

end ReadexPtf.Masterworker
