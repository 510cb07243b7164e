import ReadexPtf.Lib.IntLoop
import ReadexPtf.Lib.Outcome
import Mathlib

/-! The simulation that looks for the partition factor: chunks of tasks go to the worker
that is done first, all the workers of a round getting the same. Times and factors are
exact rationals; the counters are those of the machine. -/
namespace ReadexPtf.Masterworker
open ReadexPtf

/-- What the simulation is told about the application and the network. -/
structure Workload where
  num_w : UInt32
  num_tasks : UInt32
  avg_answer_size : UInt32
  task_sz : UInt32
  netl : ℚ
  nets : ℚ
  wmexct : ℕ → ℚ

/-- The variables of one run, and every chunk with the worker it went to. -/
structure Simulation where
  exect : List ℚ
  pend_tks : ℤ
  handed : List (ℕ × ℤ)

/-- The tasks in all the chunks. -/
def Simulation.handedOut (s : Simulation) : ℤ := (s.handed.map Prod.snd).sum

/-- `ceil` of a positive number stored in an `int`. -/
def ceilToInt (q : ℚ) : Outcome ℤ := if FitsInt ⌈q⌉ then .ok ⌈q⌉ else .undefined

/-- The conversion of an `unsigned int` back to an `int`. -/
def toSigned (z : ℤ) : ℤ := z.bmod (2 ^ 32)

variable (w : Workload)

/-- `for( i = 0; i < num_w; i++ )`. The counter is an `int`, whose last increment
overflows where the unsigned bound is not one. -/
def forWorkers {σ : Type} (body : σ → σ) (s : σ) : Outcome σ :=
  if w.num_w.toNat ≤ intMax then .ok ((List.range w.num_w.toNat).foldl (fun s _ => body s) s)
  else .undefined

/-- The first of the workers with the least time, and that time. -/
def firstDone : List ℚ → ℕ × ℚ
  | [] => (0, 0)
  | t :: ts => (ts.zipIdx 1).foldl (fun kt tj => if tj.1 < kt.2 then (tj.2, tj.1) else kt) (0, t)

def chunkTime (k : ℕ) (chunk : ℤ) : ℚ :=
  2 * w.netl + ((w.task_sz.toNat * chunk + w.avg_answer_size.toNat) % 2 ^ 32 : ℤ) * w.nets +
    w.wmexct k * chunk

def assign (chunk : ℤ) (s : Simulation) : Simulation :=
  let k := (firstDone s.exect).1
  { s with
    exect := s.exect.modify k (· + chunkTime w k chunk)
    handed := s.handed ++ [(k, chunk)] }

def lastRound (pend_tks : ℤ) : Bool := pend_tks % 2 ^ 32 ≤ 2 * w.num_w.toNat % 2 ^ 32

def chunkSize (pf : ℚ) (pend_tks : ℤ) : Outcome ℤ :=
  if w.num_w = 0 then .undefined
  else if lastRound w pend_tks then ceilToInt (pend_tks / w.num_w.toNat)
  else ceilToInt (pf * pend_tks / w.num_w.toNat)

/-- One turn of `while( pend_tks > 0 )`. -/
def simulateRound (pf : ℚ) (s : Simulation) : Outcome Simulation := do
  let chunk ← chunkSize w pf s.pend_tks
  let pend_tks :=
    if lastRound w s.pend_tks then 0
    else toSigned (s.pend_tks - chunk * w.num_w.toNat)
  forWorkers w (assign w chunk) { s with pend_tks := pend_tks }

/-- The run for one partition factor, followed for a number of rounds. -/
def simulate (rounds : ℕ) (pf : ℚ) : Outcome Simulation := do
  let exect ← forWorkers w (fun exect => exect ++ [0]) []
  Outcome.whileLoop (fun s => 0 < s.pend_tks) (simulateRound w pf) rounds
    { exect := exect, pend_tks := toSigned w.num_tasks.toNat, handed := [] }

/-- The factor, the least time so far (`INFINITY` at first) and the factor it came with
(not set at first). -/
structure Factors where
  pf : ℚ
  min_simt : WithTop ℚ
  bpf : Option ℚ

section Rounds
variable {w}

theorem assign_handedOut (chunk : ℤ) (s : Simulation) :
    (assign w chunk s).handedOut = s.handedOut + chunk := by
  simp [assign, Simulation.handedOut]

/-- A round's chunks, one for each worker. -/
theorem forWorkers_assign (hw : w.num_w.toNat ≤ intMax) (chunk : ℤ) (s : Simulation) :
    ∃ s', forWorkers w (assign w chunk) s = .ok s' ∧
      s'.handedOut = s.handedOut + w.num_w.toNat * chunk ∧ s'.pend_tks = s.pend_tks ∧
      s'.exect.length = s.exect.length := by
  have hfold : ∀ n : ℕ, ∀ s', s' = (List.range n).foldl (fun s _ => assign w chunk s) s →
      s'.handedOut = s.handedOut + n * chunk ∧ s'.pend_tks = s.pend_tks ∧
        s'.exect.length = s.exect.length := by
    intro n
    induction n with
    | zero =>
      rintro s' rfl
      simp
    | succ n ih =>
      rintro s' rfl
      obtain ⟨hhanded, hpend, hlength⟩ := ih _ rfl
      simp only [List.range_succ, List.foldl_append, List.foldl_cons, List.foldl_nil]
      refine ⟨?_, hpend, ?_⟩
      · rw [assign_handedOut, hhanded]
        push_cast
        ring
      · simpa [assign] using hlength
  exact ⟨_, if_pos hw, hfold _ _ rfl⟩

theorem toSigned_eq {z : ℤ} (h : FitsInt z) : toSigned z = z := by
  obtain ⟨hlow, hhigh⟩ := h
  simp only [intMin, intMax] at hlow hhigh
  rw [toSigned, Int.bmod_eq_iff (by norm_num)]
  omega

theorem lastRound_iff {pend_tks : ℤ} (hw : w.num_w.toNat ≤ intMax) (hpos : 0 < pend_tks)
    (hfits : pend_tks ≤ intMax) :
    lastRound w pend_tks = true ↔ pend_tks ≤ 2 * w.num_w.toNat := by
  simp only [intMax] at hw hfits
  rw [lastRound, decide_eq_true_eq]
  omega

/-- A share of the tasks that is not more than all of them, rounded up for each worker. -/
theorem ceilToInt_share {q : ℚ} {pend_tks : ℤ} {n : ℕ} (hn : 1 ≤ n) (hq : 0 < q)
    (hle : q ≤ pend_tks) (hfits : pend_tks ≤ intMax) :
    ceilToInt (q / n) = .ok ⌈q / n⌉ ∧ 1 ≤ ⌈q / n⌉ := by
  have hn' : (1 : ℚ) ≤ n := by exact_mod_cast hn
  have hpos : 0 < ⌈q / n⌉ := Int.ceil_pos.mpr (by positivity)
  have hceil : ⌈q / n⌉ ≤ pend_tks := Int.ceil_le.mpr ((div_le_self hq.le hn').trans hle)
  refine ⟨if_pos ⟨?_, hceil.trans hfits⟩, hpos⟩
  simp only [intMin]
  omega

/-- The tasks handed out and those still to be handed out, both in whole rounds. -/
structure Covers (w : Workload) (tasks : ℤ) (s : Simulation) : Prop where
  low : -(w.num_w.toNat : ℤ) < s.pend_tks
  high : s.pend_tks ≤ tasks
  total : s.handedOut + w.num_w.toNat * ⌈(s.pend_tks : ℚ) / w.num_w.toNat⌉ =
    w.num_w.toNat * ⌈(tasks : ℚ) / w.num_w.toNat⌉
  workers : s.exect.length = w.num_w.toNat

theorem simulateRound_covers {pf : ℚ} {tasks : ℤ} {s : Simulation} (hone : 1 ≤ w.num_w.toNat)
    (hw : w.num_w.toNat ≤ intMax) (htasks : tasks ≤ intMax) (hpf : 0 < pf ∧ pf < 1)
    (hpend : 0 < s.pend_tks) (h : Covers w tasks s) :
    ∃ s', simulateRound w pf s = .ok s' ∧ Covers w tasks s' ∧ s'.pend_tks < s.pend_tks := by
  have hfits := h.high.trans htasks
  have hzero : w.num_w ≠ 0 := fun h0 => by simp [h0] at hone
  have hnum : (0 : ℚ) < w.num_w.toNat := by exact_mod_cast hone
  have hp : (0 : ℚ) < s.pend_tks := by exact_mod_cast hpend
  by_cases hlast : s.pend_tks ≤ 2 * w.num_w.toNat
  · have hbool := (lastRound_iff hw hpend hfits).mpr hlast
    obtain ⟨hceil, -⟩ := ceilToInt_share hone hp le_rfl hfits
    obtain ⟨s', hrun, hhanded, hrest, hlength⟩ := forWorkers_assign hw
      ⌈(s.pend_tks : ℚ) / w.num_w.toNat⌉ { s with pend_tks := 0 }
    refine ⟨s', ?_, ⟨?_, ?_, ?_, ?_⟩, ?_⟩
    · simp only [simulateRound, chunkSize, hzero, hbool, hceil, if_true, if_false, Outcome.ok_bind]
      exact hrun
    · rw [hrest]
      simp only [Left.neg_neg_iff]
      exact_mod_cast hone
    · rw [hrest]
      exact (hpend.trans_le h.high).le
    · rw [hrest, hhanded]
      simpa [Simulation.handedOut] using h.total
    · rw [hlength, h.workers]
    · rw [hrest]
      exact hpend
  · have hbool : lastRound w s.pend_tks = false := by
      rw [← Bool.not_eq_true, lastRound_iff hw hpend hfits]
      exact hlast
    have hshare : pf * s.pend_tks < s.pend_tks := by nlinarith
    obtain ⟨hceil, hchunk⟩ := ceilToInt_share hone (mul_pos hpf.1 hp) hshare.le hfits
    set chunk := ⌈pf * s.pend_tks / w.num_w.toNat⌉ with hdef
    have hround : (chunk : ℚ) * w.num_w.toNat < s.pend_tks + w.num_w.toNat := by
      have hlt := Int.ceil_lt_add_one (pf * s.pend_tks / w.num_w.toNat)
      rw [← hdef, ← sub_lt_iff_lt_add, lt_div_iff₀ hnum] at hlt
      linarith
    have hlow : chunk * w.num_w.toNat < s.pend_tks + w.num_w.toNat := by exact_mod_cast hround
    have hless : 1 * (w.num_w.toNat : ℤ) ≤ chunk * w.num_w.toNat :=
      Int.mul_le_mul_of_nonneg_right hchunk (Int.natCast_nonneg _)
    have hsigned : toSigned (s.pend_tks - chunk * w.num_w.toNat) =
        s.pend_tks - chunk * w.num_w.toNat := by
      apply toSigned_eq
      simp only [FitsInt, intMin, intMax] at hw hfits ⊢
      omega
    obtain ⟨s', hrun, hhanded, hrest, hlength⟩ := forWorkers_assign hw chunk
      { s with pend_tks := s.pend_tks - chunk * w.num_w.toNat }
    refine ⟨s', ?_, ⟨?_, ?_, ?_, ?_⟩, ?_⟩
    · simp only [simulateRound, chunkSize, hzero, hbool, hceil, hsigned, if_false,
        Bool.false_eq_true, Outcome.ok_bind]
      exact hrun
    · rw [hrest]
      simp only
      omega
    · rw [hrest]
      simp only
      have := h.high
      omega
    · have hsplit : ((s.pend_tks - chunk * w.num_w.toNat : ℤ) : ℚ) / w.num_w.toNat =
          s.pend_tks / w.num_w.toNat - chunk := by
        push_cast
        field_simp
      rw [hrest, hhanded, hsplit, Int.ceil_sub_intCast, ← h.total]
      simp only [Simulation.handedOut]
      ring
    · rw [hlength, h.workers]
    · rw [hrest]
      simp only
      omega

theorem forWorkers_zeros (hw : w.num_w.toNat ≤ intMax) :
    forWorkers w (fun exect => exect ++ [(0 : ℚ)]) [] =
      .ok (List.replicate w.num_w.toNat 0) := by
  have hfold : ∀ n, (List.range n).foldl (fun exect _ => exect ++ [(0 : ℚ)]) [] =
      List.replicate n 0 := by
    intro n
    induction n with
    | zero => rfl
    | succ n ih =>
      rw [List.range_succ, List.foldl_append, ih, List.replicate_succ']
      rfl
  rw [forWorkers, if_pos hw, hfold]

theorem Covers.initial {tasks : ℕ} (hone : 1 ≤ w.num_w.toNat) : Covers w tasks
    { exect := List.replicate w.num_w.toNat 0, pend_tks := tasks, handed := [] } :=
  ⟨by simp only; omega, le_rfl, by simp [Simulation.handedOut], by simp⟩

theorem Covers.handedOut {tasks : ℤ} {s : Simulation} (h : Covers w tasks s)
    (hone : 1 ≤ w.num_w.toNat) (hend : s.pend_tks ≤ 0) :
    s.handedOut = w.num_w.toNat * ⌈(tasks : ℚ) / w.num_w.toNat⌉ := by
  have hnum : (0 : ℚ) < w.num_w.toNat := by exact_mod_cast hone
  have hnone : ⌈(s.pend_tks : ℚ) / w.num_w.toNat⌉ = 0 := by
    have hlow : -(w.num_w.toNat : ℚ) < s.pend_tks := by exact_mod_cast h.low
    rw [Int.ceil_eq_zero_iff, Set.mem_Ioc, lt_div_iff₀ hnum, div_le_iff₀ hnum]
    constructor
    · linarith
    · simpa using hend
  have htotal := h.total
  rw [hnone] at htotal
  simpa using htotal

theorem simulate_eq (hw : w.num_w.toNat ≤ intMax) (htasks : w.num_tasks.toNat ≤ intMax)
    (rounds : ℕ) (pf : ℚ) : simulate w rounds pf =
      Outcome.whileLoop (fun s => 0 < s.pend_tks) (simulateRound w pf) rounds
        { exect := List.replicate w.num_w.toNat 0, pend_tks := w.num_tasks.toNat, handed := [] } := by
  have hstart : toSigned w.num_tasks.toNat = w.num_tasks.toNat :=
    toSigned_eq ⟨by simp only [intMin]; omega, htasks⟩
  rw [simulate, forWorkers_zeros hw, Outcome.ok_bind, hstart]

/-- A run ends after at most as many rounds as there are tasks. -/
theorem simulate_total {pf : ℚ} (hone : 1 ≤ w.num_w.toNat) (hw : w.num_w.toNat ≤ intMax)
    (htasks : w.num_tasks.toNat ≤ intMax) (hpf : 0 < pf ∧ pf < 1) {rounds : ℕ}
    (hrounds : w.num_tasks.toNat ≤ rounds) :
    ∃ s, simulate w rounds pf = .ok s ∧ s.exect.length = w.num_w.toNat := by
  rw [simulate_eq hw htasks]
  obtain ⟨s, hrun, hcovers, -⟩ := Outcome.whileLoop_total
    (Covers w w.num_tasks.toNat) (fun s => s.pend_tks.toNat)
    (fun s hcond hs => by
      have hpend : 0 < s.pend_tks := of_decide_eq_true hcond
      obtain ⟨s', hrun, hs', hless⟩ := simulateRound_covers hone hw htasks hpf hpend hs
      exact ⟨s', hrun, hs', by omega⟩)
    rounds _ (Covers.initial hone) (by simpa using hrounds)
  exact ⟨s, hrun, hcovers.workers⟩

/-- A run that ends has handed out the tasks in whole rounds. -/
theorem simulate_handedOut {pf : ℚ} (hone : 1 ≤ w.num_w.toNat) (hw : w.num_w.toNat ≤ intMax)
    (htasks : w.num_tasks.toNat ≤ intMax) (hpf : 0 < pf ∧ pf < 1) {rounds : ℕ} {s : Simulation}
    (hrun : simulate w rounds pf = .ok s) :
    s.handedOut = w.num_w.toNat * ⌈(w.num_tasks.toNat : ℚ) / w.num_w.toNat⌉ := by
  rw [simulate_eq hw htasks] at hrun
  obtain ⟨hcovers, hend⟩ := Outcome.whileLoop_invariant (Covers w w.num_tasks.toNat)
    (fun s s' hcond hs hround => by
      have hpend : 0 < s.pend_tks := of_decide_eq_true hcond
      obtain ⟨t, ht, hcovers, -⟩ := simulateRound_covers hone hw htasks hpf hpend hs
      rw [ht, Outcome.ok.injEq] at hround
      exact hround ▸ hcovers)
    rounds _ s (Covers.initial hone) hrun
  simpa using hcovers.handedOut hone (by simpa using hend)

/-- More tasks than an `int` counts are a negative number, which ends the run at once. -/
theorem simulate_none {pf : ℚ} (hw : w.num_w.toNat ≤ intMax)
    (htasks : intMax < w.num_tasks.toNat) {rounds : ℕ} {s : Simulation}
    (hrun : simulate w rounds pf = .ok s) : s.handedOut = 0 := by
  have hneg : ¬ 0 < toSigned w.num_tasks.toNat := by
    have hlt := w.num_tasks.toNat_lt
    have hwrap : toSigned w.num_tasks.toNat = w.num_tasks.toNat - 2 ^ 32 := by
      simp only [intMax] at htasks
      rw [toSigned, Int.bmod_eq_iff (by norm_num)]
      omega
    rw [hwrap]
    omega
  rw [simulate, forWorkers_zeros hw, Outcome.ok_bind] at hrun
  cases rounds with
  | zero =>
    rw [Outcome.whileLoop, if_neg (by simpa using hneg), Outcome.ok.injEq] at hrun
    rw [← hrun]
    rfl
  | succ rounds =>
    rw [Outcome.whileLoop, if_neg (by simpa using hneg), Outcome.ok.injEq] at hrun
    rw [← hrun]
    rfl

end Rounds

/-- The run for a factor returns, and its chunks are the given tasks. -/
def HandsOutTasks (pf : ℚ) : Prop :=
  ∃ rounds s, simulate w rounds pf = .ok s ∧ s.handedOut = w.num_tasks.toNat

/-- A run hands out the given tasks exactly where all the rounds are whole ones and
workers and tasks are numbers that an `int` counts. -/
theorem handsOutTasks_iff {w : Workload} {pf : ℚ} (hone : 1 ≤ w.num_w.toNat)
    (hpf : 0 < pf ∧ pf < 1) : HandsOutTasks w pf ↔
      (w.num_w.toNat ≤ intMax ∧ w.num_tasks.toNat ≤ intMax) ∧
        w.num_w.toNat ∣ w.num_tasks.toNat := by
  have hnum : (w.num_w.toNat : ℚ) ≠ 0 := by
    have hpos : w.num_w.toNat ≠ 0 := by omega
    exact_mod_cast hpos
  constructor
  · rintro ⟨rounds, s, hrun, hall⟩
    have hw : w.num_w.toNat ≤ intMax := by
      by_contra hnot
      rw [simulate, forWorkers, if_neg hnot] at hrun
      exact absurd hrun (by simp)
    by_cases htasks : w.num_tasks.toNat ≤ intMax
    · have hwhole := simulate_handedOut hone hw htasks hpf hrun
      rw [hall] at hwhole
      exact ⟨⟨hw, htasks⟩, Int.natCast_dvd_natCast.mp ⟨_, hwhole⟩⟩
    · have hzero := simulate_none hw (not_le.mp htasks) hrun
      simp only [intMax] at htasks
      omega
  · rintro ⟨⟨hw, htasks⟩, n, hn⟩
    obtain ⟨s, hrun, -⟩ := simulate_total hone hw htasks hpf le_rfl
    refine ⟨_, s, hrun, ?_⟩
    have hshare : ((w.num_w.toNat * n : ℕ) : ℚ) / w.num_w.toNat = n := by
      push_cast
      field_simp
    rw [simulate_handedOut hone hw htasks hpf hrun, hn, hshare, Int.ceil_natCast]
    push_cast
    rfl

theorem handsOutTasks_twelve : HandsOutTasks ⟨4, 12, 0, 1, 0, 1, fun _ => 1⟩ (1 / 10) :=
  (handsOutTasks_iff (by decide) (by norm_num)).mpr (by decide)

/-- Two workers that share three tasks are given four. -/
theorem not_handsOutTasks : ¬ ∀ (w : Workload) (pf : ℚ), 1 ≤ w.num_w.toNat →
    0 < pf ∧ pf < 1 → HandsOutTasks w pf := by
  intro h
  have hhalf : (0 : ℚ) < 1 / 2 ∧ (1 / 2 : ℚ) < 1 := by norm_num
  obtain ⟨rounds, s, hrun, hall⟩ := h ⟨2, 3, 0, 1, 0, 1, fun _ => 1⟩ (1 / 2) (by decide) hhalf
  have hceil : ⌈((3 : ℕ) : ℚ) / (2 : ℕ)⌉ = 2 := by norm_num [Int.ceil_eq_iff]
  have hwhole := simulate_handedOut (by decide) (by decide) (by decide) hhalf hrun
  rw [hall] at hwhole
  exact absurd (hwhole.trans (congrArg _ hceil)) (by decide)

section Factors
variable {w}

/-- A factor has been kept since the first one was tried, and it is one that was tried. -/
structure Kept (f : Factors) : Prop where
  start : 1 / 10 ≤ f.pf
  first : f.bpf = none → f.min_simt = ⊤ ∧ f.pf = 1 / 10
  range : ∀ b, f.bpf = some b → 1 / 10 ≤ b ∧ b < 1

end Factors

end ReadexPtf.Masterworker
