import ReadexPtf.Autotune.RationalArith
import ReadexPtf.Lib.OrdMap
import Mathlib

/-! The timers that tuning plugins register, as the state machine of the front end handles them. -/
namespace ReadexPtf.Frontend
open ReadexPtf
variable {κ V : Type} [LinearOrder κ] (arith : Autotune.DoubleArith V)

/-- `κ` stands for the addresses of the functions that are called back. -/
structure TimerEntry (κ V : Type) where
  callBack : κ
  delay : V
  initialTime : V

abbrev Timers (κ V : Type) [LinearOrder κ] := OrdMap κ (TimerEntry κ V)

def registerTimer (timers : Timers κ V) (callBack : κ) (delay now : V) : Timers κ V :=
  timers.set callBack { callBack, delay, initialTime := now }

/-- `now - initial_time > delay` -/
def TimerEntry.expired (now : V) (entry : TimerEntry κ V) : Bool :=
  arith.lt entry.delay (arith.sub now entry.initialTime)

section Iteration

/-- An iterator that is valid. -/
inductive TimerIter (κ : Type) where
  | at (key : κ)
  | past
  deriving DecidableEq

def iterTo : List (κ × TimerEntry κ V) → TimerIter κ
  | [] => .past
  | e :: _ => .at e.1

/-- `++iter`. Nothing is known of an iterator whose entry was erased. -/
def increment (timers : Timers κ V) : Option (TimerIter κ) → Outcome (TimerIter κ)
  | some (.at key) => .ok (iterTo (timers.entries.dropWhile fun e => decide (e.1 ≤ key)))
  | some .past | none => .undefined

/-- The functions that were called, beside the timers. -/
structure TimerLoop (κ V : Type) [LinearOrder κ] where
  timers : Timers κ V
  iter : TimerIter κ
  fired : List κ

/-- What a function that is called back registers: other functions, or itself again, each with
a delay and the time. -/
abbrev TimerActions (κ V : Type) := κ → List (κ × V × V)

/-- The function is called, and then its entry erased. -/
def fire (actions : TimerActions κ V) (s : TimerLoop κ V) (key : κ) (entry : TimerEntry κ V) :
    TimerLoop κ V :=
  let timers := (actions entry.callBack).foldl
    (fun timers r => registerTimer timers r.1 r.2.1 r.2.2) s.timers
  { s with timers := timers.filterKeys (· ≠ key), fired := s.fired ++ [entry.callBack] }

def timerRound (actions : TimerActions κ V) (now : V) (s : TimerLoop κ V) :
    Outcome (TimerLoop κ V) :=
  match s.iter with
  | .past => .undefined
  | .at key => do
    let entry ← Outcome.found (s.timers.get? key)
    if entry.expired arith now then
      let s := fire actions s key entry
      let iter ← increment s.timers none
      return { s with iter }
    else
      let iter ← increment s.timers (some (.at key))
      return { s with iter }

def handleTimers (actions : TimerActions κ V) (now : V) (rounds : ℕ) (timers : Timers κ V) :
    Outcome (TimerLoop κ V) :=
  Outcome.whileLoop (fun s => s.iter ≠ .past) (timerRound arith actions now) rounds
    ⟨timers, iterTo timers.entries, []⟩

end Iteration

/-- Each function whose timer has expired is called once, its timer removed and the others kept.
What the functions register is not asked about. -/
def TimersHandled (actions : TimerActions κ V) (now : V) (timers : Timers κ V) : Prop :=
  ∃ rounds s, handleTimers arith actions now rounds timers = .ok s ∧
    s.fired.Perm ((timers.entries.filter fun e => e.2.expired arith now).map fun e =>
      e.2.callBack) ∧
    ∀ key, (∀ callBack ∈ s.fired, key ∉ (actions callBack).map Prod.fst) →
      s.timers.get? key = (timers.get? key).filter fun entry => !entry.expired arith now

section Walk
variable {arith} {actions : TimerActions κ V} {now : V} {timers : Timers κ V}

theorem dropWhile_le {first rest : List (κ × TimerEntry κ V)} {e : κ × TimerEntry κ V}
    (h : timers.entries = first ++ e :: rest) :
    timers.entries.dropWhile (fun d => decide (d.1 ≤ e.1)) = rest := by
  have hsorted := timers.sorted
  rw [h, List.pairwise_append] at hsorted
  obtain ⟨-, hrest, hfirst⟩ := hsorted
  have hafter := (List.pairwise_cons.mp hrest).1
  have hbefore : ∀ d ∈ first ++ [e], decide (d.1 ≤ e.1) = true := by
    intro d hd
    rw [List.mem_append, List.mem_singleton] at hd
    cases hd with
    | inl hd => exact decide_eq_true (hfirst d hd e List.mem_cons_self).le
    | inr hd => exact decide_eq_true (hd ▸ le_refl d.1)
  have hsplit : first ++ e :: rest = (first ++ [e]) ++ rest := by simp
  rw [h, hsplit, List.dropWhile_append_of_pos hbefore]
  cases rest with
  | nil => rfl
  | cons d rest =>
    rw [List.dropWhile_cons_of_neg]
    simpa using hafter d List.mem_cons_self

/-- A round at an entry of the map. -/
theorem timerRound_at {first rest : List (κ × TimerEntry κ V)} {e : κ × TimerEntry κ V}
    (h : timers.entries = first ++ e :: rest) (fired : List κ) :
    timerRound arith actions now ⟨timers, iterTo (e :: rest), fired⟩ =
      if e.2.expired arith now then .undefined else .ok ⟨timers, iterTo rest, fired⟩ := by
  have hget : timers.get? e.1 = some e.2 :=
    OrdMap.get?_eq_some.mpr (h ▸ List.mem_append_right first List.mem_cons_self)
  simp only [timerRound, iterTo, hget, Outcome.found, Outcome.ok_bind]
  split_ifs with hexpired
  · rfl
  · rw [increment, dropWhile_le h]
    rfl

/-- From any entry on, the loop passes the timers that have not expired, and goes no further. -/
theorem timerLoop_from {first rest : List (κ × TimerEntry κ V)}
    (h : timers.entries = first ++ rest) (fired : List κ) {rounds : ℕ} :
    ((∀ e ∈ rest, e.2.expired arith now = false) → rest.length ≤ rounds →
      Outcome.whileLoop (fun s => s.iter ≠ .past) (timerRound arith actions now) rounds
        ⟨timers, iterTo rest, fired⟩ = .ok ⟨timers, .past, fired⟩) ∧
    ((∃ e ∈ rest, e.2.expired arith now = true) → ∀ s,
      Outcome.whileLoop (fun s => s.iter ≠ .past) (timerRound arith actions now) rounds
        ⟨timers, iterTo rest, fired⟩ ≠ .ok s) := by
  induction rest generalizing first rounds with
  | nil =>
    refine ⟨fun _ _ => ?_, fun hsome => ?_⟩
    · cases rounds <;> simp [Outcome.whileLoop, iterTo]
    · obtain ⟨e, he, -⟩ := hsome
      exact absurd he List.not_mem_nil
  | cons e rest ih =>
    have hnext : timers.entries = (first ++ [e]) ++ rest := by simp [h]
    have hat : (TimerIter.at e.1 : TimerIter κ) ≠ .past := fun heq => by cases heq
    cases rounds with
    | zero =>
      refine ⟨fun _ hle => absurd hle (by simp), fun _ s => ?_⟩
      simp [Outcome.whileLoop, iterTo]
    | succ rounds =>
      rw [Outcome.whileLoop, if_pos (by simp [iterTo]), timerRound_at h]
      cases hexpired : e.2.expired arith now with
      | true =>
        rw [if_pos rfl, Outcome.undefined_bind]
        refine ⟨fun hnone => ?_, fun _ s heq => by cases heq⟩
        rw [hnone e List.mem_cons_self] at hexpired
        cases hexpired
      | false =>
        rw [if_neg Bool.false_ne_true, Outcome.ok_bind, List.forall_mem_cons, List.length_cons]
        obtain ⟨hpass, hstop⟩ := @ih (first ++ [e]) hnext rounds
        refine ⟨fun hnone hle => hpass hnone.2 (Nat.le_of_succ_le_succ hle), fun hsome => ?_⟩
        obtain ⟨d, hd, hdexpired⟩ := hsome
        refine hstop ⟨d, (List.mem_cons.mp hd).resolve_left fun heq => ?_, hdexpired⟩
        rw [heq, hexpired] at hdexpired
        cases hdexpired

/-- Where a timer has expired the loop comes to it, and goes on from where it was. -/
theorem handleTimers_expired {e : κ × TimerEntry κ V} (he : e ∈ timers.entries)
    (hexpired : e.2.expired arith now = true) : ¬ TimersHandled arith actions now timers := by
  rintro ⟨rounds, s, hrun, -⟩
  exact (timerLoop_from (List.nil_append timers.entries).symm []).2 ⟨e, he, hexpired⟩ s hrun

theorem handleTimers_pending (h : ∀ e ∈ timers.entries, e.2.expired arith now = false) :
    TimersHandled arith actions now timers := by
  refine ⟨timers.entries.length, ⟨timers, .past, []⟩,
    (timerLoop_from (List.nil_append timers.entries).symm []).1 h le_rfl, ?_, fun key _ => ?_⟩
  · have hnone : timers.entries.filter (fun e => e.2.expired arith now) = [] :=
      List.filter_eq_nil_iff.mpr fun e he => by simp [h e he]
    rw [hnone]
    exact .refl _
  · show timers.get? key = _
    cases hkey : timers.get? key with
    | none => rfl
    | some entry =>
      have hentry := h (key, entry) (OrdMap.get?_eq_some.mp hkey)
      simp only at hentry
      simp [Option.filter, hentry]

end Walk

/-- The timers are handled just if none has expired: the iterator that goes on is the one whose
entry was erased. -/
theorem timersHandled_iff (arith : Autotune.DoubleArith V) (actions : TimerActions κ V) (now : V)
    (timers : Timers κ V) :
    TimersHandled arith actions now timers ↔
      ∀ e ∈ timers.entries, e.2.expired arith now = false := by
  constructor
  · intro hhandled e he
    by_contra hexpired
    exact handleTimers_expired he (Bool.not_eq_false _ ▸ hexpired) hhandled
  · exact handleTimers_pending

section Instances

/-- The timer of a search of five seconds, one second late. -/
theorem not_timersHandled : ¬ TimersHandled Autotune.ratArith (fun _ : ℕ => []) 6
    (registerTimer .empty 0 5 0) :=
  handleTimers_expired (e := (0, ⟨0, 5, 0⟩)) List.mem_cons_self
    (decide_eq_true (show (5 : ℚ) < 6 - 0 by norm_num))

end Instances

end ReadexPtf.Frontend
