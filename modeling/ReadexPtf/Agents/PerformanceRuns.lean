import ReadexPtf.Agents.PerformanceDataBase
import ReadexPtf.Autotune.RandomSearch
import Mathlib

/-! Runs of the data base: what erasing leaves behind, and where the time window lies. -/
namespace ReadexPtf.Agents
open ReadexPtf Autotune

section Erasing
variable {RegionType Metric : Type} [DecidableEq Metric] {events : EventList Metric}

namespace PerformanceDataBase

/-- The entry is gone from the current iteration, and nothing else has changed. -/
structure Erased (events : EventList Metric) (ct : Context RegionType) (m : Metric)
    (before after : PerformanceDataBase) : Prop where
  gone : after.getSpecificIterationValue events ct m before.currentIteration = .ok none
  entries : ∀ (ct' : Context RegionType) (m' : Metric) (iteration : ℤ),
    ct2String events ct' m' ≠ ct2String events ct m ∨ iteration ≠ before.currentIteration →
    after.getSpecificIterationValue events ct' m' iteration =
      before.getSpecificIterationValue events ct' m' iteration
  rest : { after with data := before.data } = before

theorem erase_eq_ok {db after : PerformanceDataBase} {ct : Context RegionType} {m : Metric} :
    db.erase events ct m = .ok after ↔
      (∃ dataEntry, db.findDataEntry events ct m = .ok dataEntry) ∧ after = db := by
  rw [erase]
  constructor
  · intro h
    obtain ⟨dataEntry, hfound, hafter⟩ := Outcome.bind_eq_ok.mp h
    exact ⟨⟨dataEntry, hfound⟩, (Outcome.ok.inj hafter).symm⟩
  · intro h
    obtain ⟨⟨dataEntry, hfound⟩, rfl⟩ := h
    rw [hfound]
    rfl

theorem erased_self_iff {db : PerformanceDataBase} {ct : Context RegionType} {m : Metric} :
    db.Erased events ct m db ↔
      db.getSpecificIterationValue events ct m db.currentIteration = .ok none :=
  ⟨Erased.gone, fun h => ⟨h, fun _ _ _ _ => rfl, rfl⟩⟩

end PerformanceDataBase

/-- An operation that erases an entry leaves a data base without it. -/
def ErasesEntry (events : EventList Metric) (db : PerformanceDataBase) :
    PerformanceOperation RegionType Metric → Prop
  | .erase app fileId firstLine rank thread m =>
    let ct := Context.ofNumbers app fileId firstLine rank thread
    ∃ after, db.erase events ct m = .ok after ∧ db.Erased events ct m after
  | _ => True

/-- The entry to erase has no value in the current iteration. -/
def HasNoValue (events : EventList Metric) (db : PerformanceDataBase) :
    PerformanceOperation RegionType Metric → Prop
  | .erase app fileId firstLine rank thread m =>
    db.getSpecificIterationValue events (.ofNumbers app fileId firstLine rank thread) m
      db.currentIteration = .ok none
  | _ => True

instance (db : PerformanceDataBase) :
    (operation : PerformanceOperation RegionType Metric) →
      Decidable (HasNoValue events db operation)
  | .erase _ _ _ _ _ _ => inferInstanceAs (Decidable (_ = _))
  | .store .. | .storeByNumbers .. | .finishIteration | .clean | .setTimeWindow ..
  | .setDefaultReductionOperation _ | .setInterpolationType _ => .isTrue trivial

theorem erasesEntry_iff (db : PerformanceDataBase)
    (operation : PerformanceOperation RegionType Metric) :
    ErasesEntry events db operation ↔ HasNoValue events db operation := by
  cases operation with
  | erase app fileId firstLine rank thread m =>
    constructor
    · intro h
      obtain ⟨after, hafter, herased⟩ := h
      obtain ⟨_, rfl⟩ := PerformanceDataBase.erase_eq_ok.mp hafter
      exact herased.gone
    · intro h
      have hnone : db.getSpecificIterationValue events
        (.ofNumbers app fileId firstLine rank thread) m db.currentIteration = .ok none := h
      obtain ⟨dataEntry, hfound, _⟩ := Outcome.bind_eq_ok.mp hnone
      exact ⟨db, PerformanceDataBase.erase_eq_ok.mpr ⟨⟨dataEntry, hfound⟩, rfl⟩,
        PerformanceDataBase.erased_self_iff.mpr hnone⟩
  | _ => exact Iff.rfl

/-- Erasing does nothing, which is right where there is nothing to erase. -/
theorem run_erases_iff (events : EventList Metric)
    (operations : List (PerformanceOperation RegionType Metric)) :
    Outcome.StepsMeet (ErasesEntry events) (PerformanceOperation.step events) operations .start ↔
      Outcome.StepsMeet (HasNoValue events) (PerformanceOperation.step events) operations
        .start :=
  Outcome.StepsMeet.congr (fun _ => True) (fun _ _ _ _ _ _ => trivial)
    (fun db operation _ => erasesEntry_iff db operation) trivial

end Erasing

/-- One region, in line 7 of its file. -/
def oneRegion : Application Unit :=
  { (Application.start : Application Unit) with
    regions := [⟨1, (), 2, 7, 7, 9, "f.cc", "f"⟩]
    codeRegions := OrdMap.empty.set "f.cc*f*7" 0 }

def timeOnly : EventList Bool := ⟨fun _ => "PSC_EXECUTION_TIME", true⟩

/-- The stored value is still there. -/
theorem not_run_erases :
    ¬ ∀ operations : List (PerformanceOperation Unit Bool),
      Outcome.StepsMeet (ErasesEntry timeOnly) (PerformanceOperation.step timeOnly) operations
        .start := by
  intro h
  have hmeet : Outcome.StepsMeet (HasNoValue timeOnly) (PerformanceOperation.step timeOnly)
      [.storeByNumbers oneRegion 2 7 0 0 false 5, .erase oneRegion 2 7 0 0 false] .start :=
    Outcome.StepsMeet.imp (fun db operation => (erasesEntry_iff db operation).mp) (h _)
  revert hmeet
  decide +kernel

/-! The time window. -/

section Windows
variable {RegionType Metric : Type} [DecidableEq Metric] {events : EventList Metric}

namespace PerformanceDataBase

/-- A window of iterations up to the last written one. -/
def Within (db : PerformanceDataBase) (begin finish : ℤ) : Prop :=
  0 ≤ begin ∧ begin ≤ finish ∧ finish ≤ db.lastWrittenIteration + 1

instance (db : PerformanceDataBase) (begin finish : ℤ) : Decidable (db.Within begin finish) :=
  inferInstanceAs (Decidable (_ ∧ _))

structure Sound (db : PerformanceDataBase) : Prop where
  current : 0 ≤ db.currentIteration
  window : db.Within db.timeWindowLeft db.timeWindowRight

theorem invalidWindow_eq_ok {db : PerformanceDataBase} {begin finish : ℤ} {invalid : Bool} :
    db.invalidWindow begin finish = .ok invalid ↔
      FitsInt (finish - begin) ∧ (begin ≤ finish → FitsInt (finish - 1)) ∧
        (invalid = true ↔ ¬ db.Within begin finish) := by
  rw [invalidWindow, Within, Outcome.bind_eq_ok]
  constructor
  · intro h
    obtain ⟨length, hlength, h⟩ := h
    obtain ⟨hfits, rfl⟩ := checkedInt_eq_ok.mp hlength
    refine ⟨hfits, ?_⟩
    split_ifs at h with hneg
    · cases h
      exact ⟨fun hle => by omega, by simp; omega⟩
    · obtain ⟨last, hlast, h⟩ := Outcome.bind_eq_ok.mp h
      obtain ⟨hfits', rfl⟩ := checkedInt_eq_ok.mp hlast
      cases h
      exact ⟨fun _ => hfits', by simp only [decide_eq_true_eq]; omega⟩
  · intro h
    obtain ⟨hfits, hfits', hinvalid⟩ := h
    refine ⟨_, checkedInt_eq_ok.mpr ⟨hfits, rfl⟩, ?_⟩
    split_ifs with hneg
    · rw [hinvalid.mpr (by omega)]
      rfl
    · rw [Outcome.bind_eq_ok]
      refine ⟨_, checkedInt_eq_ok.mpr ⟨hfits' (by omega), rfl⟩, congrArg Outcome.ok ?_⟩
      rw [Bool.eq_iff_iff, hinvalid, decide_eq_true_eq]
      omega

/-- What a call can do: nothing, throw, or set the window. -/
theorem setTimeWindow_cases {db after : PerformanceDataBase} {begin finish : ℤ}
    {thrown : Except String Unit} (h : db.setTimeWindow begin finish = .ok (thrown, after)) :
    (after = db ∧ thrown = .ok () ∧ db.timeWindowLeft = begin ∧ db.timeWindowRight = finish) ∨
      (after = db ∧ (∃ error, thrown = .error error) ∧ ¬ db.Within begin finish) ∨
      (after = { db with timeWindowLeft := begin, timeWindowRight := finish } ∧ thrown = .ok () ∧
        db.Within begin finish) := by
  rw [setTimeWindow] at h
  split_ifs at h with hsame
  · cases h
    exact .inl ⟨rfl, rfl, hsame⟩
  · obtain ⟨invalid, hinvalid, h⟩ := Outcome.bind_eq_ok.mp h
    have hwithin := (invalidWindow_eq_ok.mp hinvalid).2.2
    split_ifs at h with hthrow
    · cases h
      exact .inr (.inl ⟨rfl, ⟨_, rfl⟩, hwithin.mp hthrow⟩)
    · cases h
      exact .inr (.inr ⟨rfl, rfl, not_not.mp fun hnot => hthrow (hwithin.mpr hnot)⟩)

theorem Sound.setTimeWindow {db after : PerformanceDataBase} (hsound : db.Sound)
    {begin finish : ℤ} {thrown : Except String Unit}
    (h : db.setTimeWindow begin finish = .ok (thrown, after)) : after.Sound := by
  cases setTimeWindow_cases h with
  | inl hsame => exact hsame.1 ▸ hsound
  | inr hrest =>
    cases hrest with
    | inl hthrown => exact hthrown.1 ▸ hsound
    | inr hset =>
      obtain ⟨rfl, -, hwithin⟩ := hset
      exact ⟨hsound.current, hwithin⟩

theorem Sound.resetTimeWindow {db after : PerformanceDataBase} (hsound : db.Sound)
    {thrown : Except String Unit} (h : db.resetTimeWindow = .ok (thrown, after)) :
    after.Sound := by
  rw [PerformanceDataBase.resetTimeWindow] at h
  split_ifs at h with hwritten
  · obtain ⟨finish, _, hset⟩ := Outcome.bind_eq_ok.mp h
    have hwindow := hsound.window
    have hright := hwindow.2.2.trans (add_le_add_left hwritten 1)
    have hsound' : PerformanceDataBase.Sound
        { db with lastWrittenIteration := db.currentIteration } :=
      ⟨hsound.current, hwindow.1, hwindow.2.1, hright⟩
    exact hsound'.setTimeWindow hset
  · cases h
    exact hsound

theorem Sound.store {db after : PerformanceDataBase} (hsound : db.Sound)
    {ct : Context RegionType} {m : Metric} {value : Int64} {thrown : Except String Unit}
    (h : db.store events ct m value = .ok (thrown, after)) : after.Sound := by
  obtain ⟨key, _, h⟩ := Outcome.bind_eq_ok.mp h
  obtain ⟨⟨error, moved⟩, hmoved, h⟩ := Outcome.bind_eq_ok.mp h
  have hsound' := hsound.resetTimeWindow hmoved
  cases error with
  | error error =>
    cases h
    exact hsound'
  | ok _ =>
    cases h
    exact ⟨hsound'.current, hsound'.window⟩

end PerformanceDataBase

/-- A step keeps the window among the iterations that were written. -/
theorem PerformanceDataBase.Sound.step {db after : PerformanceDataBase} (hsound : db.Sound)
    {operation : PerformanceOperation RegionType Metric}
    (h : operation.step events db = .ok after) : after.Sound := by
  obtain ⟨⟨thrown, result⟩, hrun, h⟩ := Outcome.bind_eq_ok.mp h
  cases h
  cases operation with
  | store ct m value => exact hsound.store hrun
  | storeByNumbers app fileId firstLine rank thread m value => exact hsound.store hrun
  | erase app fileId firstLine rank thread m =>
    obtain ⟨erased, herased, hrun⟩ := Outcome.bind_eq_ok.mp hrun
    cases hrun
    exact (PerformanceDataBase.erase_eq_ok.mp herased).2 ▸ hsound
  | finishIteration =>
    obtain ⟨next, hnext, hrun⟩ := Outcome.bind_eq_ok.mp hrun
    obtain ⟨-, rfl⟩ := checkedInt_eq_ok.mp hnext
    cases hrun
    have hnext := hsound.current
    exact ⟨by dsimp only; omega, hsound.window⟩
  | clean =>
    cases hrun
    exact ⟨hsound.current, hsound.window⟩
  | setTimeWindow begin finish => exact hsound.setTimeWindow hrun
  | setDefaultReductionOperation op =>
    cases hrun
    exact ⟨hsound.current, hsound.window⟩
  | setInterpolationType interpType =>
    cases hrun
    exact ⟨hsound.current, hsound.window⟩

/-- A call with an invalid window throws, and the data base is as before. -/
def RefusesInvalid (db : PerformanceDataBase) : PerformanceOperation RegionType Metric → Prop
  | .setTimeWindow begin finish => ¬ db.Within begin finish →
    ∃ error, db.setTimeWindow begin finish = .ok (.error error, db)
  | _ => True

/-- No difference that the check of an invalid window takes overflows. -/
def DifferencesFit (db : PerformanceDataBase) : PerformanceOperation RegionType Metric → Prop
  | .setTimeWindow begin finish => ¬ db.Within begin finish →
    FitsInt (finish - begin) ∧ (begin ≤ finish → FitsInt (finish - 1))
  | _ => True

omit [DecidableEq Metric] in
theorem refusesInvalid_iff {db : PerformanceDataBase} (hsound : db.Sound)
    (operation : PerformanceOperation RegionType Metric) :
    RefusesInvalid db operation ↔ DifferencesFit db operation := by
  cases operation with
  | setTimeWindow begin finish =>
    refine imp_congr_right fun hinvalid => ?_
    have hother : ¬ (db.timeWindowLeft = begin ∧ db.timeWindowRight = finish) := by
      intro hsame
      have hwindow := hsound.window
      rw [hsame.1, hsame.2] at hwindow
      exact hinvalid hwindow
    rw [PerformanceDataBase.setTimeWindow, if_neg hother]
    constructor
    · intro h
      obtain ⟨error, h⟩ := h
      obtain ⟨invalid, hcheck, -⟩ := Outcome.bind_eq_ok.mp h
      have hfits := PerformanceDataBase.invalidWindow_eq_ok.mp hcheck
      exact ⟨hfits.1, hfits.2.1⟩
    · intro hfits
      have hcheck := PerformanceDataBase.invalidWindow_eq_ok.mpr
        ⟨hfits.1, hfits.2, iff_of_true (Eq.refl true) hinvalid⟩
      rw [hcheck]
      exact ⟨_, rfl⟩
  | _ => exact Iff.rfl

/-- The window stays among the written iterations, and every invalid one is refused exactly if
the differences that are compared are `int`s. -/
theorem run_windows_iff (events : EventList Metric)
    (operations : List (PerformanceOperation RegionType Metric)) :
    ((∀ db, operations.foldlM (PerformanceOperation.step events) .start = .ok db →
        db.Within db.timeWindowLeft db.timeWindowRight) ∧
      Outcome.StepsMeet RefusesInvalid (PerformanceOperation.step events) operations .start) ↔
    Outcome.StepsMeet DifferencesFit (PerformanceOperation.step events) operations .start := by
  have hstart : PerformanceDataBase.start.Sound := ⟨le_rfl, le_rfl, le_rfl, by decide⟩
  have hmeet := @Outcome.StepsMeet.congr _ _ _ _ (PerformanceOperation.step events)
    PerformanceDataBase.Sound (fun db operation db' hsound _ hstep => hsound.step hstep)
    (fun db operation hsound => refusesInvalid_iff hsound operation) operations _ hstart
  have hwindows : ∀ db, operations.foldlM (PerformanceOperation.step events) .start = .ok db →
      db.Within db.timeWindowLeft db.timeWindowRight := by
    intro db hrun
    have hsound := Outcome.foldlM_invariant PerformanceDataBase.Sound
      (fun s operation s' hsound hstep => hsound.step hstep) operations _ _ hstart hrun
    exact hsound.window
  rw [hmeet, and_iff_right hwindows]

/-- The length of the window from 5 to -2147483647 is no `int`. -/
theorem not_run_windows :
    ¬ ∀ operations : List (PerformanceOperation Unit Bool),
      (∀ db, operations.foldlM (PerformanceOperation.step timeOnly) .start = .ok db →
        db.Within db.timeWindowLeft db.timeWindowRight) ∧
      Outcome.StepsMeet RefusesInvalid (PerformanceOperation.step timeOnly) operations .start := by
  intro h
  have hmeet := (h [.setTimeWindow 5 (-2147483647)]).2.1
  obtain ⟨error, hthrown⟩ := hmeet (by decide)
  revert hthrown
  rw [PerformanceDataBase.setTimeWindow, if_neg (by decide), PerformanceDataBase.invalidWindow,
    checkedInt, if_neg (by decide)]
  intro hthrown
  cases hthrown

end Windows
end ReadexPtf.Agents
