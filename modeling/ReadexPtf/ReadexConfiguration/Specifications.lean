import ReadexPtf.Lib.OrdMap
import ReadexPtf.Lib.Outcome

/-! The tuning specifications of the scenarios of the plugin `readex_configuration`: they are
taken from a scenario before its experiment, and given back when the search is finished. -/
namespace ReadexPtf.ReadexConfiguration
open ReadexPtf
variable {Specs : Type}

/-- A pool has its scenarios under their ids. Prepared ones have the specifications that they were
created with, and the others may have none. -/
structure Plugin (Specs : Type) where
  tuningSpecs : List Specs
  psp : OrdMap ℤ Specs
  esp : OrdMap ℤ (Option Specs)
  fsp : OrdMap ℤ (Option Specs)

/-- `xs[ i ] = a` of a vector. -/
def writeAt (xs : List Specs) (i : ℤ) (a : Specs) : Outcome (List Specs) :=
  if 0 ≤ i ∧ i < xs.length then .ok (xs.set i.toNat a) else .undefined

namespace Plugin

def startTuningStep (s : Plugin Specs) : Plugin Specs := { s with psp := .empty, esp := .empty }

/-- A created scenario gets into the pool of those that are prepared. -/
def prepareScenarios (s : Plugin Specs) (id : ℤ) (specs : Specs) : Plugin Specs :=
  { s with psp := s.psp.insertNew id specs }

def defineExperiment (s : Plugin Specs) : Outcome (Plugin Specs) :=
  match s.psp.entries with
  | [] => .ok s
  | (id, specs) :: _ => do
    let tuningSpecs ← writeAt (s.tuningSpecs ++ [specs]) id specs
    return { s with
      tuningSpecs := tuningSpecs
      psp := s.psp.filterKeys fun key => key != id
      esp := s.esp.insertNew id none }

/-- The frontend has carried out the experiment of a scenario. -/
def finishExperiment (s : Plugin Specs) : Plugin Specs :=
  match s.esp.entries with
  | [] => s
  | (id, specs) :: _ =>
    { s with esp := s.esp.filterKeys fun key => key != id, fsp := s.fsp.insertNew id specs }

/-- What the search algorithm answers then changes nothing here. -/
def searchFinished (s : Plugin Specs) : Outcome (Plugin Specs) := do
  let fsp ← OrdMap.fill Prod.fst (fun scenario => do
    let specs ← Outcome.elementAt s.tuningSpecs scenario.1
    return some specs) s.fsp.entries s.fsp
  return { s with fsp := fsp }

end Plugin

inductive Step (Specs : Type) where
  | startTuningStep
  | prepareScenarios (id : ℤ) (specs : Specs)
  | defineExperiment
  | finishExperiment
  | searchFinished
  deriving DecidableEq

/-- A run also remembers the scenarios that were handed to `defineExperiment`. -/
structure Run (Specs : Type) where
  plugin : Plugin Specs
  handed : List (ℤ × Specs)

namespace Run

def start : Run Specs := ⟨⟨[], .empty, .empty, .empty⟩, []⟩

def step (s : Run Specs) : Step Specs → Outcome (Run Specs)
  | .startTuningStep => .ok { s with plugin := s.plugin.startTuningStep }
  | .prepareScenarios id specs => .ok { s with plugin := s.plugin.prepareScenarios id specs }
  | .defineExperiment => do
    let plugin ← s.plugin.defineExperiment
    return ⟨plugin, s.handed ++ s.plugin.psp.entries.take 1⟩
  | .finishExperiment => .ok { s with plugin := s.plugin.finishExperiment }
  | .searchFinished => do
    let plugin ← s.plugin.searchFinished
    return { s with plugin := plugin }

/-- Every finished scenario has the specifications that it was handed over with. -/
def Restored (s : Run Specs) : Prop :=
  ∀ scenario ∈ s.plugin.fsp.entries, ∃ specs, scenario.2 = some specs ∧
    (scenario.1, specs) ∈ s.handed

/-- No step leaves the vector, and the end of each search restores the finished scenarios. -/
def Restores : List (Step Specs) → Run Specs → Prop
  | [], _ => True
  | step :: steps, s => ∃ s', s.step step = .ok s' ∧ (step = .searchFinished → s'.Restored) ∧
    Restores steps s'

/-- The id that is handed over is greater than all before it. -/
def Increasing (s : Run Specs) (step : Step Specs) : Prop :=
  step = .defineExperiment → ∀ scenario ∈ s.plugin.psp.entries.head?, ∀ earlier ∈ s.handed,
    earlier.1 < scenario.1
instance [DecidableEq Specs] (s : Run Specs) (step : Step Specs) : Decidable (Increasing s step) :=
  inferInstanceAs (Decidable (_ → _))

/-- The id that is handed over is the number of those before it. -/
def InPlace (s : Run Specs) (step : Step Specs) : Prop :=
  step = .defineExperiment → ∀ scenario ∈ s.plugin.psp.entries.head?,
    scenario.1 = s.handed.length
instance [DecidableEq Specs] (s : Run Specs) (step : Step Specs) : Decidable (InPlace s step) :=
  inferInstanceAs (Decidable (_ → _))

/-- Everything handed over is saved under its id. -/
structure Saved (s : Run Specs) : Prop where
  specs : s.plugin.tuningSpecs = s.handed.map Prod.snd
  ids : ∀ i (h : i < s.handed.length), s.handed[i].1 = i
  executed : ∀ id ∈ s.plugin.esp.keys, 0 ≤ id ∧ id < s.handed.length
  finished : ∀ id ∈ s.plugin.fsp.keys, 0 ≤ id ∧ id < s.handed.length

theorem writeAt_last (xs : List Specs) (a : Specs) :
    writeAt (xs ++ [a]) xs.length a = .ok (xs ++ [a]) := by
  rw [writeAt, if_pos ⟨Int.natCast_nonneg _, by simp⟩, Int.toNat_natCast]
  simp

/-- Writing the last specifications again is the only write that stays in the vector. -/
theorem writeAt_outside {xs : List Specs} {a : Specs} {id : ℤ}
    (h : ¬ (0 ≤ id ∧ id ≤ xs.length)) : writeAt (xs ++ [a]) id a = .undefined := by
  rw [writeAt, if_neg]
  rw [List.length_append, List.length_singleton]
  omega

section Steps
variable {s : Run Specs} {a : Step Specs}

theorem Saved.elementAt (h : Saved s) {id : ℤ} (hid : 0 ≤ id ∧ id < s.handed.length) :
    ∃ specs, Outcome.elementAt s.plugin.tuningSpecs id = .ok specs ∧ (id, specs) ∈ s.handed := by
  have hlt : id.toNat < s.handed.length := by omega
  refine ⟨s.handed[id.toNat].2, ?_, ?_⟩
  · rw [Outcome.elementAt_eq_ok, h.specs, List.getElem?_map, List.getElem?_eq_getElem hlt]
    exact ⟨hid.1, rfl⟩
  · have hfst := h.ids id.toNat hlt
    rw [Int.toNat_of_nonneg hid.1] at hfst
    have hmem := List.getElem_mem hlt
    rw [← Prod.mk.eta (p := s.handed[id.toNat]), hfst] at hmem
    exact hmem

/-- Each finished scenario gets what is saved under its id. -/
theorem Saved.restore (h : Saved s) : ∃ s', s.step .searchFinished = .ok s' ∧ Saved s' ∧
    Restored s' := by
  have hspecs : ∀ scenario ∈ s.plugin.fsp.entries, ∃ specs,
      Outcome.elementAt s.plugin.tuningSpecs scenario.1 = .ok specs ∧
        (scenario.1, specs) ∈ s.handed := fun scenario hmem =>
    h.elementAt (h.finished scenario.1 (List.mem_map_of_mem hmem))
  obtain ⟨fsp, hfill⟩ := @OrdMap.fill_returns _ _ _ _ Prod.fst (fun scenario => do
    let specs ← Outcome.elementAt s.plugin.tuningSpecs scenario.1
    return some specs) _ (fun scenario hmem => by
      obtain ⟨specs, hread, -⟩ := hspecs scenario hmem
      exact ⟨some specs, by rw [hread]; rfl⟩) s.plugin.fsp
  obtain ⟨-, hvalues⟩ := OrdMap.fill_spec hfill
  have hentry : ∀ id specs, fsp.get? id = some specs → id ∈ s.plugin.fsp.keys ∧
      ∃ saved, specs = some saved ∧ (id, saved) ∈ s.handed := by
    intro id specs hget
    rcases hvalues id with ⟨scenario, hmem, rfl, v, hread, hgot⟩ | ⟨hnot, hsame⟩
    · obtain ⟨saved, hsaved, hhanded⟩ := hspecs scenario hmem
      rw [hsaved, Outcome.ok_bind, Outcome.pure_eq, Outcome.ok.injEq] at hread
      rw [hgot, Option.some.injEq] at hget
      exact ⟨List.mem_map_of_mem hmem, saved, by rw [← hget, hread], hhanded⟩
    · rw [hsame] at hget
      exact absurd (OrdMap.mem_keys.mpr ⟨specs, hget⟩) hnot
  refine ⟨⟨{ s.plugin with fsp := fsp }, s.handed⟩, ?_, ⟨h.specs, h.ids, h.executed, ?_⟩, ?_⟩
  · rw [step, Plugin.searchFinished, hfill]
    rfl
  · intro id hid
    obtain ⟨specs, hget⟩ := OrdMap.mem_keys.mp hid
    exact h.finished id (hentry id specs hget).1
  · intro scenario hmem
    exact (hentry scenario.1 scenario.2 (OrdMap.get?_eq_some.mpr hmem)).2

theorem Saved.define (h : Saved s) {id : ℤ} {specs : Specs} {later : List (ℤ × Specs)}
    (hpsp : s.plugin.psp.entries = (id, specs) :: later) (hid : id = s.handed.length) :
    ∃ s', s.step .defineExperiment = .ok s' ∧ Saved s' := by
  have hlength : s.plugin.tuningSpecs.length = s.handed.length := by
    rw [h.specs, List.length_map]
  refine ⟨⟨⟨s.plugin.tuningSpecs ++ [specs], s.plugin.psp.filterKeys fun key => key != id,
    s.plugin.esp.insertNew id none, s.plugin.fsp⟩, s.handed ++ [(id, specs)]⟩, ?_, ?_, ?_, ?_, ?_⟩
  · rw [step, Plugin.defineExperiment, hpsp]
    simp only
    rw [hid, ← hlength, writeAt_last]
    rfl
  · rw [h.specs, List.map_append]
    rfl
  · intro i hi
    rw [List.length_append, List.length_singleton] at hi
    rw [List.getElem_append]
    split_ifs with hlt
    · exact h.ids i hlt
    · have heq : i = s.handed.length := by omega
      simp [hid, heq]
  · intro id' hid'
    rw [List.length_append, List.length_singleton]
    rcases OrdMap.mem_keys_insertNew.mp hid' with rfl | hid'
    · omega
    · have hbounds := h.executed id' hid'
      omega
  · intro id' hid'
    have hbounds := h.finished id' hid'
    rw [List.length_append, List.length_singleton]
    omega

/-- A step that meets the condition. -/
theorem Saved.step (h : Saved s) (hplace : InPlace s a) : ∃ s', s.step a = .ok s' ∧
    Saved s' ∧ (a = .searchFinished → Restored s') := by
  cases a with
  | startTuningStep =>
    exact ⟨_, rfl, ⟨h.specs, h.ids, List.forall_mem_nil _, h.finished⟩, nofun⟩
  | prepareScenarios id specs => exact ⟨_, rfl, ⟨h.specs, h.ids, h.executed, h.finished⟩, nofun⟩
  | defineExperiment =>
    cases hpsp : s.plugin.psp.entries with
    | nil =>
      refine ⟨s, ?_, h, nofun⟩
      rw [Run.step, Plugin.defineExperiment, hpsp]
      simp
    | cons scenario later =>
      have hid := hplace rfl scenario (by rw [hpsp]; rfl)
      obtain ⟨s', hstep, hsaved⟩ := h.define hpsp hid
      exact ⟨s', hstep, hsaved, nofun⟩
  | finishExperiment =>
    refine ⟨_, rfl, ?_, nofun⟩
    rw [Plugin.finishExperiment]
    cases hesp : s.plugin.esp.entries with
    | nil => exact h
    | cons scenario later =>
      have hmem : scenario.1 ∈ s.plugin.esp.keys := by
        rw [OrdMap.keys, hesp]
        exact List.mem_cons_self
      refine ⟨h.specs, h.ids, fun id hid => ?_, fun id hid => ?_⟩
      · exact h.executed id (OrdMap.mem_keys_filterKeys.mp hid).1
      · rcases OrdMap.mem_keys_insertNew.mp hid with rfl | hid
        · exact h.executed _ hmem
        · exact h.finished id hid
  | searchFinished =>
    obtain ⟨s', hstep, hsaved, hrestored⟩ := h.restore
    exact ⟨s', hstep, hsaved, fun _ => hrestored⟩

/-- An id that is too great, or negative, is no index of the vector. -/
theorem Saved.leaves (h : Saved s) (hinc : Increasing s a) (hplace : ¬ InPlace s a) :
    s.step a = .undefined := by
  rw [InPlace, Classical.not_imp] at hplace
  obtain ⟨rfl, hplace⟩ := hplace
  push Not at hplace
  obtain ⟨scenario, hhead, hne⟩ := hplace
  cases hpsp : s.plugin.psp.entries with
  | nil =>
    rw [hpsp] at hhead
    cases hhead
  | cons first later =>
    obtain rfl : first = scenario := by
      rw [hpsp] at hhead
      exact Option.some.inj hhead
    have hgreater := hinc rfl first (by rw [hpsp]; rfl)
    have houtside : ¬ (0 ≤ first.1 ∧ first.1 ≤ s.plugin.tuningSpecs.length) := by
      rintro ⟨hnonneg, hle⟩
      rw [h.specs, List.length_map] at hle
      -- an id below the number of those before it has been handed over already
      have hlt : first.1.toNat < s.handed.length := by omega
      have hless := hgreater _ (List.getElem_mem hlt)
      rw [h.ids] at hless
      omega
    rw [Run.step, Plugin.defineExperiment, hpsp]
    simp only
    rw [writeAt_outside houtside]
    rfl

end Steps

theorem saved_start : Saved (start : Run Specs) :=
  ⟨rfl, fun _ h => absurd h (Nat.not_lt_zero _), List.forall_mem_nil _, List.forall_mem_nil _⟩

theorem restores_iff_of_saved {steps : List (Step Specs)} : ∀ {s : Run Specs}, Saved s →
    Outcome.StepsMeet Increasing step steps s →
      (Restores steps s ↔ Outcome.StepsMeet InPlace step steps s) := by
  induction steps with
  | nil => exact fun _ _ => Iff.rfl
  | cons a steps ih =>
    intro s hs hinc
    by_cases hplace : InPlace s a
    · obtain ⟨s', hstep, hsaved, hrestored⟩ := hs.step hplace
      rw [Outcome.StepsMeet.cons_iff hstep] at hinc ⊢
      rw [← ih hsaved hinc.2, Restores, hstep]
      constructor
      · rintro ⟨s'', heq, -, hlater⟩
        exact ⟨hplace, Outcome.ok.inj heq ▸ hlater⟩
      · exact fun h => ⟨s', rfl, hrestored, h.2⟩
    · refine iff_of_false ?_ fun h => hplace h.1
      rintro ⟨s', hstep, -⟩
      rw [hs.leaves hinc.1 hplace] at hstep
      cases hstep

/-- With increasing ids, the specifications are saved in the vector and given back just if the
ids that are handed over are 0, 1, 2 and so on. -/
theorem restores_iff {steps : List (Step Specs)}
    (hinc : Outcome.StepsMeet Increasing step steps start) :
    Restores steps start ↔ Outcome.StepsMeet InPlace step steps start :=
  restores_iff_of_saved saved_start hinc

theorem restores_two : Restores [.prepareScenarios 0 "first", .prepareScenarios 1 "second",
    .defineExperiment, .finishExperiment, .searchFinished, .defineExperiment, .finishExperiment,
    .searchFinished] start :=
  (restores_iff (by decide)).mpr (by decide)

/-- The first id that is handed over is 1, as after a scenario of another plugin. -/
theorem not_restores : ¬ ∀ steps : List (Step String),
    Outcome.StepsMeet Increasing step steps start → Restores steps start := by
  intro h
  obtain ⟨s, hprepare, -, s', hdefine, -⟩ := h [.prepareScenarios 1 "first", .defineExperiment]
    (by decide)
  obtain rfl := Outcome.ok.inj hprepare
  cases hdefine

end Run
end ReadexPtf.ReadexConfiguration
