import ReadexPtf.Frontend.ScenarioPool
import Mathlib

/-! The class of the scenario pools as it stands: a map of pointers, the operations on it in any
order, and what they are asked to keep. -/
namespace ReadexPtf.Frontend
open Autotune (Scenario)

/-- `map<int, Scenario*>`, with null pointers. -/
abbrev ScenarioMap := OrdMap ℤ (Option Scenario)

/-- The `unsigned int` of `getID`, converted to the `int` of the keys. -/
def scenarioKey (scenario : Scenario) : ℤ := (scenario.id : ℤ).bmod (2 ^ 32)

namespace ScenarioMap

def size (scenarios : ScenarioMap) : ℕ := scenarios.entries.length

def erase (scenarios : ScenarioMap) (id : ℤ) : ScenarioMap :=
  scenarios.filterKeys fun key => key != id

/-- The pointer is read. `insert` leaves an entry that is there. -/
def push (scenarios : ScenarioMap) : Option Scenario → Outcome ScenarioMap
  | none => .undefined
  | some scenario => .ok (scenarios.insertNew (scenarioKey scenario) (some scenario))

/-- `begin()` is read, also that of an empty map. -/
def pop (scenarios : ScenarioMap) : Outcome (Option Scenario × ScenarioMap) :=
  match scenarios.entries with
  | [] => .undefined
  | e :: _ => .ok (e.2, erase scenarios e.1)

/-- The loop of `pop( id )` reads every pointer up to the one it looks for. The comparison of an
`int` and an `unsigned int` is one of the converted numbers. -/
def findScenario (id : ℤ) : List (ℤ × Option Scenario) → Outcome (Option (ℤ × Scenario))
  | [] => .ok none
  | (_, none) :: _ => .undefined
  | (key, some scenario) :: es =>
    if scenarioKey scenario = id then .ok (some (key, scenario)) else findScenario id es

def popId (scenarios : ScenarioMap) (id : ℤ) : Outcome (Option Scenario × ScenarioMap) := do
  match ← findScenario id scenarios.entries with
  | none => return (none, scenarios)
  | some (key, scenario) => return (some scenario, erase scenarios key)

/-- `(*scenarios)[ id ]`: the index of a key that is missing makes an entry for it. -/
def getScenarioByScenarioID (scenarios : ScenarioMap) (id : ℤ) : Option Scenario × ScenarioMap :=
  match scenarios.get? id with
  | some scenario => (scenario, scenarios)
  | none => (none, scenarios.set id none)

def getTuningSpecificationByScenarioID (scenarios : ScenarioMap) (id : ℤ) :
    Outcome (List Autotune.TuningSpecification × ScenarioMap) :=
  match getScenarioByScenarioID scenarios id with
  | (none, _) => .undefined
  | (some scenario, scenarios) => .ok (scenario.ts, scenarios)

end ScenarioMap

/-- The operations of the class, and `erase` on the map that `getScenarios` gives out. -/
inductive PoolOperation where
  | push (scenario : Option Scenario)
  | pop
  | popId (id : ℤ)
  | getScenarioByScenarioID (id : ℤ)
  | getTuningSpecificationByScenarioID (id : ℤ)
  | erase (id : ℤ)
  | clear

/-- A pool, and the scenarios pushed and not yet taken out. -/
structure PoolRun where
  scenarios : ScenarioMap
  live : List Scenario

namespace PoolRun
open ScenarioMap

def start : PoolRun := ⟨.empty, []⟩

/-- The pool after a `pop`, with what it gave. -/
def popped (run : PoolRun) : Option Scenario × ScenarioMap → PoolRun
  | (none, scenarios) => ⟨scenarios, run.live⟩
  | (some scenario, scenarios) => ⟨scenarios, run.live.erase scenario⟩

def step (run : PoolRun) : PoolOperation → Outcome PoolRun
  | .push scenario => do
    let scenarios ← run.scenarios.push scenario
    return ⟨scenarios, scenario.toList ++ run.live⟩
  | .pop => do
    let out ← run.scenarios.pop
    return run.popped out
  | .popId id => do
    let out ← run.scenarios.popId id
    return run.popped out
  | .getScenarioByScenarioID id =>
    .ok ⟨(run.scenarios.getScenarioByScenarioID id).2, run.live⟩
  | .getTuningSpecificationByScenarioID id => do
    let (_, scenarios) ← run.scenarios.getTuningSpecificationByScenarioID id
    return ⟨scenarios, run.live⟩
  | .erase id =>
    .ok ⟨run.scenarios.erase id, run.live.filter fun scenario => (scenario.id : ℤ) ≠ id⟩
  | .clear => .ok ⟨.empty, []⟩

/-- What is asked of a pool. -/
structure Sound (run : PoolRun) : Prop where
  stored : ∀ e ∈ run.scenarios.entries, ∃ scenario, e.2 = some scenario ∧ e.1 = scenario.id
  counted : run.scenarios.size = run.live.length

end PoolRun

/-- The id that an operation looks for, if it changes nothing else. -/
def PoolOperation.lookup : PoolOperation → Option ℤ
  | .popId id | .getScenarioByScenarioID id | .getTuningSpecificationByScenarioID id => some id
  | .push _ | .pop | .erase _ | .clear => none

namespace PoolRun
open ScenarioMap

/-- An operation returns, leaves the pool sound, and as it was if it looks for an id that is not
there. -/
def StepSound (run : PoolRun) (op : PoolOperation) : Prop :=
  ∃ run', step run op = .ok run' ∧ run'.Sound ∧
    ∀ id, op.lookup = some id → id ∉ run.scenarios.keys → run'.scenarios = run.scenarios

/-- A new scenario is pushed, under an id that is an `int`; only a pool with scenarios is popped
without an id; and the lookups by an index are of ids that are there. -/
def Allowed (run : PoolRun) : PoolOperation → Prop
  | .push none => False
  | .push (some scenario) =>
    (scenario.id : ℤ) ≤ intMax ∧ (scenario.id : ℤ) ∉ run.scenarios.keys
  | .pop => run.scenarios.entries ≠ []
  | .getScenarioByScenarioID id | .getTuningSpecificationByScenarioID id =>
    id ∈ run.scenarios.keys
  | .popId _ | .erase _ | .clear => True

/-- The scenarios that a map points to. -/
def held (scenarios : ScenarioMap) : List Scenario := scenarios.entries.filterMap Prod.snd

/-- What the operations keep: the pool points to the scenarios pushed and not yet taken out. -/
structure Consistent (run : PoolRun) : Prop where
  stored : ∀ e ∈ run.scenarios.entries, ∃ scenario,
    e.2 = some scenario ∧ e.1 = scenario.id ∧ (scenario.id : ℤ) ≤ intMax
  live : run.live.Perm (held run.scenarios)

theorem scenarioKey_of_le {scenario : Scenario} (h : (scenario.id : ℤ) ≤ intMax) :
    scenarioKey scenario = scenario.id := by
  simp only [intMax] at h
  refine Int.bmod_eq_of_le ?_ ?_
  · norm_num
  · norm_num
    omega

theorem le_of_scenarioKey {scenario : Scenario} (h : scenarioKey scenario = scenario.id) :
    (scenario.id : ℤ) ≤ intMax := by
  have hbound : scenarioKey scenario < ((2 ^ 32 : ℕ) + 1) / 2 := Int.bmod_lt (by norm_num)
  rw [h] at hbound
  norm_num at hbound
  simp only [intMax]
  omega

theorem Consistent.sound {run : PoolRun} (h : run.Consistent) : run.Sound := by
  refine ⟨fun e he => ?_, ?_⟩
  · obtain ⟨scenario, hsome, hkey, -⟩ := h.stored e he
    exact ⟨scenario, hsome, hkey⟩
  · have hall : (held run.scenarios).length = run.scenarios.entries.length := by
      rw [held, List.length_filterMap_eq_countP, List.countP_eq_length]
      intro e he
      obtain ⟨scenario, hsome, -⟩ := h.stored e he
      rw [hsome]
      rfl
    rw [h.live.length_eq, hall, ScenarioMap.size]

theorem consistent_start : start.Consistent := ⟨by simp [start, OrdMap.empty], .refl _⟩

/-- A map that has the entries of another one, and one more. -/
theorem held_perm {scenarios scenarios' : ScenarioMap} {e : ℤ × Option Scenario}
    {scenario : Scenario} (hsome : e.2 = some scenario)
    (h : scenarios.entries.Perm (e :: scenarios'.entries)) :
    (held scenarios).Perm (scenario :: held scenarios') := by
  have hperm := h.filterMap Prod.snd
  rwa [List.filterMap_cons, hsome] at hperm

theorem Consistent.push {run : PoolRun} (h : run.Consistent) {scenario : Scenario}
    (hmax : (scenario.id : ℤ) ≤ intMax) (hnew : (scenario.id : ℤ) ∉ run.scenarios.keys) :
    Consistent ⟨run.scenarios.insertNew (scenarioKey scenario) (some scenario),
      scenario :: run.live⟩ := by
  rw [scenarioKey_of_le hmax]
  have hperm := OrdMap.entries_insertNew_perm hnew (some scenario)
  constructor
  · intro e he
    cases List.mem_cons.mp (hperm.mem_iff.mp he) with
    | inl hself => exact ⟨scenario, by rw [hself], by rw [hself], hmax⟩
    | inr hold => exact h.stored e hold
  · exact (h.live.cons scenario).trans (held_perm rfl hperm).symm

/-- An entry is taken out with its scenario. -/
theorem Consistent.takeOut {run : PoolRun} (h : run.Consistent) {e : ℤ × Option Scenario}
    {scenario : Scenario} (he : e ∈ run.scenarios.entries) (hsome : e.2 = some scenario) :
    Consistent ⟨run.scenarios.erase e.1, run.live.erase scenario⟩ := by
  constructor
  · exact fun e' he' => h.stored e' (List.mem_of_mem_filter he')
  · have hperm := @held_perm run.scenarios (run.scenarios.erase e.1) e scenario hsome
      (OrdMap.Entries.filter_ne_perm run.scenarios.sorted he)
    have hlive := (h.live.trans hperm).erase scenario
    rwa [List.erase_cons_head] at hlive

theorem filterMap_filter_ne {es : List (ℤ × Option Scenario)} (id : ℤ)
    (h : ∀ e ∈ es, ∃ scenario,
      e.2 = some scenario ∧ e.1 = scenario.id ∧ (scenario.id : ℤ) ≤ intMax) :
    (es.filter fun e => e.1 != id).filterMap Prod.snd =
      (es.filterMap Prod.snd).filter fun scenario => (scenario.id : ℤ) ≠ id := by
  induction es with
  | nil => rfl
  | cons e es ih =>
    obtain ⟨⟨scenario, hsome, hkey, -⟩, hes⟩ := List.forall_mem_cons.mp h
    rw [List.filter_cons, List.filterMap_cons, hsome]
    by_cases hid : (scenario.id : ℤ) = id
    · simp [hkey, hid, ih hes]
    · simp [hkey, hid, hsome, ih hes]

theorem Consistent.erase {run : PoolRun} (h : run.Consistent) (id : ℤ) :
    Consistent ⟨run.scenarios.erase id,
      run.live.filter fun scenario => (scenario.id : ℤ) ≠ id⟩ := by
  constructor
  · exact fun e he => h.stored e (List.mem_of_mem_filter he)
  · have hheld : held (run.scenarios.erase id) = _ := filterMap_filter_ne id h.stored
    rw [hheld]
    exact h.live.filter _

/-- The search in a consistent pool meets no null pointer. -/
theorem findScenario_stored {id : ℤ} {es : List (ℤ × Option Scenario)}
    (h : ∀ e ∈ es, ∃ scenario,
      e.2 = some scenario ∧ e.1 = scenario.id ∧ (scenario.id : ℤ) ≤ intMax) :
    (findScenario id es = .ok none ∧ id ∉ es.map Prod.fst) ∨
      ∃ scenario, findScenario id es = .ok (some (id, scenario)) ∧ (id, some scenario) ∈ es := by
  induction es with
  | nil => exact .inl ⟨rfl, List.not_mem_nil⟩
  | cons e es ih =>
    obtain ⟨key, pointer⟩ := e
    obtain ⟨⟨scenario, hsome, hkey, hmax⟩, hes⟩ := List.forall_mem_cons.mp h
    simp only at hsome hkey
    subst hsome hkey
    rw [findScenario, scenarioKey_of_le hmax]
    split_ifs with hid
    · subst hid
      exact .inr ⟨scenario, rfl, List.mem_cons_self⟩
    · cases ih hes with
      | inl hnone =>
        refine .inl ⟨hnone.1, ?_⟩
        rw [List.map_cons, List.mem_cons, not_or]
        exact ⟨Ne.symm hid, hnone.2⟩
      | inr hthere =>
        obtain ⟨scenario', hfind, hmem⟩ := hthere
        exact .inr ⟨scenario', hfind, List.mem_cons_of_mem _ hmem⟩

/-- What an allowed operation does to a consistent pool. -/
theorem Consistent.step {run : PoolRun} (h : run.Consistent) {op : PoolOperation}
    (hallowed : run.Allowed op) : ∃ run', PoolRun.step run op = .ok run' ∧ run'.Consistent ∧
      ∀ id, op.lookup = some id → id ∉ run.scenarios.keys → run'.scenarios = run.scenarios := by
  cases op with
  | push scenario =>
    cases scenario with
    | none => exact absurd hallowed id
    | some scenario => exact ⟨_, rfl, h.push hallowed.1 hallowed.2, by simp [PoolOperation.lookup]⟩
  | pop =>
    cases hentries : run.scenarios.entries with
    | nil => exact absurd hentries hallowed
    | cons e es =>
      have he : e ∈ run.scenarios.entries := hentries ▸ List.mem_cons_self
      obtain ⟨scenario, hsome, -⟩ := h.stored e he
      refine ⟨_, ?_, h.takeOut he hsome, by simp [PoolOperation.lookup]⟩
      rw [PoolRun.step, ScenarioMap.pop, hentries]
      change Outcome.ok (run.popped (e.2, run.scenarios.erase e.1)) = _
      rw [hsome]
      rfl
  | popId id =>
    cases @findScenario_stored id _ h.stored with
    | inl hnone =>
      refine ⟨run, ?_, h, fun _ _ _ => rfl⟩
      rw [PoolRun.step, ScenarioMap.popId, hnone.1]
      rfl
    | inr hthere =>
      obtain ⟨scenario, hfind, he⟩ := hthere
      refine ⟨_, ?_, h.takeOut he rfl, ?_⟩
      · rw [PoolRun.step, ScenarioMap.popId, hfind]
        rfl
      · intro id' hid' hmissing
        obtain rfl := Option.some.inj hid'
        exact absurd (List.mem_map_of_mem he) hmissing
  | getScenarioByScenarioID id =>
    obtain ⟨scenario, hget⟩ := OrdMap.mem_keys.mp hallowed
    refine ⟨run, ?_, h, fun _ _ _ => rfl⟩
    rw [PoolRun.step, ScenarioMap.getScenarioByScenarioID, hget]
  | getTuningSpecificationByScenarioID id =>
    obtain ⟨pointer, hget⟩ := OrdMap.mem_keys.mp hallowed
    obtain ⟨scenario, hsome, -⟩ := h.stored _ (OrdMap.get?_eq_some.mp hget)
    simp only at hsome
    subst hsome
    refine ⟨run, ?_, h, fun _ _ _ => rfl⟩
    rw [PoolRun.step, ScenarioMap.getTuningSpecificationByScenarioID,
      ScenarioMap.getScenarioByScenarioID, hget]
    rfl
  | erase id => exact ⟨_, rfl, h.erase id, by simp [PoolOperation.lookup]⟩
  | clear => exact ⟨_, rfl, consistent_start, by simp [PoolOperation.lookup]⟩

/-- An operation that leaves a consistent pool sound is an allowed one. -/
theorem Consistent.allowed {run : PoolRun} (h : run.Consistent) {op : PoolOperation}
    (hsound : run.StepSound op) : run.Allowed op := by
  obtain ⟨run', hrun, hsound, -⟩ := hsound
  cases op with
  | push scenario =>
    cases scenario with
    | none => cases hrun
    | some scenario =>
      obtain rfl : run' = ⟨run.scenarios.insertNew (scenarioKey scenario) (some scenario),
          scenario :: run.live⟩ := (Outcome.ok.inj hrun).symm
      by_cases hkey : scenarioKey scenario ∈ run.scenarios.keys
      · have hcounted := hsound.counted
        rw [OrdMap.insertNew_of_mem hkey] at hcounted
        have hbefore := h.sound.counted
        simp only [List.length_cons] at hcounted
        omega
      · have hperm := OrdMap.entries_insertNew_perm hkey (some scenario)
        have hmem : (scenarioKey scenario, some scenario) ∈
            (run.scenarios.insertNew (scenarioKey scenario) (some scenario)).entries :=
          hperm.mem_iff.mpr List.mem_cons_self
        obtain ⟨scenario', hsome, hown⟩ := hsound.stored _ hmem
        obtain rfl := Option.some.inj hsome
        dsimp only at hown
        rw [hown] at hkey
        exact ⟨le_of_scenarioKey hown, hkey⟩
  | pop =>
    intro hnone
    rw [PoolRun.step, ScenarioMap.pop, hnone] at hrun
    cases hrun
  | getScenarioByScenarioID id =>
    cases hget : run.scenarios.get? id with
    | some pointer => exact OrdMap.mem_keys.mpr ⟨pointer, hget⟩
    | none =>
      rw [PoolRun.step, ScenarioMap.getScenarioByScenarioID, hget] at hrun
      obtain rfl := Outcome.ok.inj hrun
      -- the entry made for the id has no scenario
      obtain ⟨scenario, hsome, -⟩ := hsound.stored (id, none)
        (OrdMap.get?_eq_some.mp (OrdMap.get?_set_self run.scenarios id none))
      cases hsome
  | getTuningSpecificationByScenarioID id =>
    cases hget : run.scenarios.get? id with
    | some pointer => exact OrdMap.mem_keys.mpr ⟨pointer, hget⟩
    | none =>
      rw [PoolRun.step, ScenarioMap.getTuningSpecificationByScenarioID,
        ScenarioMap.getScenarioByScenarioID, hget] at hrun
      cases hrun
  | popId id => trivial
  | erase id => trivial
  | clear => trivial

/-- Every operation of a run leaves the pool sound exactly if each of them is allowed where it
comes. -/
theorem operations_sound_iff (ops : List PoolOperation) :
    Outcome.StepsMeet StepSound step ops start ↔ Outcome.StepsMeet Allowed step ops start := by
  have hiff (run : PoolRun) (op : PoolOperation) (h : run.Consistent) :
      run.StepSound op ↔ run.Allowed op := by
    refine ⟨h.allowed, fun hallowed => ?_⟩
    obtain ⟨run', hrun, hconsistent, hmissing⟩ := h.step hallowed
    exact ⟨run', hrun, hconsistent.sound, hmissing⟩
  refine Outcome.StepsMeet.congr Consistent (fun run op run' h hsound hrun => ?_) hiff
    consistent_start
  obtain ⟨run'', hrun', hconsistent, -⟩ := h.step ((hiff run op h).mp hsound)
  exact Outcome.ok.inj (hrun.symm.trans hrun') ▸ hconsistent

/-- The lookup of an id in an empty pool leaves a null pointer there. -/
theorem not_operations_sound_lookup :
    ¬ Outcome.StepsMeet StepSound step [.getScenarioByScenarioID 0] start := by
  rintro ⟨⟨run', hrun, hsound, -⟩, -⟩
  obtain rfl := Outcome.ok.inj hrun
  obtain ⟨scenario, hsome, -⟩ := hsound.stored (0, none) List.mem_cons_self
  cases hsome

end PoolRun

namespace ScenarioPool

/-- The map behind a pool of scenarios under their own ids. -/
def toMap (pool : ScenarioPool) : ScenarioMap where
  entries := pool.scenarios.entries.map fun e => ((e.1 : ℤ), some e.2)
  sorted := List.pairwise_map.mpr (pool.scenarios.sorted.imp fun hlt => Int.ofNat_lt.mpr hlt)

theorem get?_toMap (pool : ScenarioPool) (k : ℤ) :
    pool.toMap.get? k = if 0 ≤ k then (pool.scenarios.get? k.toNat).map some else none := by
  change (pool.scenarios.entries.map fun e => ((e.1 : ℤ), some e.2)).lookup k =
    if 0 ≤ k then (pool.scenarios.entries.lookup k.toNat).map some else none
  induction pool.scenarios.entries with
  | nil => simp
  | cons e es ih =>
    rw [List.map_cons, OrdMap.Entries.lookup_cons, OrdMap.Entries.lookup_cons, ih]
    by_cases hk : k = e.1
    · simp [hk]
    · by_cases hneg : 0 ≤ k
      · have hne : k.toNat ≠ e.1 := by omega
        simp [hk, hneg, hne]
      · simp [hk, hneg]

theorem toMap_erase (pool : ScenarioPool) (id : ℕ) :
    (pool.erase id).toMap = ScenarioMap.erase pool.toMap id := by
  have hentries : (pool.erase id).toMap.entries = (ScenarioMap.erase pool.toMap id).entries := by
    change (pool.scenarios.entries.filter fun e => e.1 != id).map _ =
      (pool.scenarios.entries.map _).filter _
    rw [List.filter_map]
    congr 1
    refine List.filter_congr fun e _ => ?_
    rw [Bool.eq_iff_iff, bne_iff_ne, Function.comp, bne_iff_ne, ne_eq, ne_eq, Nat.cast_inj]
  exact OrdMap.ext_get? fun k => by rw [OrdMap.get?, OrdMap.get?, hentries]

/-- The class pops what the pool does. -/
theorem pop_toMap (pool : ScenarioPool) :
    ScenarioMap.pop pool.toMap = pool.pop.bind fun out => .ok (some out.1, out.2.toMap) := by
  rw [ScenarioMap.pop, ScenarioPool.pop]
  have hmap : pool.toMap.entries = pool.scenarios.entries.map fun e => ((e.1 : ℤ), some e.2) := rfl
  rw [hmap]
  cases pool.scenarios.entries with
  | nil => rfl
  | cons e es => simp only [List.map_cons, Outcome.bind, toMap_erase]

/-- It takes in what the pool does, under an id that is an `int`. -/
theorem push_toMap (pool : ScenarioPool) {scenario : Scenario}
    (h : (scenario.id : ℤ) ≤ intMax) :
    ScenarioMap.push pool.toMap (some scenario) = .ok (pool.push scenario).toMap := by
  rw [ScenarioMap.push, PoolRun.scenarioKey_of_le h]
  congr 1
  refine OrdMap.ext_get? fun k => ?_
  rw [get?_toMap, OrdMap.get?_insertNew, get?_toMap]
  change _ = if 0 ≤ k then
    ((pool.scenarios.insertNew scenario.id scenario).get? k.toNat).map some else none
  rw [OrdMap.get?_insertNew]
  by_cases hneg : 0 ≤ k
  · rw [if_pos hneg, if_pos hneg, Option.map_or]
    by_cases hk : k = scenario.id
    · simp [hk]
    · have hne : k.toNat ≠ scenario.id := by omega
      simp [hk, hne]
  · have hne : k ≠ scenario.id := by omega
    simp [hneg, hne]

end ScenarioPool
end ReadexPtf.Frontend
