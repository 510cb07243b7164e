import ReadexPtf.Autotune.ExhaustiveSearch
import Mathlib

/-! Whole runs of one exhaustive search object: the search path, the optimum and the
worst against the scenarios created since the last `clear`. -/
namespace ReadexPtf.Autotune
open ReadexPtf

/-- A scenario replaces the extreme found so far if there is none or if it beats it. -/
def improve {V : Type} (beats : V → V → Prop) [DecidableRel beats] (best : Option Nat) (value : V)
    (scenario_id : Nat) (objValue : V) : Option Nat × V :=
  if best = none ∨ beats objValue value then (some scenario_id, objValue) else (best, value)

theorem improve_ne_none {V : Type} (beats : V → V → Prop) [DecidableRel beats]
    (best : Option Nat) (value : V) (id : Nat) (v : V) :
    (improve beats best value id v).1 ≠ none := by
  rw [improve]
  split_ifs with h
  · exact Option.some_ne_none id
  · exact fun hnone => h (.inl hnone)

namespace ExhaustiveSearch
variable {Srp V : Type}

section Finish
variable [LT V] [DecidableLT V]

/-- One round of the loop of `searchFinished`. -/
def evaluate (search : ExhaustiveSearch Srp V) (scenario_id : Nat) (objValue : V) :
    ExhaustiveSearch Srp V :=
  let (optimum, optimumValue) :=
    improve (· < ·) search.optimum search.optimumValue scenario_id objValue
  let (worst, worstValue) :=
    improve (fun a b => b < a) search.worst search.worstValue scenario_id objValue
  { search with
    scenarioIds := search.scenarioIds.tail, path := search.path.set scenario_id objValue
    optimum, optimumValue, worst, worstValue }

/-- The first objective function is read unchecked. -/
def searchFinished (search : ExhaustiveSearch Srp V) (srp : Srp) :
    Outcome (ExhaustiveSearch Srp V) :=
  search.scenarioIds.foldlM (fun search scenario_id =>
    match search.objectiveFunctions with
    | [] => .undefined
    | objective :: _ => .ok (search.evaluate scenario_id (objective scenario_id srp))) search

end Finish

def getOptimum (search : ExhaustiveSearch Srp V) : Outcome Nat :=
  match search.optimum with
  | none => .aborts
  | some optimum => if optimum ∈ search.path.keys then .ok optimum else .aborts

def getWorst (search : ExhaustiveSearch Srp V) : Outcome Nat :=
  match search.worst with
  | none => .aborts
  | some worst => if worst ∈ search.path.keys then .ok worst else .aborts

/-- The queue `scenarioIds` is not among the members reset. -/
def clear (dblMax dblMin : V) (search : ExhaustiveSearch Srp V) : ExhaustiveSearch Srp V :=
  { search with
    path := .empty, searchSpaces := [], optimum := none, optimumValue := dblMax
    worst := none, worstValue := dblMin, objectiveFunctions := [] }

end ExhaustiveSearch

/-- The calls a plugin makes, and what the rest of the framework does in between. -/
inductive SearchOp (Srp V : Type) where
  | addSearchSpace (searchSpace : SearchSpace)
  | addObjectiveFunction (obj : Nat → Srp → V)
  | createScenarios
  | searchFinished (srp : Srp)
  | clear
  | elsewhere (made : Nat) (kept : Nat → Bool)

/-- A search object among its pools; `created` logs the ids since the last `clear`. -/
structure SearchSession (Srp V : Type) where
  search : ExhaustiveSearch Srp V
  pools : ScenarioPools
  created : List Nat

namespace SearchSession
open ExhaustiveSearch
variable {Srp V : Type}

/-- The search fields of a session agree with its log. -/
structure SinceClear [LT V] (s : SearchSession Srp V) : Prop where
  path : ∀ id, id ∈ s.search.path.keys ↔ id ∈ s.created
  optimum : s.created ≠ [] → ∃ o v, s.search.getOptimum = .ok o ∧
    s.search.path.get? o = some v ∧ ∀ id w, s.search.path.get? id = some w → ¬ w < v
  worst : s.created ≠ [] → ∃ o v, s.search.getWorst = .ok o ∧
    s.search.path.get? o = some v ∧ ∀ id w, s.search.path.get? id = some w → ¬ v < w

section Step
variable [LT V] [DecidableLT V]
variable (withRtsSupport : Bool) (ptfMinObjective : Nat → Srp → V) (dblMax dblMin : V)

def start (pools : ScenarioPools) : SearchSession Srp V := ⟨.init dblMax dblMin, pools, []⟩

def step (s : SearchSession Srp V) : SearchOp Srp V → Outcome (SearchSession Srp V)
  | .addSearchSpace space => .ok { s with search := s.search.addSearchSpace space }
  | .addObjectiveFunction obj => .ok { s with search := s.search.addObjectiveFunction obj }
  | .createScenarios => do
    let (search, pools) ← s.search.createScenarios withRtsSupport ptfMinObjective s.pools
    let created := (pools.createdSince s.pools.nextId).map Scenario.id
    .ok { search, pools, created := s.created ++ created }
  | .searchFinished srp => do
    let search ← s.search.searchFinished srp
    .ok { s with search }
  | .clear => .ok { s with search := s.search.clear dblMax dblMin, created := [] }
  | .elsewhere made kept => .ok { s with pools := s.pools.elsewhere made kept }

def run (s : SearchSession Srp V) (ops : List (SearchOp Srp V)) : Outcome (SearchSession Srp V) :=
  ops.foldlM (step withRtsSupport ptfMinObjective dblMax dblMin) s

/-- Every `clear` of the run finds no scenario waiting for its evaluation. -/
def ClearsIdle (s : SearchSession Srp V) : List (SearchOp Srp V) → Prop
  | [] => True
  | op :: ops =>
    (op matches .clear → s.search.scenarioIds = []) ∧
      ∀ s', step withRtsSupport ptfMinObjective dblMax dblMin s op = .ok s' → s'.ClearsIdle ops

end Step
/-- The kept extreme is a scenario of the path that no other beats. -/
def Extreme (beats : V → V → Prop) (path : OrdMap Nat V) (best : Option Nat) (value : V) : Prop :=
  match best with
  | none => path = .empty
  | some o => path.get? o = some value ∧ ∀ id v, path.get? id = some v → ¬ beats v value

theorem Extreme.improve {beats : V → V → Prop} [DecidableRel beats]
    [IsTrans V beats] [Std.Irrefl beats] {path : OrdMap Nat V} {best : Option Nat} {value : V}
    (h : Extreme beats path best value) {id : Nat} (hnew : id ∉ path.keys) (v : V) :
    Extreme beats (path.set id v) (improve beats best value id v).1
      (improve beats best value id v).2 := by
  cases best with
  | none =>
    have hempty : path = .empty := h
    simp only [Autotune.improve, true_or, if_true, Extreme, OrdMap.get?_set_self, true_and]
    intro id' w hw
    rw [OrdMap.get?_set, hempty] at hw
    split_ifs at hw
    · exact Option.some.inj hw ▸ irrefl v
    · exact absurd hw (by simp)
  | some o =>
    obtain ⟨hold, hbest⟩ := h
    have hne : o ≠ id := fun heq => hnew (heq ▸ OrdMap.mem_keys.mpr ⟨value, hold⟩)
    by_cases hbeats : beats v value
    · simp only [Autotune.improve, hbeats, or_true, if_true, Extreme, OrdMap.get?_set_self,
        true_and]
      intro id' w hw hlt
      rw [OrdMap.get?_set] at hw
      split_ifs at hw
      · have heq : v = w := Option.some.inj hw
        exact irrefl v (by rwa [← heq] at hlt)
      · exact hbest id' w hw (IsTrans.trans w v value hlt hbeats)
    · simp only [Autotune.improve, hbeats, reduceCtorEq, or_self, if_false, Extreme]
      refine ⟨(OrdMap.get?_set_ne path v hne).trans hold, fun id' w hw => ?_⟩
      rw [OrdMap.get?_set] at hw
      split_ifs at hw
      · exact Option.some.inj hw ▸ hbeats
      · exact hbest id' w hw

theorem Extreme.exists_best {beats : V → V → Prop} {path : OrdMap Nat V} {best : Option Nat}
    {value : V} (h : Extreme beats path best value) (hpath : path ≠ .empty) :
    ∃ o, best = some o ∧ path.get? o = some value ∧
      ∀ id v, path.get? id = some v → ¬ beats v value := by
  cases best with
  | none => exact absurd h hpath
  | some o => exact ⟨o, rfl, h⟩

/-- Queue, path and log of a session: the scenarios of the log are waiting or evaluated. -/
structure Tracked [LT V] (s : SearchSession Srp V) : Prop where
  below : ∀ id ∈ s.created, id < s.pools.nextId
  covered : ∀ id, id ∈ s.created ↔ id ∈ s.search.path.keys ∨ id ∈ s.search.scenarioIds
  nodup : s.search.scenarioIds.Nodup
  apart : ∀ id ∈ s.search.scenarioIds, id ∉ s.search.path.keys
  objective : s.search.scenarioIds ≠ [] → s.search.objectiveFunctions ≠ []
  optimum : Extreme (· < ·) s.search.path s.search.optimum s.search.optimumValue
  worst : Extreme (fun a b => b < a) s.search.path s.search.worst s.search.worstValue

section Order
variable [Preorder V] [DecidableLT V]

/-- Evaluating the scenario at the head of the queue. -/
theorem Tracked.evaluate {s : SearchSession Srp V} (h : s.Tracked) {id : Nat} {ids : List Nat}
    (hids : s.search.scenarioIds = id :: ids) (v : V) :
    ({ s with search := s.search.evaluate id v } : SearchSession Srp V).Tracked := by
  have hnew : id ∉ s.search.path.keys := h.apart id (hids ▸ List.mem_cons_self)
  have hnodup := List.nodup_cons.mp (hids ▸ h.nodup)
  have htail : (s.search.evaluate id v).scenarioIds = ids := by
    simp [ExhaustiveSearch.evaluate, hids]
  have hpath : (s.search.evaluate id v).path = s.search.path.set id v := rfl
  refine ⟨h.below, fun id' => ?_, ?_, ?_, fun _ => ?_, ?_, ?_⟩
  · rw [h.covered, hids, htail, hpath, OrdMap.mem_keys_set, List.mem_cons]
    exact or_left_comm.trans or_assoc.symm
  · rw [htail]
    exact hnodup.2
  · rw [htail, hpath]
    intro id' hid' hmem
    cases OrdMap.mem_keys_set.mp hmem with
    | inl heq => exact hnodup.1 (heq ▸ hid')
    | inr hold => exact h.apart id' (hids ▸ List.mem_cons_of_mem id hid') hold
  · exact h.objective (by simp [hids])
  · exact h.optimum.improve hnew v
  · have : Std.Irrefl (fun a b : V => b < a) := ⟨fun a => lt_irrefl a⟩
    have : IsTrans V (fun a b : V => b < a) := ⟨fun a b c hab hbc => hbc.trans hab⟩
    exact h.worst.improve hnew v

/-- The loop of `searchFinished` evaluates every queued scenario. -/
theorem Tracked.searchFinished {s : SearchSession Srp V} (h : s.Tracked) (srp : Srp) :
    ∃ search, s.search.searchFinished srp = .ok search ∧ search.scenarioIds = [] ∧
      ({ s with search } : SearchSession Srp V).Tracked := by
  obtain ⟨search, pools, created⟩ := s
  simp only [ExhaustiveSearch.searchFinished]
  generalize hids : search.scenarioIds = ids
  induction ids generalizing search with
  | nil => exact ⟨search, rfl, hids, h⟩
  | cons id ids ih =>
    obtain ⟨objective, rest, hobjective⟩ :=
      List.exists_cons_of_ne_nil (h.objective (by simp [hids]))
    have hnext := h.evaluate hids (objective id srp)
    have htail : (search.evaluate id (objective id srp)).scenarioIds = ids := by
      simp [ExhaustiveSearch.evaluate, hids]
    obtain ⟨search', hloop, hdone⟩ := ih _ hnext htail
    refine ⟨search', ?_, hdone⟩
    rw [List.foldlM_cons, hobjective, Outcome.ok_bind, hloop]

omit [DecidableLT V] in
theorem Tracked.createScenarios {s : SearchSession Srp V} (h : s.Tracked) {withRtsSupport : Bool}
    {ptfMinObjective : Nat → Srp → V} {search : ExhaustiveSearch Srp V} {pools : ScenarioPools}
    (hcall : s.search.createScenarios withRtsSupport ptfMinObjective s.pools =
      .ok (search, pools)) :
    Tracked ⟨search, pools,
      s.created ++ (pools.createdSince s.pools.nextId).map Scenario.id⟩ := by
  obtain ⟨objectiveFunctions, ids, hobjective, hsearch, hcreated, hrange, hcounter⟩ :=
    ExhaustiveSearch.createScenarios_spec hcall
  have hfresh : ∀ id ∈ ids, s.pools.nextId ≤ id ∧ id < pools.nextId := by
    intro id hid
    have := List.mem_range'_1.mp (hrange ▸ hid)
    omega
  -- an id handed out now is beyond every id of the log
  have hbeyond : ∀ id ∈ ids, id ∉ s.created := by
    intro id hid hold
    have := hfresh id hid
    have := h.below id hold
    omega
  rw [← hcreated, hsearch]
  refine ⟨fun id hid => ?_, fun id => ?_, ?_, fun id hid hpath => ?_, fun _ => hobjective,
    h.optimum, h.worst⟩
  · cases List.mem_append.mp hid with
    | inl hold => exact (h.below id hold).trans_le hcounter
    | inr hnew => exact (hfresh id hnew).2
  · rw [List.mem_append, List.mem_append, h.covered]
    exact or_assoc
  · refine List.nodup_append.mpr ⟨h.nodup, hrange ▸ List.nodup_range', ?_⟩
    intro id hold id' hnew heq
    exact hbeyond id' hnew (heq ▸ (h.covered id).mpr (.inr hold))
  · cases List.mem_append.mp hid with
    | inl hold => exact h.apart id hold hpath
    | inr hnew => exact hbeyond id hnew ((h.covered id).mpr (.inl hpath))

section Run
variable {withRtsSupport : Bool} {ptfMinObjective : Nat → Srp → V} {dblMax dblMin : V}

omit [DecidableLT V] in
theorem tracked_start (pools : ScenarioPools) :
    (start dblMax dblMin pools : SearchSession Srp V).Tracked where
  below := by simp [start]
  covered := by simp [start, init]
  nodup := by simp [start, init]
  apart := by simp [start, init]
  objective := by simp [start, init]
  optimum := rfl
  worst := rfl

omit [DecidableLT V] in
theorem Tracked.addSearchSpace {s : SearchSession Srp V} (h : s.Tracked) (space : SearchSpace) :
    ({ s with search := s.search.addSearchSpace space } : SearchSession Srp V).Tracked :=
  ⟨h.below, h.covered, h.nodup, h.apart, h.objective, h.optimum, h.worst⟩

omit [DecidableLT V] in
theorem Tracked.addObjectiveFunction {s : SearchSession Srp V} (h : s.Tracked)
    (obj : Nat → Srp → V) :
    ({ s with search := s.search.addObjectiveFunction obj } : SearchSession Srp V).Tracked :=
  ⟨h.below, h.covered, h.nodup, h.apart, fun _ => by simp [ExhaustiveSearch.addObjectiveFunction],
    h.optimum, h.worst⟩

omit [DecidableLT V] in
theorem Tracked.clear {s : SearchSession Srp V} (h : s.Tracked)
    (hidle : s.search.scenarioIds = []) (dblMax dblMin : V) :
    ({ s with search := s.search.clear dblMax dblMin, created := [] } :
      SearchSession Srp V).Tracked where
  below := by simp
  covered := by simp [ExhaustiveSearch.clear, hidle]
  nodup := h.nodup
  apart := by simp [ExhaustiveSearch.clear]
  objective := by simp [ExhaustiveSearch.clear, hidle]
  optimum := rfl
  worst := rfl

omit [DecidableLT V] in
theorem Tracked.elsewhere {s : SearchSession Srp V} (h : s.Tracked) (made : Nat)
    (kept : Nat → Bool) :
    ({ s with pools := s.pools.elsewhere made kept } : SearchSession Srp V).Tracked :=
  ⟨fun id hid => (h.below id hid).trans_le (Nat.le_add_right _ _),
    h.covered, h.nodup, h.apart, h.objective, h.optimum, h.worst⟩

/-- One call keeps the session tracked, a `clear` if nothing is waiting. -/
theorem Tracked.step {s s' : SearchSession Srp V} (h : s.Tracked) {op : SearchOp Srp V}
    (hidle : op matches .clear → s.search.scenarioIds = [])
    (hstep : step withRtsSupport ptfMinObjective dblMax dblMin s op = .ok s') : s'.Tracked := by
  cases op with
  | addSearchSpace space => exact Outcome.ok.inj hstep ▸ h.addSearchSpace space
  | addObjectiveFunction obj => exact Outcome.ok.inj hstep ▸ h.addObjectiveFunction obj
  | createScenarios =>
    obtain ⟨⟨search, pools⟩, hcall, hresult⟩ := Outcome.bind_eq_ok.mp hstep
    exact Outcome.ok.inj hresult ▸ h.createScenarios hcall
  | searchFinished srp =>
    obtain ⟨search, hcall, hresult⟩ := Outcome.bind_eq_ok.mp hstep
    obtain ⟨search', hcall', -, htracked⟩ := h.searchFinished srp
    have heq : search = search' := Outcome.ok.inj (hcall.symm.trans hcall')
    exact Outcome.ok.inj hresult ▸ heq ▸ htracked
  | clear => exact Outcome.ok.inj hstep ▸ h.clear (hidle rfl) dblMax dblMin
  | elsewhere made kept => exact Outcome.ok.inj hstep ▸ h.elsewhere made kept

theorem Tracked.run {s s' : SearchSession Srp V} (h : s.Tracked) {ops : List (SearchOp Srp V)}
    (hidle : s.ClearsIdle withRtsSupport ptfMinObjective dblMax dblMin ops)
    (hrun : run withRtsSupport ptfMinObjective dblMax dblMin s ops = .ok s') : s'.Tracked := by
  induction ops generalizing s with
  | nil => exact Outcome.ok.inj hrun ▸ h
  | cons op ops ih =>
    rw [SearchSession.run, List.foldlM_cons] at hrun
    obtain ⟨t, hstep, hrest⟩ := Outcome.bind_eq_ok.mp hrun
    exact ih (h.step hidle.1 hstep) (hidle.2 t hstep) hrest

omit [DecidableLT V] in
/-- With an empty queue the path holds the log, and the extremes are those of the path. -/
theorem Tracked.sinceClear {s : SearchSession Srp V} (h : s.Tracked)
    (hdone : s.search.scenarioIds = []) : s.SinceClear := by
  have hpath : ∀ id, id ∈ s.search.path.keys ↔ id ∈ s.created := by
    intro id
    rw [h.covered, hdone]
    simp
  have hnonempty : s.created ≠ [] → s.search.path ≠ .empty := by
    intro hcreated hempty
    obtain ⟨id, ids, hcons⟩ := List.exists_cons_of_ne_nil hcreated
    have hmem := (hpath id).mpr (hcons ▸ List.mem_cons_self)
    rw [hempty] at hmem
    simp at hmem
  refine ⟨hpath, fun hcreated => ?_, fun hcreated => ?_⟩
  · obtain ⟨o, hopt, hvalue, hbest⟩ := h.optimum.exists_best (hnonempty hcreated)
    refine ⟨o, _, ?_, hvalue, hbest⟩
    simp [getOptimum, hopt, OrdMap.mem_keys, hvalue]
  · obtain ⟨o, hopt, hvalue, hbest⟩ := h.worst.exists_best (hnonempty hcreated)
    refine ⟨o, _, ?_, hvalue, hbest⟩
    simp [getWorst, hopt, OrdMap.mem_keys, hvalue]

/-- In a run whose `clear`s leave nothing waiting, `searchFinished` returns with the path,
the optimum and the worst of the scenarios created since the last `clear`. -/
theorem searchFinished_sinceClear {pools : ScenarioPools} {ops : List (SearchOp Srp V)}
    {s : SearchSession Srp V}
    (hidle : (start dblMax dblMin pools).ClearsIdle withRtsSupport ptfMinObjective dblMax dblMin ops)
    (hrun : run withRtsSupport ptfMinObjective dblMax dblMin (start dblMax dblMin pools) ops = .ok s)
    (srp : Srp) :
    ∃ s', run withRtsSupport ptfMinObjective dblMax dblMin (start dblMax dblMin pools)
      (ops ++ [.searchFinished srp]) = .ok s' ∧ s'.SinceClear := by
  have htracked := (tracked_start pools).run hidle hrun
  obtain ⟨search, hcall, hdone, hafter⟩ := htracked.searchFinished srp
  refine ⟨{ s with search }, ?_, hafter.sinceClear hdone⟩
  rw [run] at hrun
  simp [run, hrun, SearchSession.step, hcall]

theorem clearsIdle_cons {s t : SearchSession Srp V} {op : SearchOp Srp V}
    {ops : List (SearchOp Srp V)}
    (hidle : op matches .clear → s.search.scenarioIds = [])
    (hstep : SearchSession.step withRtsSupport ptfMinObjective dblMax dblMin s op = .ok t)
    (hrest : t.ClearsIdle withRtsSupport ptfMinObjective dblMax dblMin ops) :
    s.ClearsIdle withRtsSupport ptfMinObjective dblMax dblMin (op :: ops) :=
  ⟨hidle, fun _ h => Outcome.ok.inj (hstep.symm.trans h) ▸ hrest⟩

end Run
end Order

/-- Two searches of one object, the first one finished before `clear`. -/
theorem searchFinished_sinceClear_two :
    ∃ s', run true (fun id _ => (id : Int)) 0 0 (start 0 0 .empty)
      ([.addSearchSpace ⟨[], [], [⟨0, 0, 0, 1, some ⟨2, [7]⟩⟩]⟩, .createScenarios,
        .searchFinished (), .clear, .addSearchSpace ⟨[], [], [⟨0, 0, 0, 1, some ⟨2, [5]⟩⟩]⟩,
        .createScenarios] ++ [.searchFinished ()]) = .ok s' ∧ s'.SinceClear := by
  refine searchFinished_sinceClear ?_ rfl ()
  iterate 3 refine clearsIdle_cons (by simp) rfl ?_
  refine clearsIdle_cons (fun _ => rfl) rfl ?_
  iterate 2 refine clearsIdle_cons (by simp) rfl ?_
  exact trivial

/-- A scenario created and cleared before its evaluation comes back in the next search,
as its path entry and as its optimum. -/
theorem clear_keeps_scenarioIds :
    ∃ s', run true (fun id _ => (id : Int)) 0 0 (start 0 0 .empty)
      [.addSearchSpace ⟨[], [], [⟨0, 0, 0, 1, some ⟨2, [7]⟩⟩]⟩, .createScenarios, .clear,
        .addSearchSpace ⟨[], [], [⟨0, 0, 0, 1, some ⟨2, [5]⟩⟩]⟩, .createScenarios,
        .searchFinished ()] = .ok s' ∧ s'.created = [1] ∧ s'.search.path.keys = [0, 1] ∧
      s'.search.getOptimum = .ok 0 ∧ ¬ s'.SinceClear := by
  refine ⟨_, rfl, rfl, rfl, rfl, fun h => ?_⟩
  have hmem : (0 : Nat) ∈ [1] := (h.path 0).mp (by decide)
  exact absurd hmem (by decide)

end SearchSession
end ReadexPtf.Autotune
