import ReadexPtf.Autotune.ExhaustiveRuns
import ReadexPtf.Lib.Traversal
import ReadexPtf.Lib.Dbl

/-! The individual search: one exhaustive search for each tuning parameter, with the
parameters before it held at the values found for them. -/
namespace ReadexPtf.Autotune
open ReadexPtf

/-- The members of the search object; `-1` for a missing scenario is `none`. -/
structure IndividualSearch (Srp V : Type) where
  searchAlgorithm : ExhaustiveSearch Srp V
  searchStepCount : Int
  tuningParameters : List TuningParameter
  regions : List String
  rtsVector : List String
  searchSpaces : List SearchSpace
  objectiveFunctions : List (Nat → Srp → V)
  selection : OrdMap Nat Int
  individualSearchPath : OrdMap Nat V
  bestScenario : Option Nat
  bestTime : V
  tpEliminated : Int
  individual_keep : Int
  worstScenario : Option Nat
  worstTime : V

/-- The values the range of the parameter counts, in the arithmetic of `int`. -/
def sizeRange (tp : TuningParameter) : Outcome Int :=
  if tp.rangeStep = 0 then .undefined
  else
    let size := (tp.rangeTo - tp.rangeFrom).tdiv tp.rangeStep + 1
    if FitsInt (tp.rangeTo - tp.rangeFrom) ∧ FitsInt size then .ok size else .undefined

/-- `setRestriction` on a parameter that several entries may point to. -/
def setRestriction (tps : List TuningParameter) (addr : Nat) (r : Restriction) :
    List TuningParameter :=
  tps.map fun tp => if tp.addr = addr then { tp with restriction := some r } else tp

namespace IndividualSearch
variable {Srp V : Type}

/-- `searchStepCount - 1 - tpEliminated`, the place of the parameter being explored. -/
def current (s : IndividualSearch Srp V) : Int := s.searchStepCount - 1 - s.tpEliminated

/-- The state the constructor and `initialize` leave, with the uninitialised times `unset`. -/
def initialized (searchAlgorithm : ExhaustiveSearch Srp V) (unset : V) : IndividualSearch Srp V where
  searchAlgorithm := searchAlgorithm
  searchStepCount := 0
  tuningParameters := []
  regions := []
  rtsVector := []
  searchSpaces := []
  objectiveFunctions := []
  selection := .empty
  individualSearchPath := .empty
  bestScenario := none
  bestTime := unset
  tpEliminated := 0
  individual_keep := 1
  worstScenario := none
  worstTime := unset

def addObjectiveFunction (s : IndividualSearch Srp V) (obj : Nat → Srp → V) :
    IndividualSearch Srp V :=
  { s with objectiveFunctions := s.objectiveFunctions ++ [obj] }

def addSearchSpace (s : IndividualSearch Srp V) (searchSpace : SearchSpace) :
    Outcome (IndividualSearch Srp V) :=
  if s.searchSpaces.isEmpty then
    .ok { s with
      searchSpaces := [searchSpace], tuningParameters := searchSpace.variantSpace
      regions := searchSpace.regions, rtsVector := searchSpace.rtsVector }
  else .throws "0"

/-- The space handed to the exhaustive search. Without an entity to tune a default one,
whose name is empty, stands in. -/
def stepSpace (withRtsSupport : Bool) (s : IndividualSearch Srp V) : SearchSpace where
  regions := if withRtsSupport then [] else if s.regions.isEmpty then [""] else s.regions
  rtsVector := if withRtsSupport then if s.rtsVector.isEmpty then [""] else s.rtsVector else []
  variantSpace := s.tuningParameters.take (s.searchStepCount - s.tpEliminated).toNat

/-- The value of the parameter being explored in every scenario of the created pool. -/
def select (s : IndividualSearch Srp V) (pools : ScenarioPools) : Outcome (OrdMap Nat Int) :=
  pools.csp.entries.foldlM (fun selection e =>
    match e.2.ts with
    | [] => .undefined
    | spec :: _ => do
      let tp ← Outcome.elementAt s.tuningParameters s.current
      .ok (selection.set e.2.id ((spec.variant.get? tp.addr).getD 0))) .empty

def createScenarios (withRtsSupport : Bool) (ptfMinObjective : Nat → Srp → V) (dblMax dblMin : V)
    (s : IndividualSearch Srp V) (pools : ScenarioPools) :
    Outcome (IndividualSearch Srp V × ScenarioPools) := do
  let objectiveFunctions :=
    if s.objectiveFunctions.isEmpty then [ptfMinObjective] else s.objectiveFunctions
  let s := { s with objectiveFunctions, searchStepCount := s.searchStepCount + 1 }
  let cleared := objectiveFunctions.foldl ExhaustiveSearch.addObjectiveFunction
    (s.searchAlgorithm.clear dblMax dblMin)
  let (searchAlgorithm, pools) ←
    (cleared.addSearchSpace (s.stepSpace withRtsSupport)).createScenarios withRtsSupport
      ptfMinObjective pools
  let selection ← s.select pools
  .ok ({ s with searchAlgorithm, selection }, pools)

/-- The distinct values of the best scenarios, `individual_keep` of them at most. -/
def keptValues (s : IndividualSearch Srp V) (size : Int) (results : List (Nat × V)) :
    Outcome (List Int) :=
  (List.range (min size s.individual_keep).toNat).foldlM (fun elements i => do
    let result ← Outcome.elementAt results i
    let value := (s.selection.get? result.1).getD 0
    .ok (if value ∈ elements then elements else elements ++ [value])) []

section Finish
variable [LT V] [DecidableLT V] (sort : Traversal (Nat × V))

/-- The verdict on the parameter being explored: restricted to the best values found if
one of them improves on the steps before, else taken out of the search. -/
def settle (s : IndividualSearch Srp V) (results : List (Nat × V)) (first : Nat × V) :
    Outcome (IndividualSearch Srp V) := do
  let tp ← Outcome.elementAt s.tuningParameters s.current
  if s.bestScenario = none ∨ first.2 < s.bestTime then do
    let size ← sizeRange tp
    let elements ← s.keptValues size results
    .ok { s with
      bestScenario := some first.1, bestTime := first.2
      tuningParameters := setRestriction s.tuningParameters tp.addr ⟨2, elements⟩ }
  else
    .ok { s with
      tuningParameters := s.tuningParameters.eraseIdx s.current.toNat
      tpEliminated := s.tpEliminated + 1 }

def searchFinished (s : IndividualSearch Srp V) (srp : Srp) :
    Outcome (Bool × IndividualSearch Srp V) := do
  let searchAlgorithm ← s.searchAlgorithm.searchFinished srp
  let path := searchAlgorithm.path
  let results := sort.sort (fun a b => a.2 < b.2) path.entries
  match results with
  | [] => .undefined
  | first :: _ => do
    let last ← Outcome.elementAt results (results.length - 1)
    let (worstScenario, worstTime) :=
      improve (fun a b => b < a) s.worstScenario s.worstTime last.1 last.2
    let s ← settle { s with
      searchAlgorithm, individualSearchPath := s.individualSearchPath.insertAll path
      worstScenario, worstTime } results first
    .ok (s.searchStepCount - s.tpEliminated = s.tuningParameters.length, s)

end Finish

/-- What the framework does during one step: the scenarios it makes, the results it leaves. -/
structure Round (Srp : Type) where
  made : Nat
  srp : Srp

section Run
variable [LT V] [DecidableLT V] (sort : Traversal (Nat × V))
variable (withRtsSupport : Bool) (ptfMinObjective : Nat → Srp → V) (dblMax dblMin : V)

/-- One search step. The created pool is handed over to the experiments before the next. -/
def searchStep (s : IndividualSearch Srp V × ScenarioPools) (r : Round Srp) :
    Outcome (Bool × IndividualSearch Srp V × ScenarioPools) := do
  let (search, pools) ← s.1.createScenarios withRtsSupport ptfMinObjective dblMax dblMin
    (s.2.elsewhere r.made fun _ => false)
  let (finished, search) ← search.searchFinished sort r.srp
  .ok (finished, search, pools)

/-- Several steps in a row, with what `searchFinished` answered after each. -/
def searchSteps (s : IndividualSearch Srp V × ScenarioPools) :
    List (Round Srp) → Outcome (List Bool × IndividualSearch Srp V × ScenarioPools)
  | [] => .ok ([], s)
  | r :: rs => do
    let (finished, s) ← searchStep sort withRtsSupport ptfMinObjective dblMax dblMin s r
    let (answers, s) ← searchSteps s rs
    .ok (finished :: answers, s)

/-- A search object from its creation on, with one search space. `unset` stands for the
times that `initialize` leaves uninitialised. -/
def search (unset : V) (objs : List (Nat → Srp → V)) (space : SearchSpace) (pools : ScenarioPools)
    (rs : List (Round Srp)) : Outcome (List Bool × IndividualSearch Srp V × ScenarioPools) := do
  let s ← (objs.foldl addObjectiveFunction
    (initialized (.init dblMax dblMin) unset)).addSearchSpace space
  searchSteps sort withRtsSupport ptfMinObjective dblMax dblMin (s, pools) rs

end Run

def getOptimum (s : IndividualSearch Srp V) : Option Nat := s.bestScenario
end IndividualSearch

/-- A parameter whose value list is not empty and whose range can be counted in `int`. -/
structure TuningParameter.Tunable (tp : TuningParameter) : Prop where
  step : 0 < tp.rangeStep
  range : tp.rangeFrom ≤ tp.rangeTo
  size : FitsInt (tp.rangeTo - tp.rangeFrom) ∧
    FitsInt ((tp.rangeTo - tp.rangeFrom).tdiv tp.rangeStep + 1)
  walkable : tp.Walkable
  elements : ∀ es, tp.elementWise = some es → es ≠ []

namespace TuningParameter

theorem Tunable.values_ne_nil {tp : TuningParameter} (h : tp.Tunable) : tp.values ≠ [] := by
  cases helem : tp.elementWise with
  | none =>
    simp only [values, helem, gridValues_cons h.step h.range]
    exact List.cons_ne_nil _ _
  | some es =>
    simp only [values, helem]
    exact h.elements es helem

theorem Tunable.sizeRange_pos {tp : TuningParameter} (h : tp.Tunable) :
    ∃ size, sizeRange tp = .ok size ∧ 1 ≤ size := by
  have hnonneg : 0 ≤ (tp.rangeTo - tp.rangeFrom).tdiv tp.rangeStep :=
    Int.tdiv_nonneg (by have := h.range; omega) h.step.le
  refine ⟨(tp.rangeTo - tp.rangeFrom).tdiv tp.rangeStep + 1, ?_, by omega⟩
  rw [sizeRange, if_neg h.step.ne', if_pos h.size]

theorem Tunable.restrict {tp : TuningParameter} (h : tp.Tunable) (v : Int) :
    ({ tp with restriction := some ⟨2, [v]⟩ } : TuningParameter).Tunable where
  step := h.step
  range := h.range
  size := h.size
  walkable := by simp [Walkable, elementWise]
  elements := by simp [elementWise]

end TuningParameter

theorem map_addr_setRestriction (tps : List TuningParameter) (addr : Nat) (r : Restriction) :
    (setRestriction tps addr r).map TuningParameter.addr = tps.map TuningParameter.addr := by
  rw [setRestriction, List.map_map]
  refine List.map_congr_left fun tp _ => ?_
  simp only [Function.comp]
  split_ifs <;> rfl

theorem tunable_setRestriction {tps : List TuningParameter} (h : ∀ tp ∈ tps, tp.Tunable)
    (addr : Nat) (v : Int) : ∀ tp ∈ setRestriction tps addr ⟨2, [v]⟩, tp.Tunable := by
  intro tp htp
  obtain ⟨t, ht, heq⟩ := List.mem_map.mp htp
  rw [← heq]
  split_ifs
  · exact (h t ht).restrict v
  · exact h t ht

/-- After `k` steps over the parameters `ps`: those in front are the ones kept, each fixed
to a single value; the ones not kept are gone; the ones behind are still to come. -/
def Explored (ps : List TuningParameter) (k : Nat) (tps : List TuningParameter)
    (tpEliminated : Int) : Prop :=
  ∃ kept, List.Sublist kept ((ps.take k).map TuningParameter.addr) ∧
    tps.map TuningParameter.addr = kept ++ (ps.drop k).map TuningParameter.addr ∧
    (kept.length : Int) = k - tpEliminated ∧
    ∀ tp ∈ tps.take kept.length, ∃ v, tp.restriction = some ⟨2, [v]⟩

theorem Explored.length {ps tps : List TuningParameter} {k : Nat} {eliminated : Int}
    (h : Explored ps k tps eliminated) (hk : k ≤ ps.length) :
    (tps.length : Int) = ps.length - eliminated := by
  obtain ⟨kept, -, haddr, hcount, -⟩ := h
  have hlen := congrArg List.length haddr
  simp only [List.length_map, List.length_append, List.length_drop] at hlen
  omega

theorem take_succ_map_addr {ps : List TuningParameter} {k : Nat} (hk : k < ps.length) :
    (ps.take (k + 1)).map TuningParameter.addr =
      (ps.take k).map TuningParameter.addr ++ [ps[k].addr] := by
  rw [List.take_succ_eq_append_getElem hk, List.map_append, List.map_singleton]

/-- The parameter just explored is fixed. -/
theorem Explored.keep {ps tps : List TuningParameter} {k n : Nat} {eliminated : Int}
    (h : Explored ps k tps eliminated) (hk : k < ps.length) (hn : (n : Int) = k - eliminated)
    (hlt : n < tps.length) (v : Int) :
    Explored ps (k + 1) (setRestriction tps tps[n].addr ⟨2, [v]⟩) eliminated := by
  obtain ⟨kept, hsub, haddr, hcount, hfixed⟩ := h
  refine ⟨kept ++ [ps[k].addr], ?_, ?_, ?_, fun tp htp => ?_⟩
  · exact take_succ_map_addr hk ▸ hsub.append (List.Sublist.refl _)
  · rw [map_addr_setRestriction, haddr, List.drop_eq_getElem_cons hk, List.map_cons,
      List.append_assoc]
    rfl
  · rw [List.length_append, List.length_singleton]
    omega
  · rw [List.length_append, List.length_singleton, setRestriction, ← List.map_take] at htp
    obtain ⟨t, ht, heq⟩ := List.mem_map.mp htp
    by_cases haddr' : t.addr = tps[n].addr
    · rw [if_pos haddr'] at heq
      exact ⟨v, heq ▸ rfl⟩
    · rw [if_neg haddr'] at heq
      have hn' : kept.length = n := by omega
      rw [hn', List.take_succ_eq_append_getElem hlt, List.mem_append, List.mem_singleton] at ht
      cases ht with
      | inl hold => exact heq ▸ hfixed t (hn' ▸ hold)
      | inr hself => exact absurd (hself ▸ rfl) haddr'

/-- The parameter just explored is discarded. -/
theorem Explored.discard {ps tps : List TuningParameter} {k n : Nat} {eliminated : Int}
    (h : Explored ps k tps eliminated) (hk : k < ps.length) (hn : (n : Int) = k - eliminated) :
    Explored ps (k + 1) (tps.eraseIdx n) (eliminated + 1) := by
  obtain ⟨kept, hsub, haddr, hcount, hfixed⟩ := h
  have hn' : kept.length = n := by omega
  refine ⟨kept, ?_, ?_, ?_, fun tp htp => ?_⟩
  · exact take_succ_map_addr hk ▸ hsub.trans (List.sublist_append_left _ _)
  · rw [← List.eraseIdx_map, haddr, List.eraseIdx_append_of_length_le (by omega), hn',
      Nat.sub_self, List.drop_eq_getElem_cons hk]
    rfl
  · omega
  · rw [hn', List.take_eraseIdx_eq_take_of_le _ _ _ (le_refl n)] at htp
    exact hfixed tp (hn' ▸ htp)

namespace IndividualSearch
open SearchSession
variable {Srp V : Type}

/-- Adding a step's path, whose best entry is `first`, to the path of the steps before. -/
theorem extreme_insertAll [LinearOrder V] {path new : OrdMap Nat V}
    {best : Option Nat} {value : V} {first : Nat × V} (h : Extreme (· < ·) path best value)
    (hapart : ∀ id ∈ new.keys, id ∉ path.keys) (hfirst : new.get? first.1 = some first.2)
    (hmin : ∀ id v, new.get? id = some v → first.2 ≤ v) :
    Extreme (· < ·) (path.insertAll new) (improve (· < ·) best value first.1 first.2).1
      (improve (· < ·) best value first.1 first.2).2 := by
  have hnew : path.get? first.1 = none := by
    by_contra hne
    obtain ⟨v, hv⟩ := Option.ne_none_iff_exists'.mp hne
    exact hapart first.1 (OrdMap.mem_keys.mpr ⟨_, hfirst⟩) (OrdMap.mem_keys.mpr ⟨v, hv⟩)
  have hunion : ∀ id v, (path.insertAll new).get? id = some v →
      path.get? id = some v ∨ new.get? id = some v := by
    intro id v hv
    rw [OrdMap.get?_insertAll, Option.or_eq_some_iff] at hv
    exact hv.imp_right And.right
  cases best with
  | none =>
    have hempty : path = .empty := h
    simp only [improve, true_or, if_true, Extreme, OrdMap.get?_insertAll, hnew, hfirst,
      Option.none_or, true_and]
    intro id v hv
    rw [hempty, OrdMap.get?_empty, Option.none_or] at hv
    exact (hmin id v hv).not_gt
  | some o =>
    obtain ⟨hold, hbest⟩ := h
    by_cases hbeats : first.2 < value
    · simp only [improve, hbeats, or_true, if_true, Extreme, OrdMap.get?_insertAll, hnew, hfirst,
        Option.none_or, true_and]
      intro id v hv hlt
      rw [← OrdMap.get?_insertAll] at hv
      cases hunion id v hv with
      | inl hpath => exact hbest id v hpath (hlt.trans hbeats)
      | inr hstep => exact (hmin id v hstep).not_gt hlt
    · simp only [improve, hbeats, reduceCtorEq, or_self, if_false, Extreme,
        OrdMap.get?_insertAll, hold, Option.some_or, true_and]
      intro id v hv hlt
      rw [← OrdMap.get?_insertAll] at hv
      cases hunion id v hv with
      | inl hpath => exact hbest id v hpath hlt
      | inr hstep => exact hbeats ((hmin id v hstep).trans_lt hlt)

/-- What holds between two search steps, `k` of them done. -/
structure Between [LT V] (ps : List TuningParameter) (k : Nat)
    (s : IndividualSearch Srp V × ScenarioPools) : Prop where
  steps : s.1.searchStepCount = k
  explored : Explored ps k s.1.tuningParameters s.1.tpEliminated
  tunable : ∀ tp ∈ s.1.tuningParameters, tp.Tunable
  keepOne : s.1.individual_keep = 1
  session : ∃ created, Tracked ⟨s.1.searchAlgorithm, s.2, created⟩
  idle : s.1.searchAlgorithm.scenarioIds = []
  below : ∀ id ∈ s.1.individualSearchPath.keys, id < s.2.nextId
  optimum : Extreme (· < ·) s.1.individualSearchPath s.1.bestScenario s.1.bestTime

theorem foldl_addObjectiveFunction (objs : List (Nat → Srp → V)) (e : ExhaustiveSearch Srp V) :
    objs.foldl ExhaustiveSearch.addObjectiveFunction e =
      { e with objectiveFunctions := e.objectiveFunctions ++ objs } := by
  induction objs generalizing e with
  | nil => simp
  | cons obj objs ih => simp [ih, ExhaustiveSearch.addObjectiveFunction]

theorem tracked_addObjectiveFunctions [Preorder V] {e : ExhaustiveSearch Srp V} {pools : ScenarioPools}
    {created : List Nat} (h : Tracked ⟨e, pools, created⟩) (objs : List (Nat → Srp → V)) :
    Tracked ⟨objs.foldl ExhaustiveSearch.addObjectiveFunction e, pools, created⟩ := by
  induction objs generalizing e with
  | nil => exact h
  | cons obj objs ih => exact ih (h.addObjectiveFunction obj)

theorem select_returns {s : IndividualSearch Srp V} {pools : ScenarioPools} {tp : TuningParameter}
    (hcurrent : Outcome.elementAt s.tuningParameters s.current = .ok tp)
    (hts : ∀ scenario ∈ pools.createdSince 0, scenario.ts ≠ []) :
    ∃ selection, s.select pools = .ok selection := by
  have hall : ∀ e ∈ pools.csp.entries, e.2.ts ≠ [] := fun e he =>
    hts e.2 (List.mem_map_of_mem (List.mem_filter.mpr ⟨he, by simp⟩))
  simp only [select, hcurrent, Outcome.ok_bind]
  generalize (OrdMap.empty : OrdMap Nat Int) = selection
  generalize pools.csp.entries = entries at hall
  induction entries generalizing selection with
  | nil => exact ⟨selection, rfl⟩
  | cons e es ih =>
    obtain ⟨spec, specs, hspec⟩ := List.exists_cons_of_ne_nil (hall e List.mem_cons_self)
    obtain ⟨selection', hrest⟩ := ih _ fun e' he' => hall e' (List.mem_cons_of_mem e he')
    refine ⟨selection', ?_⟩
    rw [List.foldlM_cons, hspec]
    exact hrest

/-- Creating the scenarios of a step: at least one new scenario is waiting afterwards. -/
theorem createScenarios_spec [Preorder V] {s : IndividualSearch Srp V} {pools : ScenarioPools}
    (rts : Bool) (ptfMinObjective : Nat → Srp → V) (dblMax dblMin : V) {tp : TuningParameter}
    {old : List Nat} (htracked : Tracked ⟨s.searchAlgorithm, pools, old⟩)
    (hidle : s.searchAlgorithm.scenarioIds = []) (hempty : pools.createdSince 0 = [])
    (htunable : ∀ tp ∈ s.tuningParameters, tp.Tunable)
    (hcurrent : Outcome.elementAt s.tuningParameters (s.searchStepCount - s.tpEliminated) = .ok tp) :
    ∃ objectiveFunctions searchAlgorithm selection pools' created,
      s.createScenarios rts ptfMinObjective dblMax dblMin pools =
        .ok ({ s with
          objectiveFunctions, searchAlgorithm, selection
          searchStepCount := s.searchStepCount + 1 }, pools') ∧
      Tracked ⟨searchAlgorithm, pools', created⟩ ∧ created ≠ [] ∧
      (∀ id ∈ created, pools.nextId ≤ id) ∧ pools.nextId ≤ pools'.nextId := by
  let objectiveFunctions :=
    if s.objectiveFunctions.isEmpty then [ptfMinObjective] else s.objectiveFunctions
  let stepped := { s with objectiveFunctions, searchStepCount := s.searchStepCount + 1 }
  let space := stepped.stepSpace rts
  let cleared := objectiveFunctions.foldl ExhaustiveSearch.addObjectiveFunction
    (s.searchAlgorithm.clear dblMax dblMin)
  have hspaces : (cleared.addSearchSpace space).searchSpaces = [space] := by
    simp [cleared, foldl_addObjectiveFunction, ExhaustiveSearch.addSearchSpace,
      ExhaustiveSearch.clear]
  have hexplored : ∀ t ∈ space.variantSpace, t.Tunable := fun t ht =>
    htunable t (List.mem_of_mem_take ht)
  have hsearchable : ∀ sp ∈ (cleared.addSearchSpace space).searchSpaces, sp.Searchable rts := by
    intro sp hsp
    rw [hspaces, List.mem_singleton] at hsp
    refine hsp ▸ ⟨?_, fun t ht => (hexplored t ht).walkable⟩
    cases rts with
    | true => exact .inl rfl
    | false =>
      refine .inr ?_
      cases hregions : s.regions <;> simp [space, stepped, stepSpace, hregions]
  obtain ⟨searchAlgorithm, pools', hcall, hcreated⟩ :=
    ExhaustiveSearch.createScenarios_returns (by simp [hspaces]) hsearchable ptfMinObjective pools
  have htracked' := (tracked_addObjectiveFunctions (htracked.clear hidle dblMax dblMin)
    objectiveFunctions).addSearchSpace space |>.createScenarios hcall
  obtain ⟨_, ids, _, _, hids, hrange, hcounter⟩ := ExhaustiveSearch.createScenarios_spec hcall
  have hproduct : lexProduct (valueLists [space]) ≠ [] := by
    refine lexProduct_ne_nil fun xs hxs => ?_
    obtain ⟨t, ht, heq⟩ := List.mem_map.mp hxs
    exact heq ▸ (hexplored t (by simpa using ht)).values_ne_nil
  have hts : ∀ scenario ∈ pools'.createdSince 0, scenario.ts ≠ [] := by
    intro scenario hscenario
    have hmem : scenario.ts ∈ (pools'.createdSince 0).map Scenario.ts :=
      List.mem_map_of_mem hscenario
    rw [hcreated 0 (Nat.zero_le _), hempty, hspaces, List.map_nil, List.nil_append] at hmem
    obtain ⟨vals, -, heq⟩ := List.mem_map.mp hmem
    exact heq ▸ List.cons_ne_nil _ _
  have hcurrent' : Outcome.elementAt stepped.tuningParameters stepped.current = .ok tp := by
    rw [← hcurrent]
    congr 1
    simp only [current, stepped]
    omega
  obtain ⟨selection, hselect⟩ := select_returns hcurrent' hts
  refine ⟨objectiveFunctions, searchAlgorithm, selection, pools', _, ?_, htracked', ?_, ?_,
    hcounter⟩
  · have hunfold : s.createScenarios rts ptfMinObjective dblMax dblMin pools =
        (stepped.select pools' >>= fun selection =>
          .ok ({ stepped with searchAlgorithm, selection }, pools')) := by
      rw [createScenarios, hcall]
      rfl
    rw [hunfold, hselect]
    rfl
  · have hlen := congrArg List.length (hcreated pools.nextId (le_refl _))
    rw [ScenarioPools.createdSince_nextId, hspaces] at hlen
    intro hnil
    have hzero := congrArg List.length hnil
    simp only [List.length_map, List.map_nil, List.length_nil, List.nil_append] at hlen hzero
    exact hproduct (List.length_eq_zero_iff.mp (hlen.symm.trans hzero))
  · intro id hid
    rw [List.nil_append, ← hids, hrange] at hid
    exact (List.mem_range'_1.mp hid).1

theorem keptValues_one {s : IndividualSearch Srp V} {first : Nat × V} {rest : List (Nat × V)}
    {size : Int} (hkeep : s.individual_keep = 1) (hsize : 1 ≤ size) :
    s.keptValues size (first :: rest) = .ok [(s.selection.get? first.1).getD 0] := by
  have hmin : (min size s.individual_keep).toNat = 1 := by omega
  rw [keptValues, hmin]
  rfl

/-- The two verdicts of a step, by whether its best result improves on the steps before. -/
theorem settle_spec [LT V] [DecidableLT V] (s : IndividualSearch Srp V) (first : Nat × V)
    (rest : List (Nat × V)) {n : Nat} (hkeep : s.individual_keep = 1) (hcurrent : s.current = n)
    (hn : n < s.tuningParameters.length) (htunable : ∀ tp ∈ s.tuningParameters, tp.Tunable) :
    ∃ tuningParameters tpEliminated, s.settle (first :: rest) first = .ok { s with
        bestScenario := (improve (· < ·) s.bestScenario s.bestTime first.1 first.2).1
        bestTime := (improve (· < ·) s.bestScenario s.bestTime first.1 first.2).2
        tuningParameters, tpEliminated } ∧
      ((∃ v, tuningParameters =
          setRestriction s.tuningParameters s.tuningParameters[n].addr ⟨2, [v]⟩ ∧
          tpEliminated = s.tpEliminated) ∨
        (tuningParameters = s.tuningParameters.eraseIdx n ∧
          tpEliminated = s.tpEliminated + 1)) := by
  have helement : Outcome.elementAt s.tuningParameters s.current = .ok s.tuningParameters[n] :=
    hcurrent ▸ Outcome.elementAt_natCast hn
  by_cases hbetter : s.bestScenario = none ∨ first.2 < s.bestTime
  · obtain ⟨size, hsize, hpos⟩ := (htunable _ (List.getElem_mem hn)).sizeRange_pos
    refine ⟨_, _, ?_, .inl ⟨(s.selection.get? first.1).getD 0, rfl, rfl⟩⟩
    rw [settle, helement, Outcome.ok_bind, if_pos hbetter, hsize, Outcome.ok_bind,
      keptValues_one hkeep hpos, Outcome.ok_bind, improve, if_pos hbetter]
  · refine ⟨_, _, ?_, .inr ⟨rfl, rfl⟩⟩
    rw [settle, helement, Outcome.ok_bind, if_neg hbetter, improve, if_neg hbetter, hcurrent]
    rfl

section Order
variable [LinearOrder V] (sort : Traversal (Nat × V))

theorem sorted_results {path : OrdMap Nat V} (hpath : path.entries ≠ []) :
    ∃ first rest, sort.sort (fun a b => a.2 < b.2) path.entries = first :: rest ∧
      path.get? first.1 = some first.2 ∧ ∀ id v, path.get? id = some v → first.2 ≤ v := by
  have hperm := sort.sort_perm (fun a b => a.2 < b.2) path.entries
  have hsorted := sort.sort_pairwise Prod.snd path.entries
  cases hresults : sort.sort (fun a b => a.2 < b.2) path.entries with
  | nil => exact absurd (List.nil_perm.mp (hresults ▸ hperm)) hpath
  | cons first rest =>
    rw [hresults] at hperm hsorted
    refine ⟨first, rest, rfl, ?_, fun id v hv => ?_⟩
    · exact OrdMap.get?_eq_some.mpr (hperm.mem_iff.mp List.mem_cons_self)
    · cases List.mem_cons.mp (hperm.mem_iff.mpr (OrdMap.get?_eq_some.mp hv)) with
      | inl hself => exact le_of_eq (congrArg Prod.snd hself).symm
      | inr hrest => exact (List.pairwise_cons.mp hsorted).1 _ hrest

/-- The verdict of a step on the paths and on the parameters. -/
theorem searchFinished_spec (s : IndividualSearch Srp V) {srp : Srp}
    {searchAlgorithm : ExhaustiveSearch Srp V} {n : Nat}
    (hcall : s.searchAlgorithm.searchFinished srp = .ok searchAlgorithm)
    (hpath : searchAlgorithm.path.entries ≠ []) (hkeep : s.individual_keep = 1)
    (hcurrent : s.current = n) (hn : n < s.tuningParameters.length)
    (htunable : ∀ tp ∈ s.tuningParameters, tp.Tunable)
    (hoptimum : Extreme (· < ·) s.individualSearchPath s.bestScenario s.bestTime)
    (hapart : ∀ id ∈ searchAlgorithm.path.keys, id ∉ s.individualSearchPath.keys) :
    ∃ s', s.searchFinished sort srp =
        .ok (decide (s'.searchStepCount - s'.tpEliminated = (s'.tuningParameters.length : Int)),
          s') ∧
      s'.searchAlgorithm = searchAlgorithm ∧ s'.searchStepCount = s.searchStepCount ∧
      s'.individual_keep = 1 ∧
      s'.individualSearchPath = s.individualSearchPath.insertAll searchAlgorithm.path ∧
      Extreme (· < ·) s'.individualSearchPath s'.bestScenario s'.bestTime ∧
      s'.bestScenario ≠ none ∧
      ((∃ v, s'.tuningParameters =
          setRestriction s.tuningParameters s.tuningParameters[n].addr ⟨2, [v]⟩ ∧
          s'.tpEliminated = s.tpEliminated) ∨
        (s'.tuningParameters = s.tuningParameters.eraseIdx n ∧
          s'.tpEliminated = s.tpEliminated + 1)) := by
  obtain ⟨first, rest, hresults, hfirst, hmin⟩ := sorted_results sort hpath
  have hlast : Outcome.elementAt (first :: rest) (((first :: rest).length : Int) - 1) =
      .ok (first :: rest)[rest.length] := by
    rw [List.length_cons, Nat.cast_succ, add_sub_cancel_right]
    exact Outcome.elementAt_natCast (Nat.lt_succ_self _)
  let merged : IndividualSearch Srp V := { s with
    searchAlgorithm
    individualSearchPath := s.individualSearchPath.insertAll searchAlgorithm.path
    worstScenario := (improve (fun a b => b < a) s.worstScenario s.worstTime
      (first :: rest)[rest.length].1 (first :: rest)[rest.length].2).1
    worstTime := (improve (fun a b => b < a) s.worstScenario s.worstTime
      (first :: rest)[rest.length].1 (first :: rest)[rest.length].2).2 }
  have hunfold : s.searchFinished sort srp = (merged.settle (first :: rest) first >>= fun t =>
      .ok (decide (t.searchStepCount - t.tpEliminated = (t.tuningParameters.length : Int)), t)) := by
    rw [searchFinished, hcall, Outcome.ok_bind]
    simp only [hresults, hlast]
    rfl
  obtain ⟨tps, eliminated, hsettle, hverdict⟩ :=
    settle_spec merged first rest hkeep hcurrent hn htunable
  rw [hsettle, Outcome.ok_bind] at hunfold
  exact ⟨_, hunfold, rfl, rfl, hkeep, rfl, extreme_insertAll hoptimum hapart hfirst hmin,
    improve_ne_none _ _ _ _ _, hverdict⟩

/-- One search step, from the invariant between steps. -/
theorem Between.step {rts : Bool} {ptfMinObjective : Nat → Srp → V} {dblMax dblMin : V}
    {ps : List TuningParameter} {k : Nat} {s : IndividualSearch Srp V × ScenarioPools}
    (h : Between ps k s) (hk : k < ps.length) (r : Round Srp) :
    ∃ s', searchStep sort rts ptfMinObjective dblMax dblMin s r =
        .ok (decide (k + 1 = ps.length), s') ∧
      Between ps (k + 1) s' ∧ s'.1.bestScenario ≠ none := by
  obtain ⟨search, pools⟩ := s
  obtain ⟨old, hold⟩ := h.session
  obtain ⟨kept, -, -, hcount, -⟩ := h.explored
  have hsteps : search.searchStepCount = k := h.steps
  have hlen := h.explored.length hk.le
  have hn : kept.length < search.tuningParameters.length := by
    have : (kept.length : Int) = k - search.tpEliminated := hcount
    have : (search.tuningParameters.length : Int) = ps.length - search.tpEliminated := hlen
    omega
  have hplace : search.searchStepCount - search.tpEliminated = (kept.length : Int) := by
    rw [hsteps]
    exact hcount.symm
  obtain ⟨objs, algorithm, selection, pools', created, hcreate, htracked, hcreated, hfresh,
      hcounter⟩ := createScenarios_spec rts ptfMinObjective dblMax dblMin
    (hold.elsewhere r.made fun _ => false) h.idle
    (ScenarioPools.createdSince_elsewhere pools r.made 0) h.tunable
    (hplace ▸ Outcome.elementAt_natCast hn)
  obtain ⟨algorithm', hcall, hdone, hafter⟩ := htracked.searchFinished r.srp
  have hkeys : ∀ id, id ∈ algorithm'.path.keys ↔ id ∈ created := (hafter.sinceClear hdone).path
  have hpath : algorithm'.path.entries ≠ [] := by
    obtain ⟨id, hid⟩ := List.exists_mem_of_ne_nil created hcreated
    exact List.ne_nil_of_mem (List.mem_map.mp ((hkeys id).mpr hid)).choose_spec.1
  have hnext : pools.nextId ≤ (pools.elsewhere r.made fun _ => false).nextId :=
    Nat.le_add_right _ _
  -- the ids of the steps before are below those of this step
  have hapart : ∀ id ∈ algorithm'.path.keys, id ∉ search.individualSearchPath.keys := by
    intro id hid hmem
    have hlow : id < pools.nextId := h.below id hmem
    exact absurd (hnext.trans (hfresh id ((hkeys id).mp hid))) (not_le.mpr hlow)
  have hcurrent : search.searchStepCount + 1 - 1 - search.tpEliminated = (kept.length : Int) := by
    omega
  obtain ⟨search', hfinish, halgorithm, hsteps', hkeep', hpath', hoptimum', hbest', hverdict⟩ :=
    searchFinished_spec sort { search with
      objectiveFunctions := objs, searchAlgorithm := algorithm, selection
      searchStepCount := search.searchStepCount + 1 }
      hcall hpath h.keepOne hcurrent hn h.tunable h.optimum hapart
  have hexplored : Explored ps (k + 1) search'.tuningParameters search'.tpEliminated := by
    cases hverdict with
    | inl hkept =>
      obtain ⟨v, htps, helim⟩ := hkept
      exact htps ▸ helim ▸ h.explored.keep hk hcount hn v
    | inr hdiscarded =>
      exact hdiscarded.1 ▸ hdiscarded.2 ▸ h.explored.discard hk hcount
  have htunable : ∀ tp ∈ search'.tuningParameters, tp.Tunable := by
    cases hverdict with
    | inl hkept =>
      obtain ⟨v, htps, -⟩ := hkept
      exact htps ▸ tunable_setRestriction h.tunable _ v
    | inr hdiscarded =>
      exact fun tp htp => h.tunable tp (List.mem_of_mem_eraseIdx (hdiscarded.1 ▸ htp))
  have hlen' := hexplored.length hk
  have hanswer : decide (search'.searchStepCount - search'.tpEliminated =
      (search'.tuningParameters.length : Int)) = decide (k + 1 = ps.length) := by
    have hcount' : search'.searchStepCount = (k : Int) + 1 := by rw [hsteps', ← hsteps]
    exact decide_eq_decide.mpr (by omega)
  refine ⟨(search', pools'), ?_, ⟨?_, hexplored, htunable, hkeep', ?_, ?_, ?_, hoptimum'⟩, hbest'⟩
  · rw [searchStep, hcreate, Outcome.ok_bind]
    simp only [hfinish, Outcome.ok_bind, hanswer]
  · rw [hsteps', hsteps]
    rfl
  · exact ⟨created, halgorithm ▸ hafter⟩
  · exact halgorithm ▸ hdone
  · intro id hid
    obtain ⟨v, hv⟩ := OrdMap.mem_keys.mp (hpath' ▸ hid)
    rw [OrdMap.get?_insertAll, Option.or_eq_some_iff] at hv
    cases hv with
    | inl hbefore =>
      have hlow : id < pools.nextId := h.below id (OrdMap.mem_keys.mpr ⟨v, hbefore⟩)
      exact hlow.trans_le (hnext.trans hcounter)
    | inr hstep =>
      exact htracked.below id ((hkeys id).mp (OrdMap.mem_keys.mpr ⟨v, hstep.2⟩))

end Order

end IndividualSearch
end ReadexPtf.Autotune
