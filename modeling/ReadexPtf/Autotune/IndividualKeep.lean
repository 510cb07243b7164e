import ReadexPtf.Autotune.IndividualSearch
import Mathlib

/-! The individual search with any number of scenarios to keep: which values the restriction of
a processed parameter has, and when the selection stays within the evaluated scenarios. -/
namespace ReadexPtf.Autotune
open ReadexPtf

/-- The scenario has the value `v` for the parameter at `addr`. -/
def Scenario.HasValue (scenario : Scenario) (addr : Nat) (v : Int) : Prop :=
  ∃ spec rest, scenario.ts = spec :: rest ∧ spec.variant.get? addr = some v

/-- All scenarios of the pool have a value for the parameter at `addr`. -/
def ScenarioPools.Sets (pools : ScenarioPools) (addr : Nat) : Prop :=
  ∀ scenario ∈ pools.createdSince 0, ∃ v, scenario.HasValue addr v

theorem ScenarioPools.createdSince_zero (pools : ScenarioPools) :
    pools.createdSince 0 = pools.csp.entries.map Prod.snd := by
  simp [createdSince]

section Created
variable {rts : Bool} {addr : Nat}

theorem sets_generatescenario {spec : TuningSpecification} {c : Creation}
    (hspec : (spec.variant.get? addr).isSome) (h : c.pools.Sets addr) :
    (generatescenario rts [spec] c).pools.Sets addr := by
  intro scenario hscenario
  rw [generatescenario, ScenarioPools.createdSince_create _ _ (Nat.zero_le _), List.mem_append,
    List.mem_singleton] at hscenario
  cases hscenario with
  | inl hold => exact h scenario hold
  | inr hnew =>
    obtain ⟨v, hv⟩ := Option.isSome_iff_exists.mp hspec
    refine ⟨v, listSpecification rts spec.variant spec.entityList, [], ?_, hv⟩
    rw [hnew]
    rfl

theorem specification_variant {space : SearchSpace} {variant : Variant}
    {spec : TuningSpecification} (h : specification rts space variant = .ok spec) :
    spec.variant = variant := by
  rw [specification] at h
  split_ifs at h
  · exact Outcome.ok.inj h ▸ rfl
  · cases hregions : space.regions with
    | nil => simp [hregions] at h
    | cons region rest =>
      rw [hregions] at h
      exact Outcome.ok.inj h ▸ rfl

/-- The walk is in the only search space, has set the parameter if it was set before, and all
scenarios that it created have it. -/
structure Walk.Sets (addr : Nat) (known : Prop) (w : Walk) : Prop where
  single : w.ts = []
  set : known → (w.variantSS.get? addr).isSome
  created : w.creation.pools.Sets addr

theorem iterateTP_sets {space : SearchSpace} {tps : List TuningParameter} :
    ∀ {known : Prop} {w w' : Walk}, (addr ∈ tps.map TuningParameter.addr ∨ known) →
      w.Sets addr known → iterateTP rts (iterateSS rts []) space tps w = .ok w' →
      w'.Sets addr known := by
  induction tps with
  | nil =>
    intro known w w' hknown hw h
    have hset : (w.variantSS.get? addr).isSome := hw.set (by simpa using hknown)
    rw [iterateTP] at h
    obtain ⟨spec, hspec, h⟩ := Outcome.bind_eq_ok.mp h
    rw [hw.single, List.nil_append, iterateSS, Outcome.ok_bind] at h
    have hw' : { w with ts := [], creation := generatescenario rts [spec] w.creation } = w' :=
      Outcome.ok.inj h
    rw [← specification_variant hspec] at hset
    exact hw' ▸ ⟨rfl, hw.set, sets_generatescenario hset hw.created⟩
  | cons tp tps ih =>
    intro known w w' hknown hw h
    have hround : ∀ (x : Int) (u u' : Walk), u.Sets addr known →
        iterateTP rts (iterateSS rts []) space tps { u with
          variantSS := u.variantSS.set tp.addr x } = .ok u' → u'.Sets addr known := by
      intro x u u' hu hcall
      have hset : ∀ a, (u.variantSS.get? a).isSome ∨ a = tp.addr →
          ((u.variantSS.set tp.addr x).get? a).isSome := by
        intro a ha
        rw [OrdMap.get?_set]
        split_ifs with heq
        · rfl
        · exact ha.resolve_right fun h => heq (by simp [h])
      have hstart : ({ u with variantSS := u.variantSS.set tp.addr x } : Walk).Sets addr
          (known ∨ addr = tp.addr) :=
        ⟨hu.single, fun h => hset addr (h.imp_left hu.set), hu.created⟩
      have hnext : u'.Sets addr (known ∨ addr = tp.addr) := by
        apply ih _ hstart hcall
        simp only [List.map_cons, List.mem_cons] at hknown
        tauto
      exact ⟨hnext.single, fun h => hnext.set (.inl h), hnext.created⟩
    rw [iterateTP] at h
    cases helem : tp.elementWise with
    | none =>
      rw [helem] at h
      exact forRange_invariant (Walk.Sets addr known) hround _ _ _ hw h
    | some es =>
      rw [helem] at h
      exact Outcome.foldlM_invariant (Walk.Sets addr known) (fun u x u' => hround x u u') _ _ _ hw h

end Created

namespace ExhaustiveSearch
variable {Srp V : Type}

/-- What creating the scenarios of one search space into empty pools leaves. -/
structure CreatedAll (space : SearchSpace) (search' : ExhaustiveSearch Srp V)
    (pools' : ScenarioPools) : Prop where
  path : search'.path = .empty
  objective : search'.objectiveFunctions ≠ []
  queued : search'.scenarioIds = (pools'.createdSince 0).map Scenario.id
  sets : ∀ tp ∈ space.variantSpace, pools'.Sets tp.addr

theorem createdAll {rts : Bool} {ptfMinObjective : Nat → Srp → V}
    {search search' : ExhaustiveSearch Srp V} {pools pools' : ScenarioPools} {space : SearchSpace}
    (h : search.createScenarios rts ptfMinObjective pools = .ok (search', pools'))
    (hspace : search.searchSpaces = [space]) (hpath : search.path = .empty)
    (hidle : search.scenarioIds = []) (hempty : pools.createdSince 0 = []) :
    CreatedAll space search' pools' := by
  obtain ⟨objectives, ids, hobjective, hsearch, -, -, -⟩ := createScenarios_spec h
  rw [createScenarios] at h
  simp only [hspace, List.isEmpty_cons, Bool.false_eq_true, if_false] at h
  obtain ⟨⟨ts, c⟩, hiterate, h⟩ := Outcome.bind_eq_ok.mp h
  obtain ⟨hfields, hpools⟩ := Prod.mk.inj (Outcome.ok.inj h)
  have hgrown := iterateSS_grown _ _ _ _ hiterate
  have hpushed := hgrown.pushed 0 (Nat.zero_le _)
  rw [hempty, List.map_nil, List.nil_append] at hpushed
  refine ⟨hsearch ▸ hpath, hsearch ▸ hobjective, ?_, fun tp htp => ?_⟩
  · rw [← hfields, ← hpools, hpushed, hgrown.queued, hidle]
    rfl
  · rw [iterateSS] at hiterate
    obtain ⟨w, hwalk, hresult⟩ := Outcome.bind_eq_ok.mp hiterate
    have hc : w.creation = c := (Prod.mk.inj (Outcome.ok.inj hresult)).2
    have hstart : Walk.Sets tp.addr False ⟨.empty, [], ⟨search.scenarioIds, pools⟩⟩ :=
      ⟨rfl, False.elim, by simp [ScenarioPools.Sets, hempty]⟩
    have hw := iterateTP_sets (.inl (List.mem_map_of_mem htp)) hstart hwalk
    rw [← hpools, ← hc]
    exact hw.created

section Finish
variable [LT V] [DecidableLT V]

/-- Evaluating the scenarios that are waiting adds them, and nothing else, to the path. -/
theorem searchFinished_evaluates (srp : Srp) {search : ExhaustiveSearch Srp V}
    (hobjective : search.objectiveFunctions ≠ []) :
    ∃ search', search.searchFinished srp = .ok search' ∧ search'.scenarioIds = [] ∧
      ∀ id, id ∈ search'.path.keys ↔ id ∈ search.path.keys ∨ id ∈ search.scenarioIds := by
  obtain ⟨objective, rest, hobjectives⟩ := List.exists_cons_of_ne_nil hobjective
  rw [searchFinished]
  generalize hids : search.scenarioIds = ids
  induction ids generalizing search with
  | nil => exact ⟨search, rfl, hids, by simp⟩
  | cons id ids ih =>
    have htail : (search.evaluate id (objective id srp)).scenarioIds = ids := by
      simp [evaluate, hids]
    obtain ⟨search', hloop, hdone, hkeys⟩ :=
      @ih (search.evaluate id (objective id srp)) hobjective hobjectives htail
    refine ⟨search', ?_, hdone, fun id' => ?_⟩
    · rw [List.foldlM_cons, hobjectives, Outcome.ok_bind, hloop]
    · have hpath : (search.evaluate id (objective id srp)).path =
          search.path.set id (objective id srp) := rfl
      rw [hkeys, hpath, OrdMap.mem_keys_set, List.mem_cons]
      tauto

end Finish
end ExhaustiveSearch

namespace IndividualSearch
variable {Srp V : Type}

def setScenariosToKeep (s : IndividualSearch Srp V) (k : Int) : IndividualSearch Srp V :=
  { s with individual_keep := k }

section Selection

/-- The selected values are values of scenarios of the pool, and each scenario has one. -/
structure Selects (pools : ScenarioPools) (addr : Nat) (selection : OrdMap Nat Int) : Prop where
  value : ∀ id v, selection.get? id = some v →
    ∃ scenario ∈ pools.createdSince 0, scenario.id = id ∧ scenario.HasValue addr v
  all : ∀ scenario ∈ pools.createdSince 0, scenario.id ∈ selection.keys

/-- One round of the loop that selects the values. -/
def selectValue (s : IndividualSearch Srp V) (selection : OrdMap Nat Int) (e : Nat × Scenario) :
    Outcome (OrdMap Nat Int) :=
  match e.2.ts with
  | [] => .undefined
  | spec :: _ => do
    let tp ← Outcome.elementAt s.tuningParameters s.current
    .ok (selection.set e.2.id ((spec.variant.get? tp.addr).getD 0))

theorem select_eq (s : IndividualSearch Srp V) (pools : ScenarioPools) :
    s.select pools = pools.csp.entries.foldlM s.selectValue .empty := rfl

theorem select_selects {s : IndividualSearch Srp V} {pools : ScenarioPools}
    {selection : OrdMap Nat Int} {tp : TuningParameter}
    (hcurrent : Outcome.elementAt s.tuningParameters s.current = .ok tp)
    (hsets : pools.Sets tp.addr) (h : s.select pools = .ok selection) :
    Selects pools tp.addr selection := by
  have hfold : ∀ (es : List (Nat × Scenario)) (old new : OrdMap Nat Int),
      (∀ e ∈ es, ∃ v, e.2.HasValue tp.addr v) → es.foldlM s.selectValue old = .ok new →
      (∀ id v, new.get? id = some v → old.get? id = some v ∨
        ∃ e ∈ es, e.2.id = id ∧ e.2.HasValue tp.addr v) ∧
      ∀ id, id ∈ old.keys ∨ (∃ e ∈ es, e.2.id = id) → id ∈ new.keys := by
    intro es
    induction es with
    | nil =>
      intro old new _ h
      rw [← Outcome.ok.inj h]
      simp
    | cons e es ih =>
      intro old new hvalues h
      obtain ⟨hvalue, hvalues⟩ := List.forall_mem_cons.mp hvalues
      obtain ⟨v, spec, rest, hts, hv⟩ := hvalue
      rw [List.foldlM_cons, selectValue, hts] at h
      simp only [hcurrent, Outcome.ok_bind, hv, Option.getD_some] at h
      obtain ⟨hfrom, hkeys⟩ := ih _ _ hvalues h
      constructor
      · intro id w hw
        cases hfrom id w hw with
        | inl hold =>
          rw [OrdMap.get?_set] at hold
          split_ifs at hold with hid
          · obtain rfl := Option.some.inj hold
            exact .inr ⟨e, List.mem_cons_self, by simpa using hid.symm, spec, rest, hts, hv⟩
          · exact .inl hold
        | inr hnew =>
          obtain ⟨e', he', hsame⟩ := hnew
          exact .inr ⟨e', List.mem_cons_of_mem e he', hsame⟩
      · intro id hid
        apply hkeys
        rw [OrdMap.mem_keys_set]
        simp only [List.mem_cons, exists_eq_or_imp] at hid
        tauto
  have hentries : ∀ e ∈ pools.csp.entries, e.2 ∈ pools.createdSince 0 := by
    intro e he
    rw [ScenarioPools.createdSince_zero]
    exact List.mem_map_of_mem he
  obtain ⟨hfrom, hkeys⟩ := hfold _ _ _ (fun e he => hsets e.2 (hentries e he)) h
  constructor
  · intro id v hv
    cases hfrom id v hv with
    | inl hnone => simp at hnone
    | inr hfound =>
      obtain ⟨e, he, hid, hvalue⟩ := hfound
      exact ⟨e.2, hentries e he, hid, hvalue⟩
  · intro scenario hscenario
    rw [ScenarioPools.createdSince_zero] at hscenario
    obtain ⟨e, he, heq⟩ := List.mem_map.mp hscenario
    exact hkeys _ (.inr ⟨e, he, congrArg Scenario.id heq⟩)

/-- Selecting reads the parameter being explored unless the pool is empty. -/
theorem current_of_select {s : IndividualSearch Srp V} {pools : ScenarioPools}
    {selection : OrdMap Nat Int} (h : s.select pools = .ok selection)
    (hcreated : pools.createdSince 0 ≠ []) :
    ∃ tp, Outcome.elementAt s.tuningParameters s.current = .ok tp := by
  rw [ScenarioPools.createdSince_zero] at hcreated
  rw [select_eq] at h
  cases hentries : pools.csp.entries with
  | nil => simp [hentries] at hcreated
  | cons e es =>
    rw [hentries, List.foldlM_cons] at h
    obtain ⟨selection', hfirst, -⟩ := Outcome.bind_eq_ok.mp h
    rw [selectValue] at hfirst
    split at hfirst
    · cases hfirst
    · obtain ⟨tp, htp, -⟩ := Outcome.bind_eq_ok.mp hfirst
      exact ⟨tp, htp⟩

end Selection

section Kept
variable {s : IndividualSearch Srp V} {size : Int} {results : List (Nat × V)}

/-- One round of the loop over the best scenarios. -/
def keepValue (s : IndividualSearch Srp V) (results : List (Nat × V)) (elements : List Int)
    (i : Nat) : Outcome (List Int) := do
  let result ← Outcome.elementAt results i
  let value := (s.selection.get? result.1).getD 0
  .ok (if value ∈ elements then elements else elements ++ [value])

theorem keptValues_eq : s.keptValues size results =
    (List.range (min size s.individual_keep).toNat).foldlM (s.keepValue results) [] := by
  have hints : (do let i ← List.range (min size s.individual_keep).toNat; pure (i : Int)) =
      (List.range (min size s.individual_keep).toNat).map fun i : Nat => (i : Int) := by
    simp [List.map_eq_flatMap]
  rw [keptValues, hints, List.foldlM_map]
  rfl

theorem exists_of_keepValue {elements elements' : List Int} {i : Nat}
    (h : s.keepValue results elements i = .ok elements') :
    i < results.length ∧ ∃ result ∈ results, ∀ v ∈ elements',
      v ∈ elements ∨ (s.selection.get? result.1).getD 0 = v := by
  rw [keepValue] at h
  obtain ⟨result, hresult, h⟩ := Outcome.bind_eq_ok.mp h
  obtain ⟨-, hget⟩ := Outcome.elementAt_eq_ok.mp hresult
  obtain ⟨hlt, -⟩ := List.getElem?_eq_some_iff.mp hget
  refine ⟨by simpa using hlt, result, List.mem_of_getElem? hget, fun v hv => ?_⟩
  rw [← Outcome.ok.inj h] at hv
  split_ifs at hv
  · exact .inl hv
  · exact (List.mem_append.mp hv).imp_right fun hnew => (List.mem_singleton.mp hnew).symm

/-- The loop returns as long as there are enough scenarios. -/
theorem keptValues_returns_iff :
    (∃ elements, s.keptValues size results = .ok elements) ↔
      min size s.individual_keep ≤ results.length := by
  constructor
  · intro h
    obtain ⟨elements, h⟩ := h
    rw [keptValues_eq] at h
    have hcount : (min size s.individual_keep).toNat ≤ results.length :=
      Outcome.foldlM_range (fun i _ => i ≤ results.length)
        (fun _ _ _ _ _ hstep => (exists_of_keepValue hstep).1) (Nat.zero_le _) h
    omega
  · intro hle
    rw [keptValues_eq]
    refine Outcome.foldlM_returns (fun elements i hi => ?_) []
    have hlt : i < results.length := by
      have := List.mem_range.mp hi
      omega
    rw [keepValue, Outcome.elementAt_natCast hlt, Outcome.ok_bind]
    exact ⟨_, rfl⟩

theorem mem_of_keptValues {elements : List Int} (h : s.keptValues size results = .ok elements) :
    ∀ v ∈ elements, ∃ result ∈ results, (s.selection.get? result.1).getD 0 = v := by
  rw [keptValues_eq] at h
  refine Outcome.foldlM_invariant (fun elements : List Int =>
    ∀ v ∈ elements, ∃ result ∈ results, (s.selection.get? result.1).getD 0 = v)
    (fun elements i elements' hinv hstep v hv => ?_) _ _ _ (by simp) h
  obtain ⟨-, result, hmem, hvalue⟩ := exists_of_keepValue hstep
  cases hvalue v hv with
  | inl hold => exact hinv v hold
  | inr hnew => exact ⟨result, hmem, hnew⟩

end Kept

section Step
variable [LT V] [DecidableLT V] (sort : Traversal (Nat × V))

/-- `searchFinished` stays within the evaluated scenarios, and the processed parameter is taken
out of the search or restricted to values that occurred in them. -/
def RestrictsToEvaluated (search : IndividualSearch Srp V) (pools : ScenarioPools) (srp : Srp) :
    Prop :=
  ∃ evaluated finished s', search.searchAlgorithm.searchFinished srp = .ok evaluated ∧
    search.searchFinished sort srp = .ok (finished, s') ∧
    (s'.tuningParameters = search.tuningParameters.eraseIdx search.current.toNat ∨
      ∃ tp elements, Outcome.elementAt search.tuningParameters search.current = .ok tp ∧
        s'.tuningParameters = setRestriction search.tuningParameters tp.addr ⟨2, elements⟩ ∧
        ∀ v ∈ elements, ∃ scenario ∈ pools.createdSince 0,
          scenario.id ∈ evaluated.path.keys ∧ scenario.HasValue tp.addr v)

/-- A scenario was evaluated, and if the best one improves on the steps before, there are as
many as the loop over the best ones visits. -/
def EnoughEvaluated (search : IndividualSearch Srp V) (srp : Srp) : Prop :=
  ∀ evaluated, search.searchAlgorithm.searchFinished srp = .ok evaluated →
    evaluated.path.entries ≠ [] ∧
    ∀ best rest tp, sort.sort (fun a b => a.2 < b.2) evaluated.path.entries = best :: rest →
      Outcome.elementAt search.tuningParameters search.current = .ok tp →
      search.bestScenario = none ∨ best.2 < search.bestTime →
      ∃ size, sizeRange tp = .ok size ∧
        min size search.individual_keep ≤ evaluated.path.entries.length

/-- What `createScenarios` leaves for `searchFinished`. -/
structure Prepared (search : IndividualSearch Srp V) (pools : ScenarioPools) : Prop where
  objective : search.searchAlgorithm.objectiveFunctions ≠ []
  path : search.searchAlgorithm.path = .empty
  queued : search.searchAlgorithm.scenarioIds = (pools.createdSince 0).map Scenario.id
  explored : pools.createdSince 0 ≠ [] →
    ∃ tp, Outcome.elementAt search.tuningParameters search.current = .ok tp
  selects : ∀ tp, Outcome.elementAt search.tuningParameters search.current = .ok tp →
    Selects pools tp.addr search.selection

omit [LT V] [DecidableLT V] in
theorem addSearchSpace_clear (e : ExhaustiveSearch Srp V) (objs : List (Nat → Srp → V))
    (dblMax dblMin : V) (space : SearchSpace) :
    (objs.foldl ExhaustiveSearch.addObjectiveFunction (e.clear dblMax dblMin)).addSearchSpace space =
      { e.clear dblMax dblMin with objectiveFunctions := objs, searchSpaces := [space] } := by
  simp [foldl_addObjectiveFunction, ExhaustiveSearch.addSearchSpace, ExhaustiveSearch.clear]

omit [LT V] [DecidableLT V] in
theorem prepared_createScenarios {rts : Bool} {ptfMinObjective : Nat → Srp → V} {dblMax dblMin : V}
    {s search : IndividualSearch Srp V} {pools pools' : ScenarioPools}
    (hidle : s.searchAlgorithm.scenarioIds = []) (hempty : pools.createdSince 0 = [])
    (h : s.createScenarios rts ptfMinObjective dblMax dblMin pools = .ok (search, pools')) :
    Prepared search pools' := by
  rw [createScenarios] at h
  dsimp only at h
  generalize hstepped : ({ s with
    objectiveFunctions := if s.objectiveFunctions.isEmpty then [ptfMinObjective]
      else s.objectiveFunctions
    searchStepCount := s.searchStepCount + 1 } : IndividualSearch Srp V) = stepped at h
  rw [addSearchSpace_clear] at h
  obtain ⟨created, hcreate, h⟩ := Outcome.bind_eq_ok.mp h
  obtain ⟨selection, hselect, h⟩ := Outcome.bind_eq_ok.mp h
  obtain ⟨hsearch, hpools⟩ := Prod.mk.inj (Outcome.ok.inj h)
  have hall := ExhaustiveSearch.createdAll hcreate rfl rfl hidle hempty
  obtain ⟨hsame, hplace⟩ : stepped.tuningParameters = search.tuningParameters ∧
      stepped.current = search.current := by
    rw [← hsearch, ← hstepped]
    exact ⟨rfl, rfl⟩
  subst hpools
  have hcurrent := @current_of_select _ _ stepped _ _ hselect
  have hselects := fun tp htp hsets => @select_selects _ _ stepped _ _ tp htp hsets hselect
  rw [hsame, hplace] at hcurrent
  rw [hsame, hplace] at hselects
  rw [← hsearch] at hcurrent hselects ⊢
  refine ⟨hall.objective, hall.path, hall.queued, hcurrent, fun tp htp => ?_⟩
  apply hselects tp htp (hall.sets tp _)
  -- the parameter being explored is the last one of the search space
  obtain ⟨hnonneg, hget⟩ := Outcome.elementAt_eq_ok.mp htp
  rw [hsearch, ← hplace] at hnonneg hget
  rw [← hsame, current] at hget
  rw [current] at hnonneg
  have htake : (stepped.tuningParameters.take
      (stepped.searchStepCount - stepped.tpEliminated).toNat)[
        (stepped.searchStepCount - 1 - stepped.tpEliminated).toNat]? = some tp := by
    rw [List.getElem?_take_of_lt (by omega)]
    exact hget
  exact List.mem_of_getElem? htake

/-- A step returns with its verdict, if it evaluated a scenario. -/
theorem searchFinished_eq {search : IndividualSearch Srp V} {srp : Srp}
    {evaluated : ExhaustiveSearch Srp V} {best : Nat × V} {rest : List (Nat × V)}
    (hcall : search.searchAlgorithm.searchFinished srp = .ok evaluated)
    (hresults : sort.sort (fun a b => a.2 < b.2) evaluated.path.entries = best :: rest) :
    ∃ merged : IndividualSearch Srp V, search.searchFinished sort srp =
        (merged.settle (best :: rest) best >>= fun t =>
          .ok (decide (t.searchStepCount - t.tpEliminated = (t.tuningParameters.length : Int)), t)) ∧
      merged.tuningParameters = search.tuningParameters ∧ merged.current = search.current ∧
      merged.selection = search.selection ∧ merged.individual_keep = search.individual_keep ∧
      merged.bestScenario = search.bestScenario ∧ merged.bestTime = search.bestTime ∧
      merged.searchAlgorithm = evaluated := by
  have hlast : Outcome.elementAt (best :: rest) (((best :: rest).length : Int) - 1) =
      .ok (best :: rest)[rest.length] := by
    rw [List.length_cons, Nat.cast_succ, add_sub_cancel_right]
    exact Outcome.elementAt_natCast (Nat.lt_succ_self _)
  rw [searchFinished, hcall, Outcome.ok_bind]
  simp only [hresults, hlast, Outcome.ok_bind]
  exact ⟨_, rfl, rfl, rfl, rfl, rfl, rfl, rfl, rfl⟩

theorem searchFinished_nil {search : IndividualSearch Srp V} {srp : Srp}
    {evaluated : ExhaustiveSearch Srp V}
    (hcall : search.searchAlgorithm.searchFinished srp = .ok evaluated)
    (hnone : evaluated.path.entries = []) : search.searchFinished sort srp = .undefined := by
  have hresults : sort.sort (fun a b => a.2 < b.2) evaluated.path.entries = [] :=
    List.nil_perm.mp (hnone ▸ (sort.sort_perm _ _).symm)
  rw [searchFinished, hcall, Outcome.ok_bind]
  simp only [hresults]

/-- An improving step returns if the values to keep can be read. -/
theorem searchFinished_improves {search : IndividualSearch Srp V} {srp : Srp}
    {evaluated : ExhaustiveSearch Srp V} {best : Nat × V} {rest : List (Nat × V)}
    {tp : TuningParameter}
    (hcall : search.searchAlgorithm.searchFinished srp = .ok evaluated)
    (hresults : sort.sort (fun a b => a.2 < b.2) evaluated.path.entries = best :: rest)
    (hcurrent : Outcome.elementAt search.tuningParameters search.current = .ok tp)
    (hbetter : search.bestScenario = none ∨ best.2 < search.bestTime) {finished : Bool}
    {s' : IndividualSearch Srp V} :
    search.searchFinished sort srp = .ok (finished, s') →
      ∃ size elements, sizeRange tp = .ok size ∧
        search.keptValues size (best :: rest) = .ok elements ∧
        s'.tuningParameters = setRestriction search.tuningParameters tp.addr ⟨2, elements⟩ := by
  intro h
  obtain ⟨merged, heq, htps, hplace, hselection, hkeep, hbest, htime, -⟩ :=
    searchFinished_eq sort hcall hresults
  rw [heq, settle, htps, hplace, hcurrent, Outcome.ok_bind, hbest, htime, if_pos hbetter] at h
  obtain ⟨t, hsettle, h⟩ := Outcome.bind_eq_ok.mp h
  obtain ⟨size, hsize, hsettle⟩ := Outcome.bind_eq_ok.mp hsettle
  obtain ⟨elements, helements, hsettle⟩ := Outcome.bind_eq_ok.mp hsettle
  refine ⟨size, elements, hsize, ?_, ?_⟩
  · rw [keptValues, hselection, hkeep] at helements
    exact helements
  · have hs' : t = s' := (Prod.mk.inj (Outcome.ok.inj h)).2
    rw [← hs', ← Outcome.ok.inj hsettle]

theorem searchFinished_returns {search : IndividualSearch Srp V} {srp : Srp}
    {evaluated : ExhaustiveSearch Srp V} {best : Nat × V} {rest : List (Nat × V)}
    {tp : TuningParameter}
    (hcall : search.searchAlgorithm.searchFinished srp = .ok evaluated)
    (hresults : sort.sort (fun a b => a.2 < b.2) evaluated.path.entries = best :: rest)
    (hcurrent : Outcome.elementAt search.tuningParameters search.current = .ok tp)
    (henough : search.bestScenario = none ∨ best.2 < search.bestTime →
      ∃ size elements, sizeRange tp = .ok size ∧
        search.keptValues size (best :: rest) = .ok elements) :
    ∃ finished s', search.searchFinished sort srp = .ok (finished, s') ∧
      (¬ (search.bestScenario = none ∨ best.2 < search.bestTime) →
        s'.tuningParameters = search.tuningParameters.eraseIdx search.current.toNat) := by
  obtain ⟨merged, heq, htps, hplace, hselection, hkeep, hbest, htime, -⟩ :=
    searchFinished_eq sort hcall hresults
  rw [heq, settle, htps, hplace, hcurrent, Outcome.ok_bind, hbest, htime]
  by_cases hbetter : search.bestScenario = none ∨ best.2 < search.bestTime
  · obtain ⟨size, elements, hsize, helements⟩ := henough hbetter
    have hmerged : merged.keptValues size (best :: rest) = .ok elements := by
      rw [keptValues, hselection, hkeep]
      exact helements
    rw [if_pos hbetter, hsize, Outcome.ok_bind, hmerged, Outcome.ok_bind, Outcome.ok_bind]
    exact ⟨_, _, rfl, fun hnot => absurd hbetter hnot⟩
  · rw [if_neg hbetter, Outcome.ok_bind]
    exact ⟨_, _, rfl, fun _ => rfl⟩

omit [LT V] [DecidableLT V] in
/-- The values kept are values of evaluated scenarios. -/
theorem Prepared.occurred {search : IndividualSearch Srp V} {pools : ScenarioPools}
    (h : Prepared search pools) {evaluated : ExhaustiveSearch Srp V} {results : List (Nat × V)}
    (hkeys : ∀ id, id ∈ evaluated.path.keys ↔
      id ∈ search.searchAlgorithm.path.keys ∨ id ∈ search.searchAlgorithm.scenarioIds)
    (hresults : ∀ result ∈ results, result.1 ∈ evaluated.path.keys) {tp : TuningParameter}
    (hcurrent : Outcome.elementAt search.tuningParameters search.current = .ok tp) {size : Int}
    {elements : List Int} (helements : search.keptValues size results = .ok elements) :
    ∀ v ∈ elements, ∃ scenario ∈ pools.createdSince 0,
      scenario.id ∈ evaluated.path.keys ∧ scenario.HasValue tp.addr v := by
  intro v hv
  obtain ⟨result, hresult, hvalue⟩ := mem_of_keptValues helements v hv
  have hid : result.1 ∈ (pools.createdSince 0).map Scenario.id := by
    have hmem := (hkeys _).mp (hresults result hresult)
    rwa [h.path, h.queued, OrdMap.keys_empty, List.mem_nil_iff, false_or] at hmem
  obtain ⟨scenario, hscenario, hsame⟩ := List.mem_map.mp hid
  obtain ⟨w, hw⟩ := OrdMap.mem_keys.mp ((h.selects tp hcurrent).all scenario hscenario)
  rw [hsame] at hw
  rw [hw, Option.getD_some] at hvalue
  obtain ⟨chosen, hchosen, hchosenId, hhas⟩ := (h.selects tp hcurrent).value _ w hw
  exact ⟨chosen, hchosen, hchosenId ▸ hresults result hresult, hvalue ▸ hhas⟩

theorem restrictsToEvaluated_iff {search : IndividualSearch Srp V} {pools : ScenarioPools}
    (h : Prepared search pools) (srp : Srp) :
    RestrictsToEvaluated sort search pools srp ↔ EnoughEvaluated sort search srp := by
  obtain ⟨evaluated, hcall, -, hkeys⟩ :=
    ExhaustiveSearch.searchFinished_evaluates srp h.objective
  have hperm := sort.sort_perm (fun a b => a.2 < b.2) evaluated.path.entries
  cases hresults : sort.sort (fun a b => a.2 < b.2) evaluated.path.entries with
  | nil =>
    have hnone : evaluated.path.entries = [] := List.nil_perm.mp (hresults ▸ hperm)
    constructor
    · rintro ⟨evaluated', finished, s', hcall', hrun, -⟩
      rw [searchFinished_nil sort hcall hnone] at hrun
      cases hrun
    · intro henough
      exact absurd hnone (henough evaluated hcall).1
  | cons best rest =>
    rw [hresults] at hperm
    have hmem : ∀ result ∈ best :: rest, result.1 ∈ evaluated.path.keys :=
      fun result hresult => List.mem_map_of_mem (hperm.mem_iff.mp hresult)
    have hcreated : pools.createdSince 0 ≠ [] := by
      intro hnil
      have hbest := (hkeys _).mp (hmem best List.mem_cons_self)
      rw [h.path, h.queued, hnil] at hbest
      simp at hbest
    obtain ⟨tp, hcurrent⟩ := h.explored hcreated
    have hlen : (best :: rest).length = evaluated.path.entries.length := hperm.length_eq
    constructor
    · rintro ⟨evaluated', finished, s', hcall', hrun, -⟩ evaluated'' hcall''
      obtain rfl : evaluated = evaluated'' := Outcome.ok.inj (hcall.symm.trans hcall'')
      refine ⟨fun hnil => by simp [hnil] at hlen, fun best' rest' tp' hresults' hcurrent' hbetter => ?_⟩
      obtain ⟨rfl, rfl⟩ := List.cons.inj (hresults.symm.trans hresults')
      obtain rfl : tp = tp' := Outcome.ok.inj (hcurrent.symm.trans hcurrent')
      obtain ⟨size, elements, hsize, helements, -⟩ :=
        searchFinished_improves sort hcall hresults hcurrent hbetter hrun
      exact ⟨size, hsize, hlen ▸ keptValues_returns_iff.mp ⟨elements, helements⟩⟩
    · intro henough
      have hread : search.bestScenario = none ∨ best.2 < search.bestTime →
          ∃ size elements, sizeRange tp = .ok size ∧
            search.keptValues size (best :: rest) = .ok elements := by
        intro hbetter
        obtain ⟨size, hsize, hle⟩ := (henough evaluated hcall).2 best rest tp hresults hcurrent hbetter
        obtain ⟨elements, helements⟩ := keptValues_returns_iff.mpr (hlen ▸ hle)
        exact ⟨size, elements, hsize, helements⟩
      obtain ⟨finished, s', hrun, hremoved⟩ :=
        searchFinished_returns sort hcall hresults hcurrent hread
      refine ⟨evaluated, finished, s', hcall, hrun, ?_⟩
      by_cases hbetter : search.bestScenario = none ∨ best.2 < search.bestTime
      · obtain ⟨size, elements, -, helements, htps⟩ :=
          searchFinished_improves sort hcall hresults hcurrent hbetter hrun
        exact .inr ⟨tp, elements, hcurrent, htps, h.occurred hkeys hmem hcurrent helements⟩
      · exact .inl (hremoved hbetter)

theorem searchAlgorithm_settle {s t : IndividualSearch Srp V}
    {results : List (Nat × V)} {first : Nat × V} (h : s.settle results first = .ok t) :
    t.searchAlgorithm = s.searchAlgorithm := by
  rw [settle] at h
  obtain ⟨tp, -, h⟩ := Outcome.bind_eq_ok.mp h
  split_ifs at h
  · obtain ⟨size, -, h⟩ := Outcome.bind_eq_ok.mp h
    obtain ⟨elements, -, h⟩ := Outcome.bind_eq_ok.mp h
    rw [← Outcome.ok.inj h]
  · rw [← Outcome.ok.inj h]

end Step

section Run
variable [LT V] [DecidableLT V] (sort : Traversal (Nat × V))
variable (rts : Bool) (ptfMinObjective : Nat → Srp → V) (dblMax dblMin : V)

/-- A search step without the answer of `searchFinished`. -/
def nextStep (s : IndividualSearch Srp V × ScenarioPools) (r : Round Srp) :
    Outcome (IndividualSearch Srp V × ScenarioPools) := do
  let (_, s) ← searchStep sort rts ptfMinObjective dblMax dblMin s r
  .ok s

/-- In every step whose scenarios are created, `p` holds of what `searchFinished` finds. -/
def EveryStep (p : IndividualSearch Srp V → ScenarioPools → Srp → Prop) (rs : List (Round Srp))
    (s : IndividualSearch Srp V × ScenarioPools) : Prop :=
  Outcome.StepsMeet (fun s r => ∀ search pools,
    s.1.createScenarios rts ptfMinObjective dblMax dblMin (s.2.elsewhere r.made fun _ => false) =
      .ok (search, pools) → p search pools r.srp)
    (nextStep sort rts ptfMinObjective dblMax dblMin) rs s

/-- A new search that keeps `k` scenarios of each step. -/
def keeping (unset : V) (k : Int) (objs : List (Nat → Srp → V)) (space : SearchSpace) :
    Outcome (IndividualSearch Srp V) :=
  ((objs.foldl addObjectiveFunction
    (initialized (.init dblMax dblMin) unset)).setScenariosToKeep k).addSearchSpace space

variable {rts ptfMinObjective dblMax dblMin}

/-- Nothing is waiting after a step. -/
theorem idle_nextStep {s s' : IndividualSearch Srp V × ScenarioPools} {r : Round Srp}
    (hidle : s.1.searchAlgorithm.scenarioIds = [])
    (h : nextStep sort rts ptfMinObjective dblMax dblMin s r = .ok s') :
    s'.1.searchAlgorithm.scenarioIds = [] := by
  obtain ⟨⟨answer, t⟩, hstep, h⟩ := Outcome.bind_eq_ok.mp h
  obtain ⟨⟨search, pools⟩, hcreate, hstep⟩ := Outcome.bind_eq_ok.mp hstep
  obtain ⟨⟨finished, search'⟩, hfinish, hstep⟩ := Outcome.bind_eq_ok.mp hstep
  have hprepared := prepared_createScenarios hidle
    (ScenarioPools.createdSince_elsewhere s.2 r.made 0) hcreate
  obtain ⟨evaluated, hcall, hdone, -⟩ :=
    ExhaustiveSearch.searchFinished_evaluates r.srp hprepared.objective
  have hs' : s' = (search', pools) := by
    rw [← Outcome.ok.inj h, ← (Prod.mk.inj (Outcome.ok.inj hstep)).2]
  rw [hs']
  cases hresults : sort.sort (fun a b => a.2 < b.2) evaluated.path.entries with
  | nil =>
    have hnone : evaluated.path.entries = [] :=
      List.nil_perm.mp (hresults ▸ sort.sort_perm (fun a b => a.2 < b.2) evaluated.path.entries)
    rw [searchFinished_nil sort hcall hnone] at hfinish
    cases hfinish
  | cons best rest =>
    obtain ⟨merged, heq, -, -, -, -, -, -, halgorithm⟩ := searchFinished_eq sort hcall hresults
    rw [heq] at hfinish
    obtain ⟨t', hsettle, hfinish⟩ := Outcome.bind_eq_ok.mp hfinish
    have ht' : t'.searchAlgorithm = merged.searchAlgorithm := searchAlgorithm_settle hsettle
    rw [← (Prod.mk.inj (Outcome.ok.inj hfinish)).2, ht', halgorithm, hdone]

omit [LT V] [DecidableLT V] in
theorem foldl_addObjectiveFunction_fields (objs : List (Nat → Srp → V)) :
    ∀ s : IndividualSearch Srp V,
      (objs.foldl addObjectiveFunction s).searchAlgorithm = s.searchAlgorithm ∧
        (objs.foldl addObjectiveFunction s).searchSpaces = s.searchSpaces := by
  induction objs with
  | nil => exact fun s => ⟨rfl, rfl⟩
  | cons obj objs ih => exact fun s => ih (s.addObjectiveFunction obj)

omit [LT V] [DecidableLT V] in
theorem keeping_idle (unset : V) (k : Int) (objs : List (Nat → Srp → V)) (space : SearchSpace) :
    ∃ s, keeping dblMax dblMin unset k objs space = .ok s ∧ s.searchAlgorithm.scenarioIds = [] := by
  obtain ⟨halgorithm, hspaces⟩ := foldl_addObjectiveFunction_fields objs
    (initialized (.init dblMax dblMin) unset : IndividualSearch Srp V)
  have hnone : ((objs.foldl addObjectiveFunction
      (initialized (.init dblMax dblMin) unset)).setScenariosToKeep k).searchSpaces.isEmpty = true :=
    congrArg List.isEmpty hspaces
  rw [keeping, addSearchSpace, if_pos hnone]
  exact ⟨_, rfl, congrArg ExhaustiveSearch.scenarioIds halgorithm⟩

/-- Whatever number of scenarios is kept, every step of a search restricts its parameter to
evaluated values exactly if every step has evaluated enough scenarios. -/
theorem everyStep_restricts_iff (unset : V) (k : Int) (objs : List (Nat → Srp → V))
    (space : SearchSpace) (pools : ScenarioPools) (rs : List (Round Srp)) :
    ∃ s, keeping dblMax dblMin unset k objs space = .ok s ∧
      (EveryStep sort rts ptfMinObjective dblMax dblMin (RestrictsToEvaluated sort) rs (s, pools) ↔
        EveryStep sort rts ptfMinObjective dblMax dblMin
          (fun search _ srp => EnoughEvaluated sort search srp) rs (s, pools)) := by
  obtain ⟨s, hs, hidle⟩ := keeping_idle unset k objs space
  refine ⟨s, hs, Outcome.StepsMeet.congr (fun s => s.1.searchAlgorithm.scenarioIds = [])
    (fun s r s' h _ hstep => idle_nextStep sort h hstep) (fun s r h => ?_) hidle⟩
  refine forall₃_congr fun search pools' hcreate => ?_
  exact restrictsToEvaluated_iff sort (prepared_createScenarios h
    (ScenarioPools.createdSince_elsewhere s.2 r.made 0) hcreate) r.srp

/-- A parameter of ten values that is restricted to two of them: the third best scenario of the
step is read, and there is none. -/
theorem not_everyStep_restricts_three :
    ∃ s, keeping 0 0 0 3 [fun id (_ : Unit) => (id : Int)]
        ⟨["foo"], [], [⟨0, 0, 9, 1, some ⟨2, [7, 5]⟩⟩]⟩ = .ok s ∧
      ¬ EveryStep .inserted false (fun _ _ => 0) 0 0 (RestrictsToEvaluated .inserted) [⟨0, ()⟩]
        (s, .empty) := by
  refine ⟨_, rfl, fun h => ?_⟩
  obtain ⟨evaluated, finished, s', -, hrun, -⟩ := h.1 _ _ rfl
  cases hrun

end Run
end IndividualSearch
end ReadexPtf.Autotune
