import ReadexPtf.Agents.MetaProperty
import ReadexPtf.Lib.IntLoop
import Mathlib

/-! The pool of the results: the properties of the scenarios, under the ids of these and under
the search steps. -/
namespace ReadexPtf.ScenarioResults
open ReadexPtf Agents
variable {V : Type}

/-- Its member `id` is never set. -/
structure ScenarioResult (V : Type) where
  properties : List (MetaProperty V)

structure ScenarioResultsPool (V : Type) where
  resultsPerSearchStep : OrdMap ℤ (List (ScenarioResult V))
  resultsPerScenarioId : OrdMap ℤ (ScenarioResult V)

/-- `atoi` of the entry `ScenarioID`, which has to be there. -/
def scenarioId (property : MetaProperty V) : Outcome ℤ :=
  match property.addInfo.get? "ScenarioID" with
  | none => .throws "0"
  | some text => if FitsInt (atoi text) then .ok (atoi text) else .undefined

namespace ScenarioResultsPool

def empty : ScenarioResultsPool V := ⟨.empty, .empty⟩

/-- The results of a scenario, made where there are none. -/
def resultOf (pool : ScenarioResultsPool V) (id : ℤ) : ScenarioResult V :=
  (pool.resultsPerScenarioId.get? id).getD ⟨[]⟩

/-- The entries of a search step, made where there are none. -/
def entriesOf (pool : ScenarioResultsPool V) (searchStep : ℤ) : List (ScenarioResult V) :=
  (pool.resultsPerSearchStep.get? searchStep).getD []

/-- The step gets a copy of all the results of the scenario. -/
def push (pool : ScenarioResultsPool V) (property : MetaProperty V) (searchStep : ℤ) :
    Outcome (ScenarioResultsPool V) := do
  let id ← scenarioId property
  let result : ScenarioResult V := ⟨(pool.resultOf id).properties ++ [property]⟩
  return {
    resultsPerSearchStep :=
      pool.resultsPerSearchStep.set searchStep (pool.entriesOf searchStep ++ [result])
    resultsPerScenarioId := pool.resultsPerScenarioId.set id result }

def getScenarioResultsByID (pool : ScenarioResultsPool V) (id : ℤ) :
    Outcome (List (MetaProperty V)) :=
  match pool.resultsPerScenarioId.get? id with
  | none => .throws "0"
  | some result => .ok result.properties

def getScenarioResultsPerSearchStep (pool : ScenarioResultsPool V) (searchStep : ℤ) :
    Outcome (List (ScenarioResult V)) :=
  match pool.resultsPerSearchStep.get? searchStep with
  | none => .throws "0"
  | some results => .ok results

end ScenarioResultsPool

/-- A result with the search step that it is pushed in. -/
structure Pushed (V : Type) where
  property : MetaProperty V
  searchStep : ℤ

/-- The scenario of a result that names one. -/
def Pushed.scenario (p : Pushed V) : ℤ :=
  match scenarioId p.property with
  | .ok id => id
  | _ => 0

def pushAll (pushes : List (Pushed V)) (pool : ScenarioResultsPool V) :
    Outcome (ScenarioResultsPool V) :=
  pushes.foldlM (fun pool p => pool.push p.property p.searchStep) pool

/-- The results pushed for a scenario in a search step. -/
def pushedFor (pushes : List (Pushed V)) (searchStep id : ℤ) : List (MetaProperty V) :=
  (pushes.filter fun p => p.searchStep = searchStep && p.scenario = id).map Pushed.property

/-- Every step lists the scenarios with a result in it, each once and with these results; a step
without a result may not be known. -/
def Lists (pushes : List (Pushed V)) (pool : ScenarioResultsPool V) : Prop :=
  ∀ searchStep, ∃ ids : List ℤ, ids.Nodup ∧
    (∀ id, id ∈ ids ↔ ∃ p ∈ pushes, p.searchStep = searchStep ∧ p.scenario = id) ∧
    (pool.getScenarioResultsPerSearchStep searchStep =
        .ok (ids.map fun id => ⟨pushedFor pushes searchStep id⟩) ∨
      ids = [] ∧ pool.getScenarioResultsPerSearchStep searchStep = .throws "0")

namespace ScenarioResultsPool

theorem push_eq_ok {pool pool' : ScenarioResultsPool V} {p : Pushed V} :
    pool.push p.property p.searchStep = .ok pool' ↔
      (∃ id, scenarioId p.property = .ok id) ∧
      pool' = ⟨pool.resultsPerSearchStep.set p.searchStep (pool.entriesOf p.searchStep ++
          [⟨(pool.resultOf p.scenario).properties ++ [p.property]⟩]),
        pool.resultsPerScenarioId.set p.scenario
          ⟨(pool.resultOf p.scenario).properties ++ [p.property]⟩⟩ := by
  rw [push, Pushed.scenario]
  cases scenarioId p.property with
  | ok id => simp [eq_comm]
  | throws m => simp
  | aborts => simp
  | undefined => simp

/-- What one more result does to the entries of the steps and to the results of the scenarios. -/
structure OneMore (pool pool' : ScenarioResultsPool V) (p : Pushed V) : Prop where
  entries : ∀ searchStep, pool'.entriesOf searchStep = pool.entriesOf searchStep ++
    if p.searchStep = searchStep then [⟨(pool.resultOf p.scenario).properties ++ [p.property]⟩]
      else []
  results : ∀ id, (pool'.resultOf id).properties = (pool.resultOf id).properties ++
    if p.scenario = id then [p.property] else []

theorem oneMore_of_push {pool pool' : ScenarioResultsPool V} {p : Pushed V}
    (h : pool.push p.property p.searchStep = .ok pool') : OneMore pool pool' p := by
  obtain ⟨-, rfl⟩ := push_eq_ok.mp h
  constructor
  · intro searchStep
    by_cases hstep : p.searchStep = searchStep
    · subst hstep
      simp [entriesOf]
    · simp [entriesOf, OrdMap.get?_set, hstep, Ne.symm hstep]
  · intro id
    by_cases hid : p.scenario = id
    · subst hid
      simp [resultOf]
    · simp [resultOf, OrdMap.get?_set, hid, Ne.symm hid]

theorem pushAll_concat {pushes : List (Pushed V)} {p : Pushed V}
    {pool pool' : ScenarioResultsPool V} :
    pushAll (pushes ++ [p]) pool = .ok pool' ↔
      ∃ pool₁, pushAll pushes pool = .ok pool₁ ∧
        pool₁.push p.property p.searchStep = .ok pool' := by
  rw [pushAll, List.foldlM_append, Outcome.bind_eq_ok]
  simp only [List.foldlM_cons, List.foldlM_nil, bind_pure]
  rfl

/-- The results of a scenario are those pushed for it, in any step. -/
theorem resultOf_pushAll {pushes : List (Pushed V)} :
    ∀ {pool : ScenarioResultsPool V}, pushAll pushes .empty = .ok pool → ∀ id,
      (pool.resultOf id).properties =
        (pushes.filter fun p => p.scenario = id).map Pushed.property := by
  induction pushes using List.reverseRecOn with
  | nil =>
    intro pool h id
    rw [← Outcome.ok.inj h]
    rfl
  | append_singleton pushes p ih =>
    intro pool h id
    obtain ⟨pool₁, hpushes, hpush⟩ := pushAll_concat.mp h
    rw [(oneMore_of_push hpush).results id, ih hpushes id]
    by_cases hid : p.scenario = id <;> simp [hid]

/-- How many results the entries of a step have together. -/
def total (pool : ScenarioResultsPool V) (searchStep : ℤ) : ℕ :=
  ((pool.entriesOf searchStep).map fun result => result.properties.length).sum

/-- The results of a step are in its entries, and those of a scenario that had one already are
in more than one of them. -/
theorem total_pushAll {pushes : List (Pushed V)} :
    ∀ {pool : ScenarioResultsPool V}, pushAll pushes .empty = .ok pool →
      (∀ searchStep,
        pushes.countP (fun p => p.searchStep = searchStep) ≤ pool.total searchStep) ∧
      (¬ (pushes.map Pushed.scenario).Nodup → ∃ searchStep,
        pushes.countP (fun p => p.searchStep = searchStep) < pool.total searchStep) := by
  induction pushes using List.reverseRecOn with
  | nil =>
    intro pool h
    rw [← Outcome.ok.inj h]
    simp
  | append_singleton pushes p ih =>
    intro pool h
    obtain ⟨pool₁, hpushes, hpush⟩ := pushAll_concat.mp h
    obtain ⟨hall, hmore⟩ := ih hpushes
    have hmine := resultOf_pushAll hpushes p.scenario
    have htotal (searchStep : ℤ) : pool.total searchStep = pool₁.total searchStep +
        if p.searchStep = searchStep
          then (pushes.filter fun q => q.scenario = p.scenario).length + 1 else 0 := by
      rw [total, total, (oneMore_of_push hpush).entries searchStep, List.map_append,
        List.sum_append, hmine]
      by_cases hstep : p.searchStep = searchStep <;> simp [hstep]
    have hcount (searchStep : ℤ) :
        (pushes ++ [p]).countP (fun q => q.searchStep = searchStep) =
          pushes.countP (fun q => q.searchStep = searchStep) +
            if p.searchStep = searchStep then 1 else 0 := by
      rw [List.countP_append, List.countP_singleton]
      simp
    constructor
    · intro searchStep
      have hbefore := hall searchStep
      rw [htotal, hcount]
      split_ifs <;> omega
    · intro hdup
      by_cases hnodup : (pushes.map Pushed.scenario).Nodup
      · -- the last scenario is the one that had a result already
        have hagain : 0 < (pushes.filter fun q => q.scenario = p.scenario).length := by
          rw [List.map_append, List.map_singleton, List.nodup_append] at hdup
          simp only [List.length_filter_pos_iff, decide_eq_true_eq]
          by_contra hnone
          push Not at hnone
          refine hdup ⟨hnodup, List.nodup_singleton _, ?_⟩
          intro id hid id' hid'
          obtain ⟨q, hq, rfl⟩ := List.mem_map.mp hid
          rw [List.mem_singleton.mp hid']
          exact hnone q hq
        have hbefore := hall p.searchStep
        refine ⟨p.searchStep, ?_⟩
        rw [htotal, hcount, if_pos rfl, if_pos rfl]
        omega
      · obtain ⟨searchStep, hless⟩ := hmore hnodup
        refine ⟨searchStep, ?_⟩
        rw [htotal, hcount]
        split_ifs <;> omega

theorem pushAll_returns_iff {pushes : List (Pushed V)} :
    (∃ pool, pushAll pushes .empty = .ok pool) ↔
      ∀ p ∈ pushes, ∃ id, scenarioId p.property = .ok id := by
  induction pushes using List.reverseRecOn with
  | nil => exact ⟨fun _ _ hp => absurd hp List.not_mem_nil, fun _ => ⟨_, rfl⟩⟩
  | append_singleton pushes p ih =>
    rw [List.forall_mem_append, ← ih, List.forall_mem_singleton]
    constructor
    · rintro ⟨pool, h⟩
      obtain ⟨pool₁, hpushes, hpush⟩ := pushAll_concat.mp h
      exact ⟨⟨pool₁, hpushes⟩, (push_eq_ok.mp hpush).1⟩
    · rintro ⟨⟨pool₁, hpushes⟩, hread⟩
      exact ⟨_, pushAll_concat.mpr ⟨pool₁, hpushes, push_eq_ok.mpr ⟨hread, rfl⟩⟩⟩

/-- With one result for each scenario every entry is of one result. -/
theorem entriesOf_pushAll {pushes : List (Pushed V)} :
    ∀ {pool : ScenarioResultsPool V}, pushAll pushes .empty = .ok pool →
      (pushes.map Pushed.scenario).Nodup → ∀ searchStep,
      pool.entriesOf searchStep =
        (pushes.filter fun p => p.searchStep = searchStep).map fun p => ⟨[p.property]⟩ := by
  induction pushes using List.reverseRecOn with
  | nil =>
    intro pool h _ searchStep
    rw [← Outcome.ok.inj h]
    rfl
  | append_singleton pushes p ih =>
    intro pool h hnodup searchStep
    obtain ⟨pool₁, hpushes, hpush⟩ := pushAll_concat.mp h
    rw [List.map_append, List.map_singleton, List.nodup_append] at hnodup
    have hnone : (pool₁.resultOf p.scenario).properties = [] := by
      rw [resultOf_pushAll hpushes, List.map_eq_nil_iff, List.filter_eq_nil_iff]
      intro q hq
      simpa using hnodup.2.2 _ (List.mem_map_of_mem hq) p.scenario (List.mem_singleton_self _)
    rw [(oneMore_of_push hpush).entries, ih hpushes hnodup.1, hnone]
    by_cases hstep : p.searchStep = searchStep <;> simp [hstep]

end ScenarioResultsPool

section Counting

/-- The parts of a list by a key, over keys without repetition. -/
theorem sum_length_filter {α : Type} (key : α → ℤ) {ids : List ℤ} (hnodup : ids.Nodup)
    {l : List α} (h : ∀ a ∈ l, key a ∈ ids) :
    (ids.map fun id => (l.filter fun a => key a = id).length).sum = l.length := by
  rw [← List.sum_toFinset _ hnodup]
  induction l with
  | nil => simp
  | cons a l ih =>
    rw [List.forall_mem_cons] at h
    have hsplit (id : ℤ) : ((a :: l).filter fun b => key b = id).length =
        (l.filter fun b => key b = id).length + if key a = id then 1 else 0 := by
      by_cases hid : key a = id <;> simp [hid]
    simp only [hsplit, Finset.sum_add_distrib, ih h.2, Finset.sum_ite_eq, List.mem_toFinset, h.1,
      if_true, List.length_cons]

/-- An element with a key of its own is the only one with it. -/
theorem filter_eq_singleton {α : Type} {key : α → ℤ} {l : List α} (hnodup : (l.map key).Nodup)
    {a : α} (ha : a ∈ l) : (l.filter fun b => key b = key a) = [a] := by
  induction l with
  | nil => exact absurd ha List.not_mem_nil
  | cons b l ih =>
    rw [List.map_cons, List.nodup_cons] at hnodup
    have hothers : ∀ c ∈ l, key c ≠ key b := fun c hc hkey =>
      hnodup.1 (hkey ▸ List.mem_map_of_mem hc)
    cases List.mem_cons.mp ha with
    | inl hself =>
      subst hself
      rw [List.filter_cons, if_pos (by simp), List.filter_eq_nil_iff.mpr]
      exact fun c hc => by simpa using hothers c hc
    | inr hrest =>
      rw [List.filter_cons, if_neg (by simpa using (hothers a hrest).symm)]
      exact ih hnodup.2 hrest

end Counting

namespace ScenarioResultsPool

/-- The accessor gives the entries of a step, or there are none. -/
theorem accessor_iff {pool : ScenarioResultsPool V} {searchStep : ℤ}
    {results : List (ScenarioResult V)} :
    (pool.getScenarioResultsPerSearchStep searchStep = .ok results ∨
        results = [] ∧ pool.getScenarioResultsPerSearchStep searchStep = .throws "0") ↔
      pool.entriesOf searchStep = results := by
  rw [getScenarioResultsPerSearchStep, entriesOf]
  cases pool.resultsPerSearchStep.get? searchStep with
  | none => simp [eq_comm]
  | some entries => simp

theorem total_of_lists {pushes : List (Pushed V)} {pool : ScenarioResultsPool V}
    (h : Lists pushes pool) (searchStep : ℤ) :
    pool.total searchStep = pushes.countP fun p => p.searchStep = searchStep := by
  obtain ⟨ids, hnodup, hids, haccess⟩ := h searchStep
  have hentries : pool.entriesOf searchStep = _ :=
    accessor_iff.mp (haccess.imp_right fun hnone => ⟨by rw [hnone.1]; rfl, hnone.2⟩)
  have hsum := @sum_length_filter _ Pushed.scenario ids hnodup
    (pushes.filter fun p => p.searchStep = searchStep) (fun p hp => by
      rw [List.mem_filter, decide_eq_true_eq] at hp
      exact (hids _).mpr ⟨p, hp.1, hp.2, rfl⟩)
  rw [total, hentries, List.countP_eq_length_filter, ← hsum, List.map_map]
  congr 1
  refine List.map_congr_left fun id _ => ?_
  simp [pushedFor, List.filter_filter, Bool.and_comm]

/-- The pool lists what was pushed exactly if every result names its scenario and no scenario has
two of them. -/
theorem pushAll_lists_iff (pushes : List (Pushed V)) :
    (∃ pool, pushAll pushes .empty = .ok pool ∧ Lists pushes pool) ↔
      (∀ p ∈ pushes, ∃ id, scenarioId p.property = .ok id) ∧
        (pushes.map Pushed.scenario).Nodup := by
  constructor
  · rintro ⟨pool, hrun, hlists⟩
    refine ⟨pushAll_returns_iff.mp ⟨pool, hrun⟩, ?_⟩
    by_contra hdup
    obtain ⟨searchStep, hless⟩ := (total_pushAll hrun).2 hdup
    exact hless.ne (total_of_lists hlists searchStep).symm
  · rintro ⟨hread, hnodup⟩
    obtain ⟨pool, hrun⟩ := pushAll_returns_iff.mpr hread
    refine ⟨pool, hrun, fun searchStep => ?_⟩
    refine ⟨(pushes.filter fun p => p.searchStep = searchStep).map Pushed.scenario, ?_, ?_, ?_⟩
    · exact hnodup.sublist (List.filter_sublist.map _)
    · intro id
      simp [List.mem_map, and_assoc]
    · refine (accessor_iff.mpr ?_).imp_right (And.imp_left List.map_eq_nil_iff.mp)
      rw [entriesOf_pushAll hrun hnodup, List.map_map]
      refine List.map_congr_left fun p hp => ?_
      rw [List.mem_filter, decide_eq_true_eq] at hp
      have hown : (pushes.filter fun q => q.searchStep = searchStep && q.scenario = p.scenario) =
          [p] := by
        rw [← List.filter_filter, filter_eq_singleton hnodup hp.1]
        simp [hp.2]
      simp [pushedFor, hown]

/-- A result of the scenario 0 in the step 0. -/
def resultOfZero : Pushed ℚ :=
  ⟨{ MetaProperty.emptyProp 0 with addInfo := OrdMap.empty.set "ScenarioID" "0" }, 0⟩

/-- A scenario with two results is listed twice, and its first result is in both entries. -/
theorem not_pushAll_lists_twice :
    ¬ ∃ pool, pushAll [resultOfZero, resultOfZero] .empty = .ok pool ∧
      Lists [resultOfZero, resultOfZero] pool := by
  rintro ⟨pool, hrun, hlists⟩
  have htotal : (pushAll [resultOfZero, resultOfZero] .empty).returnsWith
      fun pool => pool.total 0 == 3 := by decide +kernel
  obtain ⟨pool', hrun', hthree⟩ := Outcome.returnsWith_iff.mp htotal
  obtain rfl := Outcome.ok.inj (hrun.symm.trans hrun')
  rw [total_of_lists hlists 0] at hthree
  exact absurd hthree (by decide)

end ScenarioResultsPool
end ReadexPtf.ScenarioResults
