import ReadexPtf.Autotune.GDE3Crowding
import ReadexPtf.Autotune.GDE3Feasible
import ReadexPtf.Autotune.RationalArith
import Mathlib

/-! Runs of the generational search: what every state that a plugin comes to keeps, and
with it the scenarios, the reduced populations and the optimal ids of all generations. -/
namespace ReadexPtf.Autotune
open ReadexPtf

section Pareto
variable {V : Type} (A : DoubleArith V)

/-- Nowhere larger and somewhere smaller. -/
def ParetoDominates (v w : List V) : Prop :=
  (∀ p ∈ v.zip w, ¬ A.lt p.2 p.1) ∧ ∃ p ∈ v.zip w, A.lt p.1 p.2

instance : DecidableRel (ParetoDominates A) := fun _ _ => inferInstanceAs (Decidable (_ ∧ _))

/-- Neither of two vectors that the comparison leaves both dominates the other. -/
theorem not_paretoDominates_of_dominance {v w : List V} (h : dominance A v w = 0) :
    ¬ ParetoDominates A v w ∧ ¬ ParetoDominates A w v := by
  rw [dominance] at h
  split_ifs at h with hlength hfirst hsecond
  · exact absurd h (by decide)
  · constructor
    · intro hdominates
      apply hfirst
      rw [List.all_eq_true]
      intro p hp
      simpa using hdominates.1 p hp
    · intro hdominates
      apply hsecond
      rw [List.all_eq_true]
      intro p hp
      have hswap : p.swap ∈ w.zip v := by
        rw [← List.zip_swap]
        exact List.mem_map_of_mem hp
      simpa using hdominates.1 p.swap hswap

end Pareto

namespace Generation
variable {V : Type} {A : DoubleArith V} {rand : ℕ → V} {stack : ℕ → ℤ}

/-- The values drawn for one parameter go on to the next space if the filter passes them. -/
theorem iterateTP_single {next : List TuningSpecification → String → Generation →
    Outcome Generation} {tp : TuningParameter} {space : SearchSpace} {t : TuningSpecification}
    {value : ℤ} {ts : List TuningSpecification} {uniqueConfig : String} {g : Generation}
    (hspace : space.variantSpace = [tp])
    (hdrawn : drawnValue A tp (rand g.drawn) = .ok value)
    (hcheck : checkFeasible (OrdMap.empty.set tp.addr value) [tp] = .ok true)
    (hspec : specification false space (OrdMap.empty.set tp.addr value) = .ok t)
    (hattempts : g.noAttempts + 1 ≠ g.maxAttempts) :
    iterateTP A rand false next space [tp] .empty ts uniqueConfig g =
      next (ts ++ [t]) (uniqueConfig ++ configString (OrdMap.empty.set tp.addr value))
        { g with drawn := g.drawn + 1, noAttempts := g.noAttempts + 1 } := by
  rw [iterateTP, uniform]
  simp only [hdrawn, Outcome.ok_bind]
  rw [iterateTP]
  simp only [hattempts, if_false, hspace, hcheck, Outcome.ok_bind, if_true, hspec]

/-- The first parent of a population of one is its only member. -/
theorem createParents_single {tp : TuningParameter} {region : String} {value : ℤ}
    {g : Generation} (hspaces : g.searchSpaces = [⟨[region], [], [tp]⟩])
    (hdrawn : drawnValue A tp (rand g.drawn) = .ok value)
    (hcheck : checkFeasible (OrdMap.empty.set tp.addr value) [tp] = .ok true)
    (hpopulation : g.population = []) (hpopul : g.populElem = []) (hsize : g.populationSize = 1)
    (hcreated : g.memberCreated = 0) (hattempts : g.noAttempts + 1 < g.maxAttempts) :
    ∃ g', createParents A rand false 1 g = .ok (g', false) ∧ g'.population = [g.nextId] ∧
      g'.scenarios = g.scenarios.set g.nextId ⟨g.nextId,
        [listSpecification false (OrdMap.empty.set tp.addr value) [region]]⟩ := by
  have hiterate : ∃ g₁, iterateSS A rand false g.searchSpaces [] "" g = .ok g₁ ∧
      g₁.memberCreated = 1 ∧ g₁.populationSize = 1 ∧ g₁.noAttempts = 0 ∧
      g₁.maxAttempts = g.maxAttempts ∧ g₁.population = [g.nextId] ∧
      g₁.scenarios = g.scenarios.set g.nextId ⟨g.nextId,
        [listSpecification false (OrdMap.empty.set tp.addr value) [region]]⟩ := by
    rw [hspaces, iterateSS, iterateTP_single rfl hdrawn hcheck rfl hattempts.ne, iterateSS]
    simp [hpopul, pushScenario, hcreated, hsize, hpopulation]
  obtain ⟨g₁, hiterate, hcreated₁, hsize₁, hattempts₁, hmax₁, hpopulation₁, hscenarios₁⟩ := hiterate
  have hmax : g₁.noAttempts ≠ g₁.maxAttempts := by omega
  refine ⟨g₁, ?_, hpopulation₁, hscenarios₁⟩
  rw [createParents, if_neg (by simp [hpopulation]), Outcome.whileLoop]
  simp [hcreated, hsize, hiterate, Outcome.whileLoop, hcreated₁, hsize₁, hmax]

theorem createScenarios_single {tp : TuningParameter} {region : String} {value : ℤ}
    {g : Generation} (hspaces : g.searchSpaces = [⟨[region], [], [tp]⟩])
    (hdrawn : drawnValue A tp (rand g.drawn) = .ok value)
    (hcheck : checkFeasible (OrdMap.empty.set tp.addr value) [tp] = .ok true)
    (hpopulation : g.population = []) (hpopul : g.populElem = []) (hsize : g.populationSize = 1)
    (hattempts : 1 < g.maxAttempts) :
    ∃ g', createScenarios A rand stack false 1 g = .ok g' ∧
      g'.scenarios = g.scenarios.set g.nextId ⟨g.nextId,
        [listSpecification false (OrdMap.empty.set tp.addr value) [region]]⟩ := by
  obtain ⟨g₀, hg₀⟩ : ∃ g₀ : Generation, g₀ = { g with
    generationNo := g.generationNo + 1, noAttempts := 0, memberCreated := 0 } := ⟨_, rfl⟩
  have hspaces₀ : g₀.searchSpaces = [⟨[region], [], [tp]⟩] := by rw [hg₀, hspaces]
  have hdrawn₀ : drawnValue A tp (rand g₀.drawn) = .ok value := by rw [hg₀, hdrawn]
  obtain ⟨g', hparents, hpopulation', hscenarios⟩ := createParents_single hspaces₀ hdrawn₀ hcheck
    (by rw [hg₀, hpopulation]) (by rw [hg₀, hpopul])
    (by rw [hg₀, hsize]) (by rw [hg₀]) (by rw [hg₀]; exact hattempts)
  refine ⟨g', ?_, by rw [hscenarios, hg₀]⟩
  rw [createScenarios]
  simp only [← hg₀, hparents, Outcome.ok_bind]
  rw [if_pos (by simp [hpopulation'])]
  rfl

end Generation

namespace GDE3Search
variable {V : Type} {env : Environment V} {A : DoubleArith V} {srp : ResultsPool V}

/-- What holds of a search between two calls. -/
structure Consistent (search : GDE3Search V) : Prop where
  ready : search.Ready
  registered : search.toGeneration.Registered

theorem consistent_start (nextId drawn : ℕ) : (start env nextId drawn).Consistent := by
  constructor
  · constructor
    · exact ⟨.nil, fun id hid => absurd hid List.not_mem_nil⟩
    · exact ⟨fun i c h => absurd h (by simp [start]), fun i c j h => absurd h (by simp [start]),
        fun i j c h => absurd h (by simp [start])⟩
    · exact .nil
    · exact fun id hid => absurd hid List.not_mem_nil
    · rfl
  · constructor
    · exact fun id hid => absurd (OrdMap.mem_keys.mp hid) (by simp [start])
    · exact fun id sc h => absurd h (by simp [start])
    · exact fun id id' sc sc' h => absurd h (by simp [start])

/-- Neither the log nor the count of equal generations changes the population. -/
theorem searchFinished_eq_ok {search s : GDE3Search V} {order : Traversal (List V)}
    {timerExceeded b : Bool}
    (h : search.searchFinished A order srp timerExceeded = .ok (s, b)) :
    ∃ e r, search.evaluateChildren A srp = .ok e ∧ e.reducePopulation A order srp = .ok r ∧
      s = r.logObjectives.countEqualGenerations := by
  cases he : search.evaluateChildren A srp with
  | ok e =>
    rw [searchFinished, he, Outcome.ok_bind] at h
    cases hr : e.reducePopulation A order srp with
    | ok r =>
      rw [hr, Outcome.ok_bind] at h
      exact ⟨e, r, rfl, hr, (Prod.mk.inj (Outcome.ok.inj h)).1.symm⟩
    | _ => exact absurd h (by simp [hr])
  | _ => exact absurd h (by simp [searchFinished, he])

theorem Ready.logged {search : GDE3Search V} (h : search.Ready) :
    search.logObjectives.countEqualGenerations.Ready :=
  ⟨⟨h.members.1, h.members.2⟩, ⟨h.family.1, h.family.2, h.family.3⟩, h.nodup, h.optimal, h.settled⟩

theorem Consistent.searchFinished {search s : GDE3Search V} (h : search.Consistent)
    {order : Traversal (List V)} {timerExceeded b : Bool}
    (hrun : search.searchFinished A order srp timerExceeded = .ok (s, b)) : s.Consistent := by
  obtain ⟨e, r, he, hr, hs⟩ := searchFinished_eq_ok hrun
  have hevaluated := h.ready.evaluateChildren he
  have hreduced := hevaluated.ready.reducePopulation hr
  have huntouched := hevaluated.untouched.trans hreduced.2
  subst hs
  refine ⟨hreduced.1.logged, ?_⟩
  constructor
  · have hgoal := h.registered.older
    rw [← huntouched.scenarios, ← huntouched.nextId] at hgoal
    exact hgoal
  · have hgoal := h.registered.known
    rw [← huntouched.scenarios, ← huntouched.populElem] at hgoal
    exact hgoal
  · have hgoal := h.registered.distinct
    rw [← huntouched.scenarios] at hgoal
    exact hgoal

theorem createScenarios_eq_ok {search s : GDE3Search V} {rounds : ℕ}
    (h : search.createScenarios env rounds = .ok s) :
    search.toGeneration.createScenarios env.arith env.rand env.stack env.rts rounds =
      .ok s.toGeneration ∧ s.optimalIds = search.optimalIds ∧
      s.tobeDropped = search.tobeDropped := by
  cases hg : search.toGeneration.createScenarios env.arith env.rand env.stack env.rts rounds with
  | ok g =>
    rw [createScenarios, hg, Outcome.ok_bind] at h
    exact Outcome.ok.inj h ▸ ⟨rfl, rfl, rfl⟩
  | _ => exact absurd h (by simp [createScenarios, hg])

theorem Consistent.createScenarios {search s : GDE3Search V} (h : search.Consistent) {rounds : ℕ}
    (hrun : search.createScenarios env rounds = .ok s) : s.Consistent := by
  obtain ⟨hcreate, hoptimal, hdropped⟩ := createScenarios_eq_ok hrun
  obtain ⟨hgrown, hfamily⟩ := Generation.createScenarios_grown h.ready.family hcreate
  refine ⟨⟨hgrown.members h.ready.members, hfamily, ?_, ?_, ?_⟩, hgrown.registered h.registered⟩
  · exact hoptimal ▸ h.ready.nodup
  · rw [hoptimal]
    exact fun id hid => hgrown.population.subset (h.ready.optimal id hid)
  · exact hdropped.trans h.ready.settled

/-- The counters of the process only grow. -/
theorem Consistent.elsewhere {search : GDE3Search V} (h : search.Consistent) (made drawn : ℕ) :
    ({ search with nextId := search.nextId + made, drawn := search.drawn + drawn } :
      GDE3Search V).Consistent := by
  have hmembers := h.ready.members
  have hregistered := h.registered
  refine ⟨⟨⟨hmembers.sorted, fun id hid => ?_⟩, ⟨h.ready.family.1, h.ready.family.2,
    h.ready.family.3⟩, h.ready.nodup, h.ready.optimal, h.ready.settled⟩,
    ⟨fun id hid => ?_, hregistered.known, hregistered.distinct⟩⟩
  · exact Nat.lt_add_right made (hmembers.older id hid)
  · exact Nat.lt_add_right made (hregistered.older id hid)

theorem Consistent.step {search s : GDE3Search V} (h : search.Consistent) {op : GDE3Op V}
    (hstep : search.step env op = .ok s) : s.Consistent := by
  have hready := h.ready
  have hregistered := h.registered
  have hmembers : search.toGeneration.Members := hready.members
  have hfamily := hready.family
  cases op with
  | addSearchSpace space | addObjectiveFunction obj | setPopulationSize size
  | setMaxGenerations number =>
    exact Outcome.ok.inj hstep ▸ ⟨⟨⟨hmembers.1, hmembers.2⟩, ⟨hfamily.1, hfamily.2, hfamily.3⟩,
      hready.nodup, hready.optimal, hready.settled⟩,
      ⟨hregistered.1, hregistered.2, hregistered.3⟩⟩
  | createScenarios rounds => exact h.createScenarios hstep
  | searchFinished srp timerExceeded =>
    cases hrun : search.searchFinished env.arith env.order srp timerExceeded with
    | ok out =>
      rw [GDE3Search.step, hrun] at hstep
      exact Outcome.ok.inj hstep ▸ h.searchFinished hrun
    | _ => exact absurd hstep (by simp [GDE3Search.step, hrun])
  | clear => exact Outcome.ok.inj hstep ▸ h
  | elsewhere made drawn => exact Outcome.ok.inj hstep ▸ h.elsewhere made drawn

theorem Reachable.consistent {search : GDE3Search V} (h : Reachable env search) :
    search.Consistent := by
  obtain ⟨nextId, drawn, ops, hrun⟩ := h
  exact Outcome.foldlM_invariant Consistent (fun _ _ _ hs hstep => hs.step hstep) _ _ _
    (consistent_start nextId drawn) hrun

theorem Untouched.objectiveValues {search s : GDE3Search V} (h : Untouched search s) :
    s.objectiveValues srp = search.objectiveValues srp := by
  funext id
  rw [GDE3Search.objectiveValues, GDE3Search.objectiveValues, h.objectiveFunctions]

/-- Comparing parents with children records what the members were told by before. -/
theorem Evaluated.recorded_eq {search e : GDE3Search V} (h : Evaluated A srp search e) (k : ℕ) :
    e.recorded srp k = search.recorded srp k := by
  rw [recorded, recorded, h.untouched.objectiveValues, h.population]
  by_cases hsurvivor : k ∈ survivors A srp search
  · have hmember : k ∈ search.population := (unmarked_sublist _ _).subset hsurvivor
    rw [if_pos hsurvivor, if_pos hmember]
  · rw [if_neg hsurvivor]
    by_cases hmember : k ∈ search.population
    · rw [if_pos hmember]
      exact h.records.now k ⟨hmember, hsurvivor⟩
    · rw [if_neg hmember]
      exact h.records.elsewhere k hmember

theorem Evaluated.separable {search e : GDE3Search V} (h : Evaluated A srp search e)
    (hreducible : search.Reducible A srp) : e.Separable A srp := by
  rw [Separable, h.untouched.objectiveValues, h.untouched.populationSize, h.population]
  cases hreducible with
  | inl hfew => exact .inl hfew
  | inr hapart =>
    refine .inr ⟨hapart.1, hapart.2.1, fun m hm k v hget hequal => ?_⟩
    rw [h.recorded_eq] at hget
    rw [h.untouched.objectiveValues] at hequal
    exact hapart.2.2 m hm k v hget hequal

/-- In every run, a population that is too large after the comparison of parents and children
is reduced to its size as long as it is reducible. -/
theorem searchFinished_reduces {search s : GDE3Search V} (hreachable : Reachable env search)
    {timerExceeded b : Bool}
    (hover : search.populationSize < (survivors env.arith srp search).length)
    (hreducible : search.Reducible env.arith srp)
    (hrun : search.searchFinished env.arith env.order srp timerExceeded = .ok (s, b)) :
    Reduced search s := by
  obtain ⟨e, r, he, hr, hs⟩ := searchFinished_eq_ok hrun
  have hevaluated := hreachable.consistent.ready.evaluateChildren he
  have hover' : e.populationSize < e.population.length := by
    rw [hevaluated.untouched.populationSize, hevaluated.population]
    exact hover
  have hreduced := hevaluated.ready.reduced_of_separable hover' (hevaluated.separable hreducible) hr
  subst hs
  refine ⟨hreduced.size, hreduced.nodup, fun id hid => ?_, hreduced.optimal⟩
  have hsurvivor := hreduced.previous id hid
  rw [hevaluated.population] at hsurvivor
  exact (unmarked_sublist _ _).subset hsurvivor

/-- The members `parentId` and `childId` are compared by the loop over the parents. -/
def Paired (search : GDE3Search V) (parentId childId : ℕ) : Prop :=
  ∃ i c, search.parentChildMap.get? i = some c ∧ search.population[i]? = some parentId ∧
    search.population[c]? = some childId

/-- The members whose ids are optimal after the comparison: they stay, and have been optimal
before or are compared. -/
def Elected (A : DoubleArith V) (srp : ResultsPool V) (search : GDE3Search V) (id : ℕ) : Prop :=
  id ∈ survivors A srp search ∧
    (id ∈ search.optimalIds ∨ ∃ other, search.Paired id other ∨ search.Paired other id)

/-- No member that is elected is dominated by a member that it is not compared with. -/
def Unrivalled (A : DoubleArith V) (srp : ResultsPool V) (search : GDE3Search V) : Prop :=
  ∀ id k, search.Elected A srp id → k ∈ survivors A srp search → ¬ search.Paired id k →
    ¬ search.Paired k id →
    ¬ ParetoDominates A (search.objectiveValues srp k) (search.objectiveValues srp id)

theorem Ready.comparedIn_iff {search : GDE3Search V} (h : search.Ready) (id : ℕ) :
    ComparedIn search.population (search.childPairs search.population.length) id ↔
      ∃ other, search.Paired id other ∨ search.Paired other id := by
  constructor
  · intro ⟨⟨i, c⟩, hpair, hid⟩
    have hchild := (mem_childPairs.mp hpair).2
    have hinside := h.family.inside i c hchild
    have hlater := h.family.later i c i hchild (OrdMap.mem_keys.mpr ⟨c, hchild⟩)
    simp only at hchild hid
    cases hid with
    | inl hparent =>
      exact ⟨_, .inl ⟨i, c, hchild, hparent, List.getElem?_eq_getElem hinside⟩⟩
    | inr hself =>
      have hlt : i < search.population.length := by omega
      exact ⟨_, .inr ⟨i, c, hchild, List.getElem?_eq_getElem hlt, hself⟩⟩
  · intro ⟨other, hpaired⟩
    cases hpaired with
    | inl hparent =>
      obtain ⟨i, c, hchild, hi, hc⟩ := hparent
      exact ⟨(i, c), mem_childPairs.mpr ⟨(List.getElem?_eq_some_iff.mp hi).1, hchild⟩, .inl hi⟩
    | inr hself =>
      obtain ⟨i, c, hchild, hi, hc⟩ := hself
      exact ⟨(i, c), mem_childPairs.mpr ⟨(List.getElem?_eq_some_iff.mp hi).1, hchild⟩, .inr hc⟩

/-- Parent and child stay both only if neither dominates the other. -/
theorem Paired.not_dominates {search : GDE3Search V} {parentId childId : ℕ}
    (h : search.Paired parentId childId) (hnodup : search.population.Nodup)
    (hparent : parentId ∈ survivors A srp search) (hchild : childId ∈ survivors A srp search) :
    dominance A (search.objectiveValues srp parentId) (search.objectiveValues srp childId) = 0 := by
  obtain ⟨i, c, hget, hi, hc⟩ := h
  have hstays : ∀ j id, search.population[j]? = some id → id ∈ survivors A srp search →
      j ∉ pairLosers A srp search := by
    intro j id hj hid
    obtain ⟨j', hj', hnot⟩ := mem_unmarked.mp hid
    have hlt := (List.getElem?_eq_some_iff.mp hj).1
    exact (List.getElem?_inj hlt hnodup).mp (hj.trans hj'.symm) ▸ hnot
  have hpair : (i, c) ∈ search.childPairs search.population.length :=
    mem_childPairs.mpr ⟨(List.getElem?_eq_some_iff.mp hi).1, hget⟩
  by_contra hne
  have hloser : loser A (search.objectiveValues srp) search.population i c = _ := loser_eq A hi hc
  cases (lt_or_gt_of_ne hne) with
  | inl hneg =>
    rw [dropped_eq_some.mpr (.inl ⟨hneg, rfl⟩)] at hloser
    exact hstays c childId hc hchild ((mem_losers A).mpr ⟨(i, c), hpair, hloser⟩)
  | inr hpos =>
    rw [dropped_eq_some.mpr (.inr ⟨hpos, rfl⟩)] at hloser
    exact hstays i parentId hi hparent ((mem_losers A).mpr ⟨(i, c), hpair, hloser⟩)

/-- In every generation of a run, no optimal id is dominated after the comparison of parents
and children if and only if none of them is dominated by a member of another pair. -/
theorem evaluateChildren_optimal_iff {search s : GDE3Search V} (hreachable : Reachable env search)
    (hrun : search.evaluateChildren env.arith srp = .ok s) :
    (∀ id ∈ s.optimalIds, ∀ k ∈ s.population, ¬ ParetoDominates env.arith
        (s.objectiveValues srp k) (s.objectiveValues srp id)) ↔
      search.Unrivalled env.arith srp := by
  have hready := hreachable.consistent.ready
  have hevaluated := hready.evaluateChildren hrun
  rw [hevaluated.untouched.objectiveValues, hevaluated.population]
  have helected : ∀ id, id ∈ s.optimalIds ↔ search.Elected env.arith srp id := by
    intro id
    rw [hevaluated.optimal, hready.comparedIn_iff]
    rfl
  constructor
  · intro h id k hid hk _ _
    exact h id ((helected id).mpr hid) k hk
  · intro h id hid k hk
    have hid' := (helected id).mp hid
    by_cases hparent : search.Paired id k
    · exact (not_paretoDominates_of_dominance env.arith
        (hparent.not_dominates hready.population_nodup hid'.1 hk)).2
    · by_cases hchild : search.Paired k id
      · exact (not_paretoDominates_of_dominance env.arith
          (hchild.not_dominates hready.population_nodup hk hid'.1)).1
      · exact h id k hid' hk hparent hchild

/-- The values of a parameter of every new scenario are feasible, and no two scenarios have the
same values, in every run whose parameters the filter tests well enough. -/
theorem createScenarios_feasible {search s : GDE3Search V} (hreachable : Reachable env search)
    {rounds : ℕ} (htested : ∀ space ∈ search.searchSpaces, space.Tested)
    (hrun : search.createScenarios env rounds = .ok s) :
    (∀ id sc, s.scenarios.get? id = some sc →
      search.scenarios.get? id = some sc ∨ FeasibleIn search.searchSpaces sc.ts) ∧
    ∀ id id' sc sc', s.scenarios.get? id = some sc → s.scenarios.get? id' = some sc' →
      valueVector sc.ts = valueVector sc'.ts → id = id' := by
  have hcreate := (createScenarios_eq_ok hrun).1
  have hgrown := (Generation.createScenarios_grown hreachable.consistent.ready.family hcreate).1
  have hregistered := hgrown.registered hreachable.consistent.registered
  constructor
  · intro id sc hsc
    cases hgrown.made id sc hsc with
    | inl hold => exact .inl hold
    | inr hwalked => exact .inr (hwalked htested)
  · intro id id' sc sc' hsc hsc' hvalues
    exact hregistered.distinct id id' sc sc' hsc hsc' (uniqueConfigOf_congr hvalues)

/-- With one search space of one parameter and a population of one, the first value drawn is
created if it passes the filter. -/
theorem createScenarios_single {tp : TuningParameter} (region : String) {value : ℤ}
    (hdrawn : Generation.drawnValue env.arith tp (env.rand 0) = .ok value)
    (hcheck : checkFeasible (OrdMap.empty.set tp.addr value) [tp] = .ok true)
    (hrts : env.rts = false) :
    ∃ search s, Reachable env search ∧ search.searchSpaces = [⟨[region], [], [tp]⟩] ∧
      search.scenarios = .empty ∧ search.createScenarios env 1 = .ok s ∧
      s.scenarios.get? 0 = some ⟨0, [listSpecification false (OrdMap.empty.set tp.addr value)
        [region]]⟩ := by
  obtain ⟨search, hsearch⟩ : ∃ search : GDE3Search V, search =
      { start env 0 0 with searchSpaces := [⟨[region], [], [tp]⟩], populationSize := 1 } := ⟨_, rfl⟩
  have hreachable : Reachable env search :=
    ⟨0, 0, [.addSearchSpace ⟨[region], [], [tp]⟩, .setPopulationSize 1], by rw [hsearch]; rfl⟩
  have hspaces : search.searchSpaces = [⟨[region], [], [tp]⟩] := by rw [hsearch]
  have hdrawn₀ : Generation.drawnValue env.arith tp (env.rand search.drawn) = .ok value := by
    rw [hsearch]
    exact hdrawn
  have hcreate : ∃ g, Generation.createScenarios env.arith env.rand env.stack false 1
      search.toGeneration = .ok g ∧ _ := Generation.createScenarios_single hspaces hdrawn₀ hcheck
    (by rw [hsearch]; rfl) (by rw [hsearch]; rfl) (by rw [hsearch])
    (by rw [hsearch]; show 1 < 10000; decide)
  obtain ⟨g, hg, hscenarios⟩ := hcreate
  refine ⟨search, { search with
    objectiveFunctions :=
      if search.objectiveFunctions = [] then [env.minObjective] else search.objectiveFunctions
    toGeneration := g }, hreachable, by rw [hsearch], by rw [hsearch]; rfl, ?_, ?_⟩
  · rw [GDE3Search.createScenarios, hrts, hg]
    rfl
  · have hid : search.nextId = 0 := by
      rw [hsearch]
      rfl
    simp only [hscenarios, hid, OrdMap.get?_set, if_true]

end GDE3Search

section Generations
open GDE3Search

/-- A grid of sixteen values. -/
def gridSpace : SearchSpace := ⟨["region"], [], [⟨0, 0, 15, 1, none⟩]⟩

/-- Random numbers for the parents 0, 3, 6, 9, 12 and the children 8, 2, 5, 14, 11. -/
def gridDraws : List ℚ :=
  [0, 3 / 15, 6 / 15, 9 / 15, 12 / 15] ++
    ([[4, 3, 2], [4, 3, 0], [4, 3, 1], [2, 1, 4], [2, 1, 3]] : List (List ℚ)).flatMap
      fun random => random.map (fun k => (2 * k + 1) / 10) ++ [0, 0]

def gridEnvironment : Environment ℚ where
  arith := ratArith
  rand n := gridDraws.getD n 0
  stack _ := -1
  rts := false
  order := .inserted
  minObjective id srp := (srp id).headD 0

/-- Two objectives, five parents and their five children. -/
def gridOps : List (GDE3Op ℚ) :=
  [.addSearchSpace gridSpace, .setPopulationSize 5,
    .addObjectiveFunction fun id srp => (srp id).getD 0 0,
    .addObjectiveFunction fun id srp => (srp id).getD 1 0, .createScenarios 10]

def resultsOf (results : List (List ℚ)) : ResultsPool ℚ := fun id => results.getD id []

/-- A state after the ten members have been made that has a decidable property. -/
theorem exists_grid {p : GDE3Search ℚ → Bool}
    (h : ((start gridEnvironment 0 0).run gridEnvironment gridOps).returnsWith p) :
    ∃ search, Reachable gridEnvironment search ∧ p search := by
  obtain ⟨search, hrun, hp⟩ := Outcome.returnsWith_iff.mp h
  exact ⟨search, ⟨0, 0, gridOps, hrun⟩, hp⟩

/-- Pairs that stay, of which all but one are dominated by its members. -/
def crowdedResults : ResultsPool ℚ := resultsOf
  [[0, 1], [5, 6], [5, 6], [5, 6], [5, 6], [1, 0], [6, 5], [6, 5], [6, 5], [6, 5]]

set_option maxRecDepth 10000 in
theorem searchFinished_reduces_grid : ∃ search s b, Reachable gridEnvironment search ∧
    search.populationSize < (survivors ratArith crowdedResults search).length ∧
    search.searchFinished ratArith .inserted crowdedResults false = .ok (s, b) ∧
    Reduced search s := by
  have h : ((start gridEnvironment 0 0).run gridEnvironment gridOps).returnsWith fun search =>
      decide (search.populationSize < (survivors ratArith crowdedResults search).length) &&
      (decide ((undominated ratArith (search.objectiveValues crowdedResults)
        (survivors ratArith crowdedResults search)).length ≤ search.populationSize) &&
      (search.searchFinished ratArith .inserted crowdedResults false).returnsWith fun _ => true) := by
    decide +kernel
  obtain ⟨search, hreachable, hp⟩ := exists_grid h
  simp only [Bool.and_eq_true, decide_eq_true_eq] at hp
  obtain ⟨⟨s, b⟩, hrun, -⟩ := Outcome.returnsWith_iff.mp hp.2.2
  exact ⟨search, s, b, hreachable, hp.1, hrun,
    searchFinished_reduces hreachable hp.1 (.inl hp.2.1) hrun⟩

def lostResults : ResultsPool ℚ := resultsOf
  [[44, 24], [50, 16], [72, 20], [8, 72], [41, 28], [45, 25], [51, 17], [73, 21], [26, 48], [56, 8]]

set_option maxRecDepth 10000 in
theorem searchFinished_not_reduces : ¬ ∀ {V : Type} {env : Environment V} {srp : ResultsPool V}
    {search s : GDE3Search V} {timerExceeded b : Bool}, Reachable env search →
    search.populationSize < (survivors env.arith srp search).length →
    search.searchFinished env.arith env.order srp timerExceeded = .ok (s, b) →
    Reduced search s := by
  intro hall
  have h : ((start gridEnvironment 0 0).run gridEnvironment gridOps).returnsWith fun search =>
      decide (search.populationSize < (survivors ratArith lostResults search).length) &&
      (search.searchFinished ratArith .inserted lostResults false).returnsWith fun out =>
        decide (out.1.population.length ≠ out.1.populationSize) := by
    decide +kernel
  obtain ⟨search, hreachable, hp⟩ := exists_grid h
  simp only [Bool.and_eq_true, decide_eq_true_eq] at hp
  obtain ⟨⟨s, b⟩, hrun, hsize⟩ := Outcome.returnsWith_iff.mp hp.2
  exact of_decide_eq_true hsize (hall hreachable hp.1 hrun).size

/-- A parent that wins against its child, and is dominated by another that does. -/
def rivalResults : ResultsPool ℚ := resultsOf
  [[1, 1], [3, 3], [1, 5], [5, 1], [1, 6], [2, 2], [4, 4], [5, 1], [1, 5], [6, 1]]

set_option maxRecDepth 10000 in
theorem evaluateChildren_not_optimal : ¬ ∀ {V : Type} {env : Environment V}
    {srp : ResultsPool V} {search s : GDE3Search V}, Reachable env search →
    search.evaluateChildren env.arith srp = .ok s →
    ∀ id ∈ s.optimalIds, ∀ k ∈ s.population, ¬ ParetoDominates env.arith
      (s.objectiveValues srp k) (s.objectiveValues srp id) := by
  intro hall
  have h : ((start gridEnvironment 0 0).run gridEnvironment gridOps).returnsWith fun search =>
      (search.evaluateChildren ratArith rivalResults).returnsWith fun s =>
        decide (1 ∈ s.optimalIds ∧ 0 ∈ s.population ∧ ParetoDominates ratArith
          (s.objectiveValues rivalResults 0) (s.objectiveValues rivalResults 1)) := by
    decide +kernel
  obtain ⟨search, hreachable, hp⟩ := exists_grid h
  obtain ⟨s, hrun, hs⟩ := Outcome.returnsWith_iff.mp hp
  obtain ⟨hid, hk, hdominates⟩ := of_decide_eq_true hs
  exact hall hreachable hrun 1 hid 0 hk hdominates

set_option maxRecDepth 10000 in
theorem evaluateChildren_optimal_iff_grid : ∃ search s, Reachable gridEnvironment search ∧
    search.evaluateChildren ratArith rivalResults = .ok s ∧
    ((∀ id ∈ s.optimalIds, ∀ k ∈ s.population, ¬ ParetoDominates ratArith
        (s.objectiveValues rivalResults k) (s.objectiveValues rivalResults id)) ↔
      search.Unrivalled ratArith rivalResults) := by
  have h : ((start gridEnvironment 0 0).run gridEnvironment gridOps).returnsWith fun search =>
      (search.evaluateChildren ratArith rivalResults).returnsWith fun _ => true := by
    decide +kernel
  obtain ⟨search, hreachable, hp⟩ := exists_grid h
  obtain ⟨s, hrun, -⟩ := Outcome.returnsWith_iff.mp hp
  exact ⟨search, s, hreachable, hrun, evaluateChildren_optimal_iff hreachable hrun⟩

/-- A new member of the grid is feasible there. -/
theorem createScenarios_feasible_grid : ∃ search s, Reachable gridEnvironment search ∧
    search.createScenarios gridEnvironment 10 = .ok s ∧ s.scenarios.keys.length = 10 ∧
    (∀ id sc, s.scenarios.get? id = some sc →
      search.scenarios.get? id = some sc ∨ FeasibleIn search.searchSpaces sc.ts) ∧
    ∀ id id' sc sc', s.scenarios.get? id = some sc → s.scenarios.get? id' = some sc' →
      valueVector sc.ts = valueVector sc'.ts → id = id' := by
  have h : ((start gridEnvironment 0 0).run gridEnvironment
      [.addSearchSpace gridSpace, .setPopulationSize 5]).returnsWith fun search =>
      decide (search.searchSpaces = [gridSpace]) &&
      (search.createScenarios gridEnvironment 10).returnsWith fun s =>
        decide (s.scenarios.keys.length = 10) := by
    decide +kernel
  obtain ⟨search, hrun, hp⟩ := Outcome.returnsWith_iff.mp h
  simp only [Bool.and_eq_true, decide_eq_true_eq] at hp
  obtain ⟨s, hcreate, hkeys⟩ := Outcome.returnsWith_iff.mp hp.2
  have hreachable : Reachable gridEnvironment search := ⟨0, 0, _, hrun⟩
  have htested : ∀ space ∈ search.searchSpaces, space.Tested := by
    rw [hp.1]
    intro space hspace
    rw [List.mem_singleton.mp hspace]
    intro tp htp
    rw [List.mem_singleton.mp htp]
    decide
  exact ⟨search, s, hreachable, hcreate, of_decide_eq_true hkeys,
    createScenarios_feasible hreachable htested hcreate⟩

/-- A range of negative numbers whose second step is past its end. -/
def negativeParameter : TuningParameter := ⟨0, -2147483644, -1, 2147483647, none⟩

def negativeSpace : SearchSpace := ⟨["region"], [], [negativeParameter]⟩

def negativeEnvironment : Environment ℚ where
  arith := ratArith
  rand _ := 9 / 10
  stack _ := -1
  rts := false
  order := .inserted
  minObjective id srp := (srp id).headD 0

def negativeSearch : GDE3Search ℚ :=
  { start negativeEnvironment 0 0 with searchSpaces := [negativeSpace], populationSize := 1 }

/-- The counter passes zero and meets the end of the range after 2^33 steps. -/
theorem checkValue_negative : negativeParameter.checkValue (-1) = .ok true := by
  have hreaches : onStep (2 ^ 64 - 1) 2147483647 (2 ^ 64 - 1) (2 ^ 64)
      ((2 ^ 64 - 2147483644) % 2 ^ 64) = .ok true :=
    onStep_reaches 8589934597 (2 ^ 64) (2 ^ 64 - 2147483644) (by decide)
      (fun j _ => by omega) (by decide)
  have hfrom : toSize (-2147483644) = (2 ^ 64 - 2147483644) % 2 ^ 64 := by decide
  have hto : toSize (-1) = 2 ^ 64 - 1 := by decide
  have hstep : toSize 2147483647 = 2147483647 := by decide
  rw [TuningParameter.checkValue, negativeParameter]
  simp only
  rw [if_neg (by decide), if_neg (by decide), hfrom, hto, hstep]
  exact hreaches

theorem createScenarios_not_feasible : ¬ ∀ {V : Type} {env : Environment V}
    {search s : GDE3Search V} {rounds : ℕ}, Reachable env search →
    search.createScenarios env rounds = .ok s →
    ∀ id sc, s.scenarios.get? id = some sc →
      search.scenarios.get? id = some sc ∨ FeasibleIn search.searchSpaces sc.ts := by
  intro hall
  have hdrawn : Generation.drawnValue ratArith negativeParameter (9 / 10) = .ok (-1) := by
    decide +kernel
  have hget : ((OrdMap.empty.set negativeParameter.addr (-1) : Variant).get?
      negativeParameter.addr).getD 0 = -1 := by decide
  have hcheck : checkFeasible (OrdMap.empty.set negativeParameter.addr (-1))
      [negativeParameter] = .ok true := by
    rw [checkFeasible, hget, checkValue_negative]
    rfl
  obtain ⟨search, s, hreachable, hspaces, hscenarios, hrun, hsc⟩ :=
    @createScenarios_single ℚ negativeEnvironment _ "region" _ hdrawn hcheck rfl
  cases hall hreachable hrun 0 _ hsc with
  | inl hold => exact absurd hold (by simp [hscenarios])
  | inr hfeasible =>
    rw [hspaces] at hfeasible
    cases hfeasible with
    | cons hfirst hrest =>
      have hvalue := hfirst negativeParameter List.mem_cons_self
      simp only [listSpecification] at hvalue
      rw [hget] at hvalue
      obtain ⟨hto, k, hk⟩ := hvalue
      simp only [negativeParameter] at hk
      omega

end Generations
end ReadexPtf.Autotune
