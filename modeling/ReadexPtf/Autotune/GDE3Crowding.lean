import ReadexPtf.Autotune.GDE3Reduction

/-! The reduction to the population size. The crowding loop looks members up by their
objective vectors, so it removes one member in each round only where these tell the
members apart from all scenarios recorded before them. -/
namespace ReadexPtf.Autotune
open ReadexPtf

section Vectors
variable {V : Type} {A : DoubleArith V}

theorem vecEq_symm : ∀ {v w : List V}, A.vecEq v w → A.vecEq w v := by
  intro v
  induction v with
  | nil =>
    intro w h
    cases w with
    | nil => exact h
    | cons y ys => exact absurd h (by simp [DoubleArith.vecEq])
  | cons x xs ih =>
    intro w h
    cases w with
    | nil => exact absurd h (by simp [DoubleArith.vecEq])
    | cons y ys =>
      simp only [DoubleArith.vecEq, List.isEqv, Bool.and_eq_true] at h ⊢
      exact ⟨A.eq_symm x y h.1, ih h.2⟩

theorem vecEq_trans : ∀ {u v w : List V}, A.vecEq u v → A.vecEq v w → A.vecEq u w := by
  intro u
  induction u with
  | nil =>
    intro v w h h'
    cases v with
    | nil => exact h'
    | cons y ys => exact absurd h (by simp [DoubleArith.vecEq])
  | cons x xs ih =>
    intro v w h h'
    cases v with
    | nil => exact absurd h (by simp [DoubleArith.vecEq])
    | cons y ys =>
      cases w with
      | nil => exact absurd h' (by simp [DoubleArith.vecEq])
      | cons z zs =>
        simp only [DoubleArith.vecEq, List.isEqv, Bool.and_eq_true] at h h' ⊢
        exact ⟨A.eq_trans x y z h.1 h'.1, ih h.2 h'.2⟩

theorem mem_of_mem_neighbours {α : Type} {p : α × α × α} {l : List α} (h : p ∈ neighbours l) :
    p.2.1 ∈ l := by
  fun_induction neighbours l with
  | case1 prev curr next rest ih =>
    cases List.mem_cons.mp h with
    | inl hself => simp [hself]
    | inr hrest => exact List.mem_cons_of_mem prev (ih hrest)
  | case2 l hnot => exact absurd h List.not_mem_nil

theorem mem_of_crowdTop {l : List (ℕ × V)} {p : ℕ × V} (h : crowdTop A l = some p) : p ∈ l := by
  cases l with
  | nil => exact absurd h (by simp [crowdTop])
  | cons first rest =>
    rw [crowdTop, Option.some.injEq] at h
    have hfold : ∀ (l : List (ℕ × V)) (top : ℕ × V),
        l.foldl (fun top p => if A.lt p.2 top.2 then p else top) top ∈ top :: l := by
      intro l
      induction l with
      | nil => exact fun top => List.mem_cons_self
      | cons q l ih =>
        intro top
        rw [List.foldl_cons]
        cases List.mem_cons.mp (ih (if A.lt q.2 top.2 then q else top)) with
        | inl hself =>
          rw [hself]
          split_ifs <;> simp
        | inr hrest => exact List.mem_cons_of_mem top (List.mem_cons_of_mem q hrest)
    exact h ▸ hfold rest first

theorem lexicalOrder_perm (order : Traversal (List V)) (noObjectives : ℕ)
    (mainVector : List (List V)) :
    (lexicalOrder A order noObjectives mainVector).Perm mainVector := by
  rw [lexicalOrder]
  generalize (List.range noObjectives).reverse = bases
  induction bases generalizing mainVector with
  | nil => exact .refl _
  | cons base bases ih =>
    rw [List.foldl_cons]
    exact (ih _).trans (order.sort_perm _ mainVector)

end Vectors

namespace GDE3Search
variable {V : Type} {A : DoubleArith V} {srp : ResultsPool V}

/-- The values that a scenario is recorded with when the members are compared. -/
def recorded (srp : ResultsPool V) (search : GDE3Search V) (k : ℕ) : Option (List V) :=
  if k ∈ search.population then some (search.objectiveValues srp k)
  else search.scenarioObjValMap.get? k

/-- No scenario that is older than a member is recorded with the vector of the member. -/
def ToldApart (A : DoubleArith V) (srp : ResultsPool V) (search : GDE3Search V)
    (population : List ℕ) : Prop :=
  ∀ m ∈ population, ∀ k v, search.recorded srp k = some v →
    A.vecEq v (search.objectiveValues srp m) → m ≤ k

/-- The crowding loop before a round: the members left are told by the records `r`, and
`mainVector` holds their vectors. -/
structure Crowding (A : DoubleArith V) (srp : ResultsPool V) (search : GDE3Search V)
    (r : ObjectiveRecords V) (marks : Finset ℕ) (s : GDE3Search V) (mainVector : List (List V)) :
    Prop where
  state : ∃ optimalIds, s = search.marked r optimalIds marks ∧
    Marking search.population marks optimalIds
  vectors : mainVector.Perm
    ((unmarked marks search.population).map (search.objectiveValues srp))

section Round
variable {search : GDE3Search V} {r : ObjectiveRecords V}
variable (hrecorded : ∀ m ∈ search.population,
  r.scenarioObjValMap.get? m = some (search.objectiveValues srp m))
variable (happart : ∀ m ∈ search.population, ∀ k v, r.scenarioObjValMap.get? k = some v →
  A.vecEq v (search.objectiveValues srp m) → m ≤ k)
include hrecorded happart

/-- Members with equal vectors are the same. -/
theorem eq_of_vecEq {m m' : ℕ} (hm : m ∈ search.population) (hm' : m' ∈ search.population)
    (h : A.vecEq (search.objectiveValues srp m') (search.objectiveValues srp m)) : m' = m :=
  le_antisymm (happart m' hm' m _ (hrecorded m hm) (vecEq_symm h))
    (happart m hm m' _ (hrecorded m' hm') h)

/-- The id found for a member's vector is the member's. -/
theorem scenarioOf_member {optimalIds : List ℕ} {marks : Finset ℕ} {m id : ℕ}
    (hm : m ∈ search.population)
    (h : (search.marked r optimalIds marks).scenarioOf A (search.objectiveValues srp m) = .ok id) :
    id = m ∧ A.vecEq (search.objectiveValues srp m) (search.objectiveValues srp m) := by
  obtain ⟨e, hfind, hid⟩ := Option.map_eq_some_iff.mp (Outcome.found_eq_ok.mp h)
  have hequal : A.vecEq e.2 (search.objectiveValues srp m) := by
    simpa using List.find?_some hfind
  have hself := vecEq_trans (vecEq_symm hequal) hequal
  have hget : r.scenarioObjValMap.get? e.1 = some e.2 :=
    OrdMap.get?_eq_some.mpr (List.mem_of_find?_eq_some hfind)
  have hle := OrdMap.le_of_find? hfind (hrecorded m hm) hself
  exact ⟨hid ▸ le_antisymm hle (happart m hm e.1 e.2 hget hequal), hself⟩

/-- One round marks one member more and takes its vector out. -/
theorem Crowding.trim {marks : Finset ℕ} {s s' : GDE3Search V} {bounds : List (V × V)}
    {mainVector mainVector' : List (List V)} (hnodup : search.population.Nodup)
    (h : Crowding A srp search r marks s mainVector)
    (hrun : s.trim A bounds mainVector = .ok (s', mainVector')) :
    ∃ i, i ∉ marks ∧ Crowding A srp search r (insert i marks) s' mainVector' := by
  obtain ⟨⟨optimalIds, rfl, hmarking⟩, hvectors⟩ := h
  obtain ⟨pq, hpq, hrun⟩ := Outcome.bind_eq_ok.mp hrun
  obtain ⟨popPair, htop, hrun⟩ := Outcome.bind_eq_ok.mp hrun
  obtain ⟨⟨prevVector, currVector, nextVector⟩, hneighbours, hpush⟩ :=
    Outcome.mem_of_mapM hpq (mem_of_crowdTop (Outcome.found_eq_ok.mp htop))
  obtain ⟨id, hid, hret⟩ := Outcome.bind_eq_ok.mp hpush
  have hpair : popPair.1 = id := by rw [← Outcome.ok.inj hret]
  obtain ⟨m, hm, hcurr⟩ := List.mem_map.mp (hvectors.mem_iff.mp (mem_of_mem_neighbours hneighbours))
  obtain ⟨i, hi, hnot⟩ := mem_unmarked.mp hm
  have hmember : m ∈ search.population := List.mem_of_getElem? hi
  simp only at hcurr hid
  rw [← hcurr] at hid
  obtain ⟨hidm, hself⟩ := scenarioOf_member hrecorded happart hmember hid
  have hpop : popPair.1 = m := hpair.trans hidm
  -- the member is found at its own position
  have hfind : (search.marked r optimalIds marks).population.findIdx? (· = m) = some i := by
    obtain ⟨hlt, hget⟩ := List.getElem?_eq_some_iff.mp hi
    apply List.findIdx?_eq_some_iff_getElem.mpr
    refine ⟨hlt, decide_eq_true hget, fun j hj => ?_⟩
    have hne : search.population[j] ≠ m := by
      intro heq
      have hjlt : j < search.population.length := by omega
      have hji := (List.getElem?_inj hjlt hnodup).mp
        ((List.getElem?_eq_getElem hjlt).trans ((congrArg some heq).trans hi.symm))
      omega
    exact fun h => hne (of_decide_eq_true h)
  simp only [hpop] at hrun
  rw [hfind] at hrun
  obtain ⟨s₁, hdrop, hret⟩ := Outcome.bind_eq_ok.mp hrun
  obtain ⟨optimalIds', herase, hs₁⟩ := Outcome.bind_eq_ok.mp hdrop
  simp only [← Outcome.ok.inj hs₁] at hret
  have hout := Prod.mk.inj (Outcome.ok.inj hret)
  refine ⟨i, hnot, ⟨optimalIds', hout.1.symm, hmarking.drop hi herase⟩, ?_⟩
  have hremove : (r.scenarioObjValMap.get? m).getD [] = search.objectiveValues srp m := by
    rw [hrecorded m hmember]
    rfl
  have hmem : search.objectiveValues srp m ∈ mainVector :=
    hvectors.mem_iff.mpr (List.mem_map_of_mem hm)
  obtain ⟨w, before, after, -, hw, hsplit, herased⟩ := List.exists_of_eraseP
    (p := fun vec => A.vecEq vec (search.objectiveValues srp m)) hmem hself
  have hwv : w = search.objectiveValues srp m := by
    obtain ⟨m', hm', hvec⟩ := List.mem_map.mp
      (hvectors.mem_iff.mp (hsplit ▸ List.mem_append_right before List.mem_cons_self))
    have hin := (unmarked_sublist marks search.population).subset hm'
    rw [← hvec, eq_of_vecEq hrecorded happart hmember hin (hvec ▸ hw)]
  have hrest : mainVector' = before ++ after := by
    rw [← hout.2, ← herased]
    exact congrArg (fun vec => mainVector.eraseP fun w => A.vecEq w vec) hremove
  have hfirst : (search.objectiveValues srp m :: (before ++ after)).Perm mainVector := by
    rw [hsplit, hwv]
    exact List.perm_middle.symm
  have hcons := hfirst.trans (hvectors.trans ((unmarked_perm_cons hnodup hi hnot).map _))
  exact hrest ▸ hcons.cons_inv

theorem Crowding.trimAll {bounds : List (V × V)} (hnodup : search.population.Nodup) :
    ∀ {overHead : ℕ} {marks : Finset ℕ} {s s' : GDE3Search V} {mainVector : List (List V)},
      Crowding A srp search r marks s mainVector →
      s.trimAll A bounds overHead mainVector = .ok s' →
      ∃ marks' mainVector', marks'.card = marks.card + overHead ∧
        Crowding A srp search r marks' s' mainVector' := by
  intro overHead
  induction overHead with
  | zero =>
    intro marks s s' mainVector h hrun
    exact ⟨marks, mainVector, rfl, Outcome.ok.inj hrun ▸ h⟩
  | succ overHead ih =>
    intro marks s s' mainVector h hrun
    rw [GDE3Search.trimAll] at hrun
    obtain ⟨⟨s₁, mainVector₁⟩, hround, hrun⟩ := Outcome.bind_eq_ok.mp hrun
    obtain ⟨i, hnot, h₁⟩ := h.trim hrecorded happart hnodup hround
    obtain ⟨marks', mainVector', hcard, h'⟩ := ih h₁ hrun
    refine ⟨marks', mainVector', ?_, h'⟩
    rw [hcard, Finset.card_insert_of_notMem hnot]
    omega

end Round

/-- Whatever the crowding loop removes, it marks positions of members. -/
theorem Selecting.trim {search s s' : GDE3Search V} {marks : Finset ℕ} {compared : ℕ → Prop}
    {bounds : List (V × V)} {mainVector mainVector' : List (List V)}
    (h : Selecting search srp marks compared s)
    (hrun : s.trim A bounds mainVector = .ok (s', mainVector')) :
    ∃ marks', Selecting search srp marks' compared s' := by
  obtain ⟨pq, -, hrun⟩ := Outcome.bind_eq_ok.mp hrun
  obtain ⟨popPair, -, hrun⟩ := Outcome.bind_eq_ok.mp hrun
  cases hfind : s.population.findIdx? (· = popPair.1) with
  | none =>
    rw [hfind] at hrun
    exact ⟨marks, (Prod.mk.inj (Outcome.ok.inj hrun)).1 ▸ h⟩
  | some i =>
    rw [hfind] at hrun
    obtain ⟨s₁, hdrop, hret⟩ := Outcome.bind_eq_ok.mp hrun
    obtain ⟨hlt, hget, -⟩ := List.findIdx?_eq_some_iff_getElem.mp hfind
    have hi : search.population[i]? = some popPair.1 := by
      rw [← h.population, List.getElem?_eq_getElem hlt, of_decide_eq_true hget]
    exact ⟨_, (Prod.mk.inj (Outcome.ok.inj hret)).1 ▸ h.drop hi hdrop⟩

theorem Selecting.trimAll {search : GDE3Search V} {compared : ℕ → Prop} {bounds : List (V × V)} :
    ∀ {overHead : ℕ} {marks : Finset ℕ} {s s' : GDE3Search V} {mainVector : List (List V)},
      Selecting search srp marks compared s → s.trimAll A bounds overHead mainVector = .ok s' →
      ∃ marks', Selecting search srp marks' compared s' := by
  intro overHead
  induction overHead with
  | zero =>
    intro marks s s' mainVector h hrun
    exact ⟨marks, Outcome.ok.inj hrun ▸ h⟩
  | succ overHead ih =>
    intro marks s s' mainVector h hrun
    rw [GDE3Search.trimAll] at hrun
    obtain ⟨⟨s₁, mainVector₁⟩, hround, hrun⟩ := Outcome.bind_eq_ok.mp hrun
    obtain ⟨marks₁, h₁⟩ := h.trim hround
    exact ih h₁ hrun

/-- When the two ways of the reduction come to the population size: dominance alone drops
enough members, or it drops none, the results are the objective vectors, and these tell the
members apart from older scenarios. -/
def Reducible (A : DoubleArith V) (srp : ResultsPool V) (search : GDE3Search V) : Prop :=
  (undominated A (search.objectiveValues srp) (survivors A srp search)).length ≤
      search.populationSize ∨
    ((∀ m ∈ survivors A srp search, ∀ k ∈ survivors A srp search,
        ¬ Beats A (search.objectiveValues srp) k m) ∧
      (∀ m ∈ survivors A srp search, srp m = search.objectiveValues srp m) ∧
      search.ToldApart A srp (survivors A srp search))

/-- A population that is not too large any more. -/
structure Reduced (search search' : GDE3Search V) : Prop where
  size : search'.population.length = search'.populationSize
  nodup : search'.population.Nodup
  previous : ∀ id ∈ search'.population, id ∈ search.population
  optimal : ∀ id ∈ search'.optimalIds, id ∈ search'.population

/-- As many marks as there are members too many. -/
theorem Ready.reduced {search s : GDE3Search V} (h : search.Ready) {marks : Finset ℕ}
    {compared : ℕ → Prop} (hs : Selecting search srp marks compared s)
    (hcard : marks.card = search.population.length - search.populationSize)
    (hover : search.populationSize < search.population.length) :
    Reduced search s.cleanupPopulation := by
  obtain ⟨hready, hpopulation⟩ := h.cleanup hs
  obtain ⟨r, optimalIds, hs, hmarking, -⟩ := hs
  have hsize : s.cleanupPopulation.populationSize = search.populationSize := by
    rw [hs]
    rfl
  refine ⟨?_, hready.population_nodup, ?_, hready.optimal⟩
  · rw [hsize, hpopulation, length_unmarked hmarking.positions]
    omega
  · rw [hpopulation]
    exact fun id hid => (unmarked_sublist marks search.population).subset hid

/-- Two vectors are the ends of the curve: none of them is in the queue. -/
theorem two_lt_of_trim {search s : GDE3Search V} {bounds : List (V × V)}
    {mainVector mainVector' : List (List V)}
    (hrun : search.trim A bounds mainVector = .ok (s, mainVector')) : 2 < mainVector.length := by
  by_contra hnot
  have hnone : neighbours mainVector = [] := by
    match mainVector with
    | [] => rfl
    | [_] => rfl
    | [_, _] => rfl
    | _ :: _ :: _ :: rest => exact absurd (by simp) hnot
  rw [GDE3Search.trim, crowdPq, hnone] at hrun
  exact absurd hrun (by simp [crowdTop, Outcome.found])

/-- Every member takes part in some pair. -/
theorem comparedIn_pairs {population : List ℕ} (htwo : 2 ≤ population.length) {m : ℕ}
    (hm : m ∈ population) : ComparedIn population (pairs population.length) m := by
  obtain ⟨i, hi⟩ := List.mem_iff_getElem?.mp hm
  have hlt := (List.getElem?_eq_some_iff.mp hi).1
  by_cases hzero : i = 0
  · exact ⟨(i, 1), mem_pairs.mpr ⟨by omega, by omega⟩, .inl hi⟩
  · exact ⟨(0, i), mem_pairs.mpr ⟨by omega, hlt⟩, .inr hi⟩

theorem Ready.cleanByDominance {search s : GDE3Search V} (h : search.Ready)
    (hover : search.populationSize < search.population.length) {b : Bool}
    (hrun : GDE3Search.cleanByDominance A srp (pairs search.population.length) search =
      .ok (s, b)) :
    (b = true ∧ ∃ marks compared, Selecting search srp marks compared s ∧
      marks.card = search.population.length - search.populationSize) ∨
    (b = false ∧ Selecting search srp (losers A (search.objectiveValues srp) search.population
        (pairs search.population.length))
        (ComparedIn search.population (pairs search.population.length)) s ∧
      (losers A (search.objectiveValues srp) search.population
        (pairs search.population.length)).card <
          search.population.length - search.populationSize) := by
  have hstart : Selecting search srp
      (losers A (search.objectiveValues srp) search.population [])
      (ComparedIn search.population []) search :=
    (h.selecting srp).weaken fun k ⟨p, hp, _⟩ => absurd hp List.not_mem_nil
  have hcard : (losers A (search.objectiveValues srp) search.population []).card <
      search.population.length - search.populationSize := by
    have hnone : losers A (search.objectiveValues srp) search.population [] = ∅ := rfl
    rw [hnone, Finset.card_empty]
    omega
  exact hstart.cleanByDominance hover hcard hrun

/-- The crowding loop starts from the members' vectors. -/
theorem cleanByCrowding_eq_ok {s s' : GDE3Search V} {order : Traversal (List V)}
    (hrun : s.cleanByCrowding A order srp = .ok s') :
    ∃ bounds mainVector, mainVector.Perm (s.population.map srp) ∧
      s.trimAll A bounds (s.population.length - s.populationSize) mainVector = .ok s' := by
  rw [cleanByCrowding] at hrun
  simp only at hrun
  split_ifs at hrun with hregular
  exact ⟨_, _, lexicalOrder_perm order _ _, hrun⟩

/-- Reduction without conditions: it drops members, or nothing is done. -/
theorem Ready.reducePopulation_cases {search s : GDE3Search V} (h : search.Ready)
    {order : Traversal (List V)} (hrun : search.reducePopulation A order srp = .ok s) :
    (∃ marks compared s₁, Selecting search srp marks compared s₁ ∧ s = s₁.cleanupPopulation) ∨
      s = search := by
  rw [GDE3Search.reducePopulation] at hrun
  by_cases hover : search.populationSize < search.population.length
  · rw [if_pos hover] at hrun
    obtain ⟨⟨s₁, resizingDone⟩, hloop, hrun⟩ := Outcome.bind_eq_ok.mp hrun
    cases h.cleanByDominance hover hloop with
    | inl hdone =>
      obtain ⟨hdone, marks, compared, hselecting, -⟩ := hdone
      simp only [hdone, if_true] at hrun
      exact .inl ⟨marks, compared, s₁, hselecting, (Outcome.ok.inj hrun).symm⟩
    | inr hall =>
      obtain ⟨hdone, hselecting, -⟩ := hall
      simp only [hdone, Bool.false_eq_true, if_false] at hrun
      obtain ⟨s₂, hcrowding, hret⟩ := Outcome.bind_eq_ok.mp hrun
      obtain ⟨bounds, mainVector, -, htrims⟩ := cleanByCrowding_eq_ok hcrowding
      obtain ⟨marks, hselecting₂⟩ := hselecting.trimAll htrims
      exact .inl ⟨marks, _, s₂, hselecting₂, (Outcome.ok.inj hret).symm⟩
  · rw [if_neg hover] at hrun
    exact .inr (Outcome.ok.inj hrun).symm

theorem Ready.reducePopulation {search s : GDE3Search V} (h : search.Ready)
    {order : Traversal (List V)} (hrun : search.reducePopulation A order srp = .ok s) :
    s.Ready ∧ Untouched search s := by
  cases h.reducePopulation_cases hrun with
  | inl hdropped =>
    obtain ⟨marks, compared, s₁, hselecting, rfl⟩ := hdropped
    exact ⟨(h.cleanup hselecting).1, hselecting.untouched⟩
  | inr hsame =>
    subst hsame
    exact ⟨h, ⟨rfl, rfl, rfl, rfl, rfl, rfl⟩⟩

/-- What the condition of the reduction says about a population that is compared already. -/
def Separable (A : DoubleArith V) (srp : ResultsPool V) (search : GDE3Search V) : Prop :=
  (undominated A (search.objectiveValues srp) search.population).length ≤ search.populationSize ∨
    ((∀ m ∈ search.population, ∀ k ∈ search.population,
        ¬ Beats A (search.objectiveValues srp) k m) ∧
      (∀ m ∈ search.population, srp m = search.objectiveValues srp m) ∧
      search.ToldApart A srp search.population)

/-- Where no member is beaten and all are told apart, every round removes one. -/
theorem Ready.crowding_card {search s s' : GDE3Search V} (h : search.Ready)
    {order : Traversal (List V)} (hover : search.populationSize < search.population.length)
    (hsrp : ∀ m ∈ search.population, srp m = search.objectiveValues srp m)
    (happart : search.ToldApart A srp search.population)
    (hs : Selecting search srp ∅
      (ComparedIn search.population (pairs search.population.length)) s)
    (hrun : s.cleanByCrowding A order srp = .ok s') :
    ∃ marks compared, Selecting search srp marks compared s' ∧
      marks.card = search.population.length - search.populationSize := by
  obtain ⟨r, optimalIds, rfl, hmarking, hrecorded⟩ := hs
  obtain ⟨bounds, mainVector, hperm, htrims⟩ := cleanByCrowding_eq_ok hrun
  have hvectors : mainVector.Perm
      ((unmarked ∅ search.population).map (search.objectiveValues srp)) := by
    rw [unmarked_empty, ← List.map_congr_left hsrp]
    exact hperm
  have htwo : 2 ≤ search.population.length := by
    have hlength : mainVector.length = search.population.length := by
      rw [hperm.length_eq, List.length_map]
      rfl
    by_contra hnot
    have hone : search.population.length - search.populationSize = 1 := by omega
    have htrims' : (search.marked r optimalIds ∅).trimAll A bounds 1 mainVector = .ok s' :=
      hone ▸ htrims
    rw [GDE3Search.trimAll] at htrims'
    obtain ⟨⟨s₁, mainVector₁⟩, hround, -⟩ := Outcome.bind_eq_ok.mp htrims'
    have := two_lt_of_trim hround
    omega
  have hnow : ∀ m ∈ search.population,
      r.scenarioObjValMap.get? m = some (search.objectiveValues srp m) :=
    fun m hm => hrecorded.now m (comparedIn_pairs htwo hm)
  have happart' : ∀ m ∈ search.population, ∀ k v, r.scenarioObjValMap.get? k = some v →
      A.vecEq v (search.objectiveValues srp m) → m ≤ k := by
    intro m hm k v hget
    apply happart m hm k v
    rw [recorded]
    split_ifs with hk
    · rw [← hnow k hk, hget]
    · rw [← hrecorded.elsewhere k hk, hget]
  have hcrowding : Crowding A srp search r ∅ (search.marked r optimalIds ∅) mainVector :=
    ⟨⟨optimalIds, rfl, hmarking⟩, hvectors⟩
  obtain ⟨marks, mainVector', hcard, ⟨⟨optimalIds', hs', hmarking'⟩, -⟩⟩ :=
    hcrowding.trimAll hnow happart' h.population_nodup htrims
  refine ⟨marks, _, ⟨r, optimalIds', hs', hmarking', hrecorded⟩, ?_⟩
  rw [hcard, Finset.card_empty, Nat.zero_add]
  rfl

theorem Ready.reduced_of_separable {search s : GDE3Search V} (h : search.Ready)
    {order : Traversal (List V)} (hover : search.populationSize < search.population.length)
    (hseparable : search.Separable A srp)
    (hrun : search.reducePopulation A order srp = .ok s) : Reduced search s := by
  rw [GDE3Search.reducePopulation, if_pos hover] at hrun
  obtain ⟨⟨s₁, resizingDone⟩, hloop, hrun⟩ := Outcome.bind_eq_ok.mp hrun
  cases h.cleanByDominance hover hloop with
  | inl hdone =>
    obtain ⟨hdone, marks, compared, hselecting, hcard⟩ := hdone
    simp only [hdone, if_true] at hrun
    exact Outcome.ok.inj hrun ▸ h.reduced hselecting hcard hover
  | inr hall =>
    obtain ⟨hdone, hselecting, hcard⟩ := hall
    simp only [hdone, Bool.false_eq_true, if_false] at hrun
    obtain ⟨s₂, hcrowding, hret⟩ := Outcome.bind_eq_ok.mp hrun
    have hlength := length_unmarked (losers_subset A (search.objectiveValues srp)
      search.population (pairs search.population.length))
    rw [unmarked_losers_pairs A h.members.sorted] at hlength
    cases hseparable with
    | inl hfew => omega
    | inr hapart =>
      have hnone : losers A (search.objectiveValues srp) search.population
          (pairs search.population.length) = ∅ := by
        apply Finset.eq_empty_of_forall_notMem
        intro i hi
        have hlt := Finset.mem_range.mp (losers_subset A _ _ _ hi)
        obtain ⟨k, hk, hbeats⟩ := (mem_losers_pairs A h.members.sorted
          (List.getElem?_eq_getElem hlt)).mp hi
        exact hapart.1 _ (List.getElem_mem hlt) k hk hbeats
      rw [hnone] at hselecting
      obtain ⟨marks, compared, hselecting₂, hcard₂⟩ :=
        h.crowding_card hover hapart.2.1 hapart.2.2 hselecting hcrowding
      exact Outcome.ok.inj hret ▸ h.reduced hselecting₂ hcard₂ hover

end GDE3Search
end ReadexPtf.Autotune
