import ReadexPtf.Autotune.GDE3Search

/-! What `searchFinished` leaves of the population: the members to be dropped, the
optimal ids and the recorded objective values through the three loops. -/
namespace ReadexPtf.Autotune
open ReadexPtf

section Dominance
variable {V : Type} (A : DoubleArith V)

/-- Member `k` wins its comparison with member `m`, in which the older one is the parent. -/
def Beats (vals : ℕ → List V) (k m : ℕ) : Prop :=
  (k < m ∧ dominance A (vals k) (vals m) < 0) ∨ (m < k ∧ 0 < dominance A (vals m) (vals k))

instance (vals : ℕ → List V) : DecidableRel (Beats A vals) := fun _ _ =>
  inferInstanceAs (Decidable (_ ∨ _))

/-- The members that no other member beats. -/
def undominated (vals : ℕ → List V) (population : List ℕ) : List ℕ :=
  population.filter fun m => ∀ k ∈ population, ¬ Beats A vals k m

/-- The position dropped for the result of a comparison. -/
def dropped (parent child : ℕ) (resultComp : ℤ) : Option ℕ :=
  if resultComp = 0 then none else if resultComp < 0 then some child else some parent

/-- The position dropped when the members at two positions are compared. -/
def loser (vals : ℕ → List V) (population : List ℕ) (parent child : ℕ) : Option ℕ := do
  let parentId ← population[parent]?
  let childId ← population[child]?
  dropped parent child (dominance A (vals parentId) (vals childId))

theorem dropped_eq_some {parent child i : ℕ} {resultComp : ℤ} :
    dropped parent child resultComp = some i ↔
      (resultComp < 0 ∧ i = child) ∨ (0 < resultComp ∧ i = parent) := by
  rw [dropped]
  split_ifs with hzero hneg
  · constructor
    · intro h
      exact absurd h (by simp)
    · omega
  · rw [Option.some.injEq]
    omega
  · rw [Option.some.injEq]
    omega

theorem loser_eq {vals : ℕ → List V} {population : List ℕ} {parent child parentId childId : ℕ}
    (hparent : population[parent]? = some parentId) (hchild : population[child]? = some childId) :
    loser A vals population parent child =
      dropped parent child (dominance A (vals parentId) (vals childId)) := by
  rw [loser, hparent, hchild]
  rfl

theorem loser_eq_some {vals : ℕ → List V} {population : List ℕ} {parent child i : ℕ}
    (h : loser A vals population parent child = some i) :
    ∃ parentId childId, population[parent]? = some parentId ∧ population[child]? = some childId ∧
      ((dominance A (vals parentId) (vals childId) < 0 ∧ i = child) ∨
        (0 < dominance A (vals parentId) (vals childId) ∧ i = parent)) := by
  rw [loser] at h
  obtain ⟨parentId, hparent, h⟩ := Option.bind_eq_some_iff.mp h
  obtain ⟨childId, hchild, h⟩ := Option.bind_eq_some_iff.mp h
  exact ⟨parentId, childId, hparent, hchild, dropped_eq_some.mp h⟩

theorem mem_pairs {size i j : ℕ} : (i, j) ∈ GDE3Search.pairs size ↔ i < j ∧ j < size := by
  simp only [GDE3Search.pairs, List.mem_flatMap, List.mem_range, List.mem_map, List.mem_range'_1,
    Prod.mk.injEq]
  constructor
  · intro ⟨i', hi, j', hj, heq, heq'⟩
    omega
  · intro h
    exact ⟨i, by omega, j, by omega, rfl, rfl⟩

/-- The positions that lose some comparison of two members. -/
def losers (vals : ℕ → List V) (population : List ℕ) (compared : List (ℕ × ℕ)) : Finset ℕ :=
  (compared.filterMap fun p => loser A vals population p.1 p.2).toFinset

theorem mem_losers {vals : ℕ → List V} {population : List ℕ} {compared : List (ℕ × ℕ)} {i : ℕ} :
    i ∈ losers A vals population compared ↔
      ∃ p ∈ compared, loser A vals population p.1 p.2 = some i := by
  rw [losers, List.mem_toFinset, List.mem_filterMap]

/-- `tobeDropped.insert` of the position that loses, if one does. -/
def mark (position : Option ℕ) (marked : Finset ℕ) : Finset ℕ :=
  match position with
  | none => marked
  | some i => insert i marked

theorem losers_append (vals : ℕ → List V) (population : List ℕ) (compared : List (ℕ × ℕ))
    (parent child : ℕ) :
    losers A vals population (compared ++ [(parent, child)]) =
      mark (loser A vals population parent child) (losers A vals population compared) := by
  cases h : loser A vals population parent child with
  | none => simp [losers, h, mark]
  | some i =>
    ext j
    simp [losers, h, mark]

theorem losers_subset (vals : ℕ → List V) (population : List ℕ) (compared : List (ℕ × ℕ)) :
    losers A vals population compared ⊆ Finset.range population.length := by
  intro i hi
  obtain ⟨p, -, hloser⟩ := (mem_losers A).mp hi
  obtain ⟨parentId, childId, hparent, hchild, h⟩ := loser_eq_some A hloser
  have h1 := (List.getElem?_eq_some_iff.mp hparent).1
  have h2 := (List.getElem?_eq_some_iff.mp hchild).1
  rw [Finset.mem_range]
  omega

/-- Members stand at their positions in the order of their ids. -/
theorem position_lt_iff {population : List ℕ} (hsorted : population.Pairwise (· < ·))
    {i j k m : ℕ} (hi : population[i]? = some k) (hj : population[j]? = some m) :
    i < j ↔ k < m := by
  obtain ⟨hi, hki⟩ := List.getElem?_eq_some_iff.mp hi
  obtain ⟨hj, hmj⟩ := List.getElem?_eq_some_iff.mp hj
  have hless := List.pairwise_iff_getElem.mp hsorted
  constructor
  · intro hlt
    have := hless i j hi hj hlt
    omega
  · intro hlt
    by_contra hnot
    cases (Nat.le_of_not_lt hnot).lt_or_eq with
    | inl hgt =>
      have := hless j i hj hi hgt
      omega
    | inr heq =>
      subst heq
      omega

/-- Without an early stop the loops mark what some member beats. -/
theorem mem_losers_pairs {vals : ℕ → List V} {population : List ℕ}
    (hsorted : population.Pairwise (· < ·)) {i m : ℕ} (hi : population[i]? = some m) :
    i ∈ losers A vals population (GDE3Search.pairs population.length) ↔
      ∃ k ∈ population, Beats A vals k m := by
  rw [mem_losers]
  constructor
  · intro ⟨⟨p, c⟩, hpair, hloser⟩
    obtain ⟨hlt, -⟩ := mem_pairs.mp hpair
    obtain ⟨parentId, childId, hparent, hchild, h⟩ := loser_eq_some A hloser
    have hids := (position_lt_iff hsorted hparent hchild).mp hlt
    cases h with
    | inl h =>
      have hm : childId = m := Option.some.inj (hchild.symm.trans (h.2 ▸ hi))
      exact ⟨parentId, List.mem_of_getElem? hparent, .inl ⟨hm ▸ hids, hm ▸ h.1⟩⟩
    | inr h =>
      have hm : parentId = m := Option.some.inj (hparent.symm.trans (h.2 ▸ hi))
      exact ⟨childId, List.mem_of_getElem? hchild, .inr ⟨hm ▸ hids, hm ▸ h.1⟩⟩
  · intro ⟨k, hk, hbeats⟩
    obtain ⟨j, hj⟩ := List.mem_iff_getElem?.mp hk
    have hi' := (List.getElem?_eq_some_iff.mp hi).1
    have hj' := (List.getElem?_eq_some_iff.mp hj).1
    cases hbeats with
    | inl h =>
      have hlt := (position_lt_iff hsorted hj hi).mpr h.1
      refine ⟨(j, i), mem_pairs.mpr ⟨hlt, hi'⟩, ?_⟩
      rw [loser_eq A hj hi, dropped_eq_some]
      exact .inl ⟨h.2, rfl⟩
    | inr h =>
      have hlt := (position_lt_iff hsorted hi hj).mpr h.1
      refine ⟨(i, j), mem_pairs.mpr ⟨hlt, hj'⟩, ?_⟩
      rw [loser_eq A hi hj, dropped_eq_some]
      exact .inr ⟨h.2, rfl⟩

theorem unmarked_losers_pairs {vals : ℕ → List V} {population : List ℕ}
    (hsorted : population.Pairwise (· < ·)) :
    unmarked (losers A vals population (GDE3Search.pairs population.length)) population =
      undominated A vals population := by
  apply unmarked_eq_filter
  intro i m hi
  rw [mem_losers_pairs A hsorted hi, decide_eq_true_eq]
  simp only [not_exists, not_and]

end Dominance

section Marking

/-- Positions of the population are marked, and the optimal ids are members that are not. -/
structure Marking (population : List ℕ) (marked : Finset ℕ) (optimalIds : List ℕ) : Prop where
  positions : marked ⊆ Finset.range population.length
  nodup : optimalIds.Nodup
  optimal : ∀ id ∈ optimalIds, id ∈ unmarked marked population

/-- Dropping a member takes it off the optimal ids. -/
theorem Marking.drop {population : List ℕ} {marked : Finset ℕ} {optimalIds optimalIds' : List ℕ}
    (h : Marking population marked optimalIds) {i id : ℕ}
    (hi : population[i]? = some id) (herase : eraseLoop id optimalIds = .ok optimalIds') :
    Marking population (insert i marked) optimalIds' := by
  have heq := eraseLoop_spec h.nodup herase
  constructor
  · intro j hj
    cases Finset.mem_insert.mp hj with
    | inl hself => exact Finset.mem_range.mpr (hself ▸ (List.getElem?_eq_some_iff.mp hi).1)
    | inr hold => exact h.positions hold
  · exact heq ▸ h.nodup.erase id
  · intro id' hid'
    obtain ⟨hne, hmem⟩ := h.nodup.mem_erase_iff.mp (heq ▸ hid')
    obtain ⟨j, hj, hnot⟩ := mem_unmarked.mp (h.optimal id' hmem)
    apply mem_unmarked.mpr
    refine ⟨j, hj, ?_⟩
    rw [Finset.mem_insert, not_or]
    refine ⟨?_, hnot⟩
    intro hji
    subst hji
    exact hne (Option.some.inj (hj.symm.trans hi))

/-- A member that is not marked may become optimal. -/
theorem Marking.keep {population : List ℕ} {marked : Finset ℕ} {optimalIds : List ℕ}
    (h : Marking population marked optimalIds) {id : ℕ} (hid : id ∈ unmarked marked population) :
    Marking population marked (addOptimalId id optimalIds) := by
  rw [addOptimalId]
  split_ifs with hmem
  · exact h
  · refine ⟨h.positions, h.nodup.append (List.nodup_singleton id) (by simpa using hmem), ?_⟩
    intro id' hid'
    cases List.mem_append.mp hid' with
    | inl hold => exact h.optimal id' hold
    | inr hnew => exact List.mem_singleton.mp hnew ▸ hid

theorem mem_addOptimalId {id id' : ℕ} {optimalIds : List ℕ} :
    id' ∈ addOptimalId id optimalIds ↔ id' ∈ optimalIds ∨ id' = id := by
  rw [addOptimalId]
  split_ifs with hmem
  · constructor
    · exact .inl
    · intro h
      cases h with
      | inl hold => exact hold
      | inr hself => exact hself ▸ hmem
  · rw [List.mem_append, List.mem_singleton]

end Marking

section Records
variable {V : Type} {A : DoubleArith V}

theorem get?_recordSingle (r : ObjectiveRecords V) (scenarioId k : ℕ) (value : V) :
    (r.recordSingle A scenarioId value).scenarioObjValMap.get? k =
      if k = scenarioId then some [value] else r.scenarioObjValMap.get? k :=
  OrdMap.get?_set _ _ _ _

@[simp] theorem scenarioObjValMap_count (r : ObjectiveRecords V) (number : ℕ) :
    (r.count number).scenarioObjValMap = r.scenarioObjValMap := by
  rw [ObjectiveRecords.count]
  split_ifs <;> rfl

/-- A comparison records the values of its two scenarios and of no other. -/
theorem get?_record (r : ObjectiveRecords V) (parent child k : ℕ) (parentMap childMap : List V) :
    (r.record A parent child parentMap childMap).scenarioObjValMap.get? k =
      if k = child then some childMap else if k = parent then some parentMap
      else r.scenarioObjValMap.get? k := by
  unfold ObjectiveRecords.record
  split
  · rw [get?_recordSingle, get?_recordSingle, scenarioObjValMap_count]
  · rw [OrdMap.get?_set, OrdMap.get?_set]

/-- Against the map `before`: members that were compared have their values of now, and
nothing else has changed outside of the population. -/
structure Recorded (vals : ℕ → List V) (population : List ℕ) (before : OrdMap ℕ (List V))
    (compared : ℕ → Prop) (r : ObjectiveRecords V) : Prop where
  elsewhere : ∀ k, k ∉ population → r.scenarioObjValMap.get? k = before.get? k
  now : ∀ k, compared k → r.scenarioObjValMap.get? k = some (vals k)

theorem Recorded.compare {vals : ℕ → List V} {population : List ℕ} {before : OrdMap ℕ (List V)}
    {compared : ℕ → Prop} {r : ObjectiveRecords V}
    (h : Recorded vals population before compared r) {parent child : ℕ}
    (hparent : parent ∈ population) (hchild : child ∈ population) :
    Recorded vals population before (fun k => compared k ∨ k = parent ∨ k = child)
      (r.record A parent child (vals parent) (vals child)) := by
  constructor
  · intro k hk
    have hne : k ≠ child ∧ k ≠ parent := ⟨fun heq => hk (heq ▸ hchild), fun heq => hk (heq ▸ hparent)⟩
    rw [get?_record, if_neg hne.1, if_neg hne.2]
    exact h.elsewhere k hk
  · intro k hk
    rw [get?_record]
    by_cases hc : k = child
    · rw [if_pos hc, hc]
    · rw [if_neg hc]
      by_cases hp : k = parent
      · rw [if_pos hp, hp]
      · rw [if_neg hp]
        cases hk with
        | inl hold => exact h.now k hold
        | inr hself => exact absurd hself (by simp [hc, hp])

end Records

namespace GDE3Search
variable {V : Type} {A : DoubleArith V} {srp : ResultsPool V}

/-- The search with other marks: all that the loops change. -/
def marked (search : GDE3Search V) (r : ObjectiveRecords V) (optimalIds : List ℕ)
    (tobeDropped : Finset ℕ) : GDE3Search V :=
  { search with toObjectiveRecords := r, optimalIds, tobeDropped }

theorem compareScenarios_marked (search : GDE3Search V) (r : ObjectiveRecords V)
    (optimalIds : List ℕ) (tobeDropped : Finset ℕ) (parent child : ℕ) :
    (search.marked r optimalIds tobeDropped).compareScenarios A srp parent child =
      (search.marked (r.record A parent child (search.objectiveValues srp parent)
          (search.objectiveValues srp child)) optimalIds tobeDropped,
        dominance A (search.objectiveValues srp parent) (search.objectiveValues srp child)) := by
  have hlength : (search.objectiveValues srp parent).length =
      (search.objectiveValues srp child).length := by
    rw [objectiveValues, objectiveValues, List.length_map, List.length_map]
  rw [compareScenarios]
  exact if_neg (not_not.mpr hlength)

/-- What the loops keep: the marks, the optimal ids among the other members, and the
values of the scenarios compared. -/
def Selecting (search : GDE3Search V) (srp : ResultsPool V) (marks : Finset ℕ)
    (compared : ℕ → Prop) (s : GDE3Search V) : Prop :=
  ∃ r optimalIds, s = search.marked r optimalIds marks ∧
    Marking search.population marks optimalIds ∧
    Recorded (search.objectiveValues srp) search.population search.scenarioObjValMap compared r

theorem Selecting.population {search s : GDE3Search V} {marks : Finset ℕ} {compared : ℕ → Prop}
    (h : Selecting search srp marks compared s) : s.population = search.population := by
  obtain ⟨r, optimalIds, hs, -, -⟩ := h
  rw [hs]
  rfl

theorem Selecting.drop {search s s' : GDE3Search V} {marks : Finset ℕ} {compared : ℕ → Prop}
    (h : Selecting search srp marks compared s) {i id : ℕ}
    (hi : search.population[i]? = some id) (hdrop : s.drop i id = .ok s') :
    Selecting search srp (insert i marks) compared s' := by
  obtain ⟨r, optimalIds, hs, hmarking, hrecorded⟩ := h
  subst hs
  obtain ⟨optimalIds', herase, hret⟩ := Outcome.bind_eq_ok.mp hdrop
  exact ⟨r, optimalIds', (Outcome.ok.inj hret).symm, hmarking.drop hi herase, hrecorded⟩

theorem Selecting.keep {search s : GDE3Search V} {marks : Finset ℕ} {compared : ℕ → Prop}
    (h : Selecting search srp marks compared s) {id : ℕ}
    (hid : id ∈ unmarked marks search.population) :
    Selecting search srp marks compared (s.keep id) := by
  obtain ⟨r, optimalIds, hs, hmarking, hrecorded⟩ := h
  subst hs
  exact ⟨r, addOptimalId id optimalIds, rfl, hmarking.keep hid, hrecorded⟩

theorem Selecting.compare {search s : GDE3Search V} {marks : Finset ℕ} {compared : ℕ → Prop}
    (h : Selecting search srp marks compared s) {parent child : ℕ}
    (hparent : parent ∈ search.population) (hchild : child ∈ search.population) :
    ∃ s', s.compareScenarios A srp parent child =
        (s', dominance A (search.objectiveValues srp parent) (search.objectiveValues srp child)) ∧
      Selecting search srp marks (fun k => compared k ∨ k = parent ∨ k = child) s' := by
  obtain ⟨r, optimalIds, hs, hmarking, hrecorded⟩ := h
  subst hs
  refine ⟨_, compareScenarios_marked search r optimalIds marks parent child, ?_⟩
  exact ⟨_, optimalIds, rfl, hmarking, hrecorded.compare hparent hchild⟩

/-- One pair of the dominance loops. -/
theorem Selecting.dominatePair {search s s' : GDE3Search V} {marks : Finset ℕ}
    {compared : ℕ → Prop} (h : Selecting search srp marks compared s) {i j : ℕ}
    (hrun : s.dominatePair A srp i j = .ok s') :
    ∃ parentId childId, search.population[i]? = some parentId ∧
      search.population[j]? = some childId ∧
      Selecting search srp (mark (loser A (search.objectiveValues srp) search.population i j) marks)
        (fun k => compared k ∨ k = parentId ∨ k = childId) s' := by
  have hpopulation := h.population
  rw [GDE3Search.dominatePair, hpopulation] at hrun
  obtain ⟨parentId, hparent, hrun⟩ := Outcome.bind_eq_ok.mp hrun
  obtain ⟨childId, hchild, hrun⟩ := Outcome.bind_eq_ok.mp hrun
  have hi := Outcome.found_eq_ok.mp hparent
  have hj := Outcome.found_eq_ok.mp hchild
  obtain ⟨s₁, hcompare, h₁⟩ :=
    h.compare (A := A) (List.mem_of_getElem? hi) (List.mem_of_getElem? hj)
  rw [hcompare] at hrun
  refine ⟨parentId, childId, hi, hj, ?_⟩
  rw [loser_eq A hi hj, dropped]
  simp only at hrun
  split_ifs at hrun ⊢ with hzero hneg
  · exact Outcome.ok.inj hrun ▸ h₁
  · exact h₁.drop hj hrun
  · exact h₁.drop hi hrun

theorem Selecting.weaken {search s : GDE3Search V} {marks : Finset ℕ}
    {compared compared' : ℕ → Prop} (h : Selecting search srp marks compared s)
    (hle : ∀ k, compared' k → compared k) : Selecting search srp marks compared' s := by
  obtain ⟨r, optimalIds, hs, hmarking, hrecorded⟩ := h
  exact ⟨r, optimalIds, hs, hmarking, hrecorded.elsewhere, fun k hk => hrecorded.now k (hle k hk)⟩

/-- A member of one of the pairs of positions. -/
def ComparedIn (population : List ℕ) (compared : List (ℕ × ℕ)) (k : ℕ) : Prop :=
  ∃ p ∈ compared, population[p.1]? = some k ∨ population[p.2]? = some k

theorem comparedIn_append {population : List ℕ} {compared : List (ℕ × ℕ)} {i j k parentId childId : ℕ}
    (hi : population[i]? = some parentId) (hj : population[j]? = some childId) :
    ComparedIn population (compared ++ [(i, j)]) k ↔
      ComparedIn population compared k ∨ k = parentId ∨ k = childId := by
  simp only [ComparedIn, List.mem_append, List.mem_singleton, or_and_right, exists_or,
    exists_eq_left, hi, hj, Option.some.injEq, eq_comm]

/-- The dominance loops stop with as many marks as members are too many, or go through
all pairs with fewer. -/
theorem Selecting.cleanByDominance {search : GDE3Search V}
    (hover : search.populationSize < search.population.length) {rest : List (ℕ × ℕ)} :
    ∀ {compared : List (ℕ × ℕ)} {s s' : GDE3Search V} {b : Bool},
      Selecting search srp (losers A (search.objectiveValues srp) search.population compared)
        (ComparedIn search.population compared) s →
      (losers A (search.objectiveValues srp) search.population compared).card <
        search.population.length - search.populationSize →
      GDE3Search.cleanByDominance A srp rest s = .ok (s', b) →
      (b = true ∧ ∃ marks compared', Selecting search srp marks compared' s' ∧
        marks.card = search.population.length - search.populationSize) ∨
      (b = false ∧ Selecting search srp
          (losers A (search.objectiveValues srp) search.population (compared ++ rest))
          (ComparedIn search.population (compared ++ rest)) s' ∧
        (losers A (search.objectiveValues srp) search.population (compared ++ rest)).card <
          search.population.length - search.populationSize) := by
  induction rest with
  | nil =>
    intro compared s s' b h hcard hrun
    rw [GDE3Search.cleanByDominance] at hrun
    have hret := Outcome.ok.inj hrun
    simp only [Prod.mk.injEq] at hret
    right
    rw [List.append_nil, ← hret.1]
    exact ⟨hret.2.symm, h, hcard⟩
  | cons pair rest ih =>
    obtain ⟨i, j⟩ := pair
    intro compared s s' b h hcard hrun
    rw [GDE3Search.cleanByDominance] at hrun
    obtain ⟨s₁, hpair, hrun⟩ := Outcome.bind_eq_ok.mp hrun
    obtain ⟨parentId, childId, hi, hj, h₁⟩ := h.dominatePair hpair
    rw [← losers_append] at h₁
    have h₂ := h₁.weaken fun k hk => (comparedIn_append hi hj).mp hk
    have hsub := losers_subset A (search.objectiveValues srp) search.population
      (compared ++ [(i, j)])
    have hle := Finset.card_le_card hsub
    rw [Finset.card_range] at hle
    have hstep : (losers A (search.objectiveValues srp) search.population
        (compared ++ [(i, j)])).card ≤
        (losers A (search.objectiveValues srp) search.population compared).card + 1 := by
      rw [losers_append]
      cases loser A (search.objectiveValues srp) search.population i j with
      | none => exact Nat.le_succ _
      | some l => exact Finset.card_insert_le _ _
    have hsize : s₁.population.length - s₁.tobeDropped.card = s₁.populationSize ↔
        (losers A (search.objectiveValues srp) search.population (compared ++ [(i, j)])).card =
          search.population.length - search.populationSize := by
      obtain ⟨r, optimalIds, hs, -, -⟩ := h₂
      rw [hs]
      simp only [marked]
      omega
    by_cases hdone : s₁.population.length - s₁.tobeDropped.card = s₁.populationSize
    · rw [if_pos hdone] at hrun
      have hret := Outcome.ok.inj hrun
      simp only [Prod.mk.injEq] at hret
      exact .inl ⟨hret.2.symm, _, _, hret.1 ▸ h₂, hsize.mp hdone⟩
    · rw [if_neg hdone] at hrun
      have hcard₁ := fun heq => hdone (hsize.mpr heq)
      have hrest := ih h₂ (by omega) hrun
      rwa [List.append_assoc, List.singleton_append] at hrest

theorem Selecting.marks_eq {search s : GDE3Search V} {marks : Finset ℕ} {compared : ℕ → Prop}
    (h : Selecting search srp marks compared s) :
    s.optimalIds.Nodup ∧ ∀ id ∈ s.optimalIds, id ∈ unmarked marks search.population := by
  obtain ⟨r, optimalIds, hs, hmarking, -⟩ := h
  rw [hs]
  exact ⟨hmarking.nodup, hmarking.optimal⟩

theorem optimalIds_drop {s s' : GDE3Search V} {i id : ℕ} (hnodup : s.optimalIds.Nodup)
    (h : s.drop i id = .ok s') (id' : ℕ) :
    id' ∈ s'.optimalIds ↔ id' ≠ id ∧ id' ∈ s.optimalIds := by
  obtain ⟨optimalIds', herase, hret⟩ := Outcome.bind_eq_ok.mp h
  rw [← Outcome.ok.inj hret, eraseLoop_spec hnodup herase]
  exact hnodup.mem_erase_iff

/-- The loser of a comparison is dropped, and the winner kept among the optimal ids. -/
theorem Selecting.settle {search s s' : GDE3Search V} {marks : Finset ℕ} {compared : ℕ → Prop}
    (h : Selecting search srp marks compared s) (hnodup : search.population.Nodup)
    {i winnerId loserId : ℕ} (hi : search.population[i]? = some loserId)
    (hwinner : winnerId ∈ unmarked marks search.population) (hne : winnerId ≠ loserId)
    (hdrop : s.drop i loserId = .ok s') :
    Selecting search srp (insert i marks) compared (s'.keep winnerId) ∧
      ∀ id, id ∈ (s'.keep winnerId).optimalIds ↔
        id ∈ unmarked (insert i marks) search.population ∧
          (id ∈ s.optimalIds ∨ id = winnerId ∨ id = loserId) := by
  obtain ⟨hnodupIds, hoptimal⟩ := h.marks_eq
  have hwinner' : winnerId ∈ unmarked (insert i marks) search.population :=
    (mem_unmarked_insert hnodup hi).mpr ⟨hne, hwinner⟩
  refine ⟨(h.drop hi hdrop).keep hwinner', fun id => ?_⟩
  simp only [GDE3Search.keep, mem_addOptimalId, mem_unmarked_insert hnodup hi,
    optimalIds_drop hnodupIds hdrop]
  constructor
  · intro hid
    cases hid with
    | inl hold => exact ⟨⟨hold.1, hoptimal id hold.2⟩, .inl hold.2⟩
    | inr hself => exact ⟨hself ▸ ⟨hne, hwinner⟩, .inr (.inl hself)⟩
  · intro ⟨hother, hid⟩
    cases hid with
    | inl hold => exact .inl ⟨hother.1, hold⟩
    | inr hnew => exact .inr (hnew.resolve_right hother.1)

/-- One parent with its child, of which neither is marked: the ones not marked are optimal then. -/
theorem Selecting.evaluateParent {search s s' : GDE3Search V} {marks : Finset ℕ}
    {compared : ℕ → Prop} (h : Selecting search srp marks compared s)
    (hnodup : search.population.Nodup) {i c : ℕ} (hchild : search.parentChildMap.get? i = some c)
    (hi : i ∉ marks) (hc : c ∉ marks) (hne : i ≠ c)
    (hrun : s.evaluateParent A srp i = .ok s') :
    ∃ parentId childId, search.population[i]? = some parentId ∧
      search.population[c]? = some childId ∧
      Selecting search srp (mark (loser A (search.objectiveValues srp) search.population i c) marks)
        (fun k => compared k ∨ k = parentId ∨ k = childId) s' ∧
      ∀ id, id ∈ s'.optimalIds ↔
        id ∈ unmarked (mark (loser A (search.objectiveValues srp) search.population i c) marks)
          search.population ∧ (id ∈ s.optimalIds ∨ id = parentId ∨ id = childId) := by
  have hpopulation := h.population
  have hmap : s.parentChildMap = search.parentChildMap := by
    obtain ⟨r, optimalIds, hs, -, -⟩ := h
    rw [hs]
    rfl
  rw [GDE3Search.evaluateParent, hpopulation, hmap, hchild] at hrun
  simp only at hrun
  obtain ⟨parentId, hparent, hrun⟩ := Outcome.bind_eq_ok.mp hrun
  obtain ⟨childId, hchildId, hrun⟩ := Outcome.bind_eq_ok.mp hrun
  have hp := Outcome.found_eq_ok.mp hparent
  have hq := Outcome.found_eq_ok.mp hchildId
  obtain ⟨s₁, hcompare, h₁⟩ :=
    h.compare (A := A) (List.mem_of_getElem? hp) (List.mem_of_getElem? hq)
  have hsame : s₁.optimalIds = s.optimalIds := by
    obtain ⟨r, optimalIds, hs, -, -⟩ := h
    rw [hs, compareScenarios_marked] at hcompare
    rw [← (Prod.mk.inj hcompare).1, hs]
    rfl
  rw [hcompare] at hrun
  have hoptimal₁ := h₁.marks_eq.2
  have hparentIn : parentId ∈ unmarked marks search.population :=
    mem_unmarked.mpr ⟨i, hp, hi⟩
  have hchildIn : childId ∈ unmarked marks search.population :=
    mem_unmarked.mpr ⟨c, hq, hc⟩
  have hids : parentId ≠ childId := by
    intro heq
    have hlt := (List.getElem?_eq_some_iff.mp hp).1
    exact hne ((List.getElem?_inj hlt hnodup).mp (hp.trans (heq ▸ hq.symm)))
  refine ⟨parentId, childId, hp, hq, ?_⟩
  rw [loser_eq A hp hq, dropped]
  simp only at hrun
  split_ifs at hrun ⊢ with hzero hneg
  · have hret := Outcome.ok.inj hrun
    rw [← hret]
    refine ⟨(h₁.keep hparentIn).keep hchildIn, fun id => ?_⟩
    simp only [GDE3Search.keep, mem_addOptimalId, mark, hsame, or_assoc]
    constructor
    · intro hid
      refine ⟨?_, hid⟩
      cases hid with
      | inl hold => exact hoptimal₁ id (hsame ▸ hold)
      | inr hnew =>
        cases hnew with
        | inl hself => exact hself ▸ hparentIn
        | inr hself => exact hself ▸ hchildIn
    · exact fun hid => hid.2
  · obtain ⟨s₂, hdrop, hret⟩ := Outcome.bind_eq_ok.mp hrun
    rw [← Outcome.ok.inj hret, ← hsame]
    exact h₁.settle hnodup hq hparentIn hids hdrop
  · obtain ⟨s₂, hdrop, hret⟩ := Outcome.bind_eq_ok.mp hrun
    obtain ⟨hselecting, hmem⟩ := h₁.settle hnodup hp hchildIn hids.symm hdrop
    rw [← Outcome.ok.inj hret, ← hsame]
    refine ⟨hselecting, fun id => ?_⟩
    rw [hmem id, or_comm (a := id = childId)]
    rfl

/-- The pairs of parent and child among the first parents. -/
def childPairs (search : GDE3Search V) (parents : ℕ) : List (ℕ × ℕ) :=
  (List.range parents).filterMap fun i => (search.parentChildMap.get? i).map fun c => (i, c)

theorem mem_childPairs {search : GDE3Search V} {parents : ℕ} {p : ℕ × ℕ} :
    p ∈ search.childPairs parents ↔
      p.1 < parents ∧ search.parentChildMap.get? p.1 = some p.2 := by
  simp only [childPairs, List.mem_filterMap, List.mem_range, Option.map_eq_some_iff]
  constructor
  · intro ⟨i, hi, c, hc, heq⟩
    exact heq ▸ ⟨hi, hc⟩
  · intro ⟨hi, hc⟩
    exact ⟨p.1, hi, p.2, hc, rfl⟩

theorem childPairs_succ (search : GDE3Search V) (parents : ℕ) :
    search.childPairs (parents + 1) = search.childPairs parents ++
      ((search.parentChildMap.get? parents).map fun c => (parents, c)).toList := by
  rw [childPairs, List.range_succ, List.filterMap_append]
  cases h : search.parentChildMap.get? parents with
  | none => simp [childPairs, h]
  | some c => simp [childPairs, h]

/-- A search between two calls: no marks, and every optimal id is a member. -/
structure Ready (search : GDE3Search V) : Prop where
  members : search.toGeneration.Members
  family : search.toGeneration.Family
  nodup : search.optimalIds.Nodup
  optimal : ∀ id ∈ search.optimalIds, id ∈ search.population
  settled : search.tobeDropped = ∅

theorem Ready.population_nodup {search : GDE3Search V} (h : search.Ready) :
    search.population.Nodup :=
  h.members.sorted.imp ne_of_lt

theorem Ready.selecting {search : GDE3Search V} (h : search.Ready) (srp : ResultsPool V) :
    Selecting search srp ∅ (fun _ => False) search := by
  refine ⟨search.toObjectiveRecords, search.optimalIds, ?_, ?_, fun k _ => rfl, fun k hk => hk.elim⟩
  · rw [← h.settled]
    rfl
  · refine ⟨Finset.empty_subset _, h.nodup, ?_⟩
    rw [unmarked_empty]
    exact h.optimal

theorem Ready.cleanup {search s : GDE3Search V} (h : search.Ready) {marks : Finset ℕ}
    {compared : ℕ → Prop} (hs : Selecting search srp marks compared s) :
    s.cleanupPopulation.Ready ∧
      s.cleanupPopulation.population = unmarked marks search.population := by
  obtain ⟨r, optimalIds, rfl, hmarking, -⟩ := hs
  have hsub : (unmarked marks search.population).Sublist search.population :=
    unmarked_sublist marks search.population
  refine ⟨⟨⟨h.members.sorted.sublist hsub, fun id hid => h.members.older id (hsub.subset hid)⟩,
    ⟨?_, ?_, ?_⟩, hmarking.nodup, hmarking.optimal, rfl⟩, rfl⟩
  · exact fun i c hc => absurd hc (by simp [cleanupPopulation])
  · exact fun i c j hc => absurd hc (by simp [cleanupPopulation])
  · exact fun i j c hc => absurd hc (by simp [cleanupPopulation])

/-- The positions that lose against their parent or child. -/
def pairLosers (A : DoubleArith V) (srp : ResultsPool V) (search : GDE3Search V) : Finset ℕ :=
  losers A (search.objectiveValues srp) search.population
    (search.childPairs search.population.length)

/-- The members that do not lose against their parent or child. -/
def survivors (A : DoubleArith V) (srp : ResultsPool V) (search : GDE3Search V) : List ℕ :=
  unmarked (pairLosers A srp search) search.population

/-- The loop over the parents drops one of each pair at most. A member that stays is optimal if
it was before or if it has been compared. -/
theorem Ready.evaluateParents {search s : GDE3Search V} (h : search.Ready)
    (hrun : (List.range search.population.length).foldlM (evaluateParent A srp) search = .ok s) :
    Selecting search srp (pairLosers A srp search)
        (ComparedIn search.population (search.childPairs search.population.length)) s ∧
      ∀ id, id ∈ s.optimalIds ↔ id ∈ survivors A srp search ∧ (id ∈ search.optimalIds ∨
        ComparedIn search.population (search.childPairs search.population.length) id) := by
  refine Outcome.foldlM_range (fun i s =>
    Selecting search srp
        (losers A (search.objectiveValues srp) search.population (search.childPairs i))
        (ComparedIn search.population (search.childPairs i)) s ∧
      ∀ id, id ∈ s.optimalIds ↔ id ∈ unmarked
          (losers A (search.objectiveValues srp) search.population (search.childPairs i))
          search.population ∧
        (id ∈ search.optimalIds ∨ ComparedIn search.population (search.childPairs i) id))
    ?_ ?_ hrun
  · intro i s s' hi ⟨hselecting, hmem⟩ hround
    have hmap : s.parentChildMap = search.parentChildMap := by
      obtain ⟨r, optimalIds, hs, -, -⟩ := hselecting
      rw [hs]
      rfl
    rw [childPairs_succ]
    cases hchild : search.parentChildMap.get? i with
    | none =>
      rw [evaluateParent, hmap, hchild] at hround
      have hret := Outcome.ok.inj hround
      rw [Option.map_none, Option.toList_none, List.append_nil, ← hret]
      exact ⟨hselecting, hmem⟩
    | some c =>
      rw [Option.map_some, Option.toList_some]
      have hkey : i ∈ search.parentChildMap.keys := OrdMap.mem_keys.mpr ⟨c, hchild⟩
      have hlater := h.family.later i c i hchild hkey
      -- neither of the pair is a parent before `i` or the child of one
      have hother : ∀ l ∈ losers A (search.objectiveValues srp) search.population
          (search.childPairs i), l ≠ i ∧ l ≠ c := by
        intro l hl
        obtain ⟨⟨j, d⟩, hp, hloser⟩ := (mem_losers A).mp hl
        obtain ⟨hj, hd⟩ := mem_childPairs.mp hp
        obtain ⟨_, _, _, _, hcase⟩ := loser_eq_some A hloser
        have hjd := h.family.later j d j hd (OrdMap.mem_keys.mpr ⟨d, hd⟩)
        have hid := h.family.later j d i hd hkey
        have hsingle : d ≠ c := fun heq => by
          have := h.family.single j i d hd (heq ▸ hchild)
          omega
        simp only at hj hcase
        omega
      obtain ⟨parentId, childId, hp, hq, hselecting', hmem'⟩ :=
        hselecting.evaluateParent h.population_nodup hchild (fun hmem => (hother i hmem).1 rfl)
          (fun hmem => (hother c hmem).2 rfl) hlater.ne hround
      rw [losers_append]
      refine ⟨hselecting'.weaken fun k hk => (comparedIn_append hp hq).mp hk, fun id => ?_⟩
      rw [hmem' id, hmem id, comparedIn_append hp hq]
      have hstay : id ∈ unmarked (mark
          (loser A (search.objectiveValues srp) search.population i c)
          (losers A (search.objectiveValues srp) search.population (search.childPairs i)))
          search.population → id ∈ unmarked
          (losers A (search.objectiveValues srp) search.population (search.childPairs i))
          search.population := by
        intro hid
        obtain ⟨j, hj, hnot⟩ := mem_unmarked.mp hid
        refine mem_unmarked.mpr ⟨j, hj, fun hmem => hnot ?_⟩
        cases loser A (search.objectiveValues srp) search.population i c with
        | none => exact hmem
        | some l => exact Finset.mem_insert_of_mem hmem
      tauto
  · have hnone : search.childPairs 0 = [] := rfl
    have hlosers : losers A (search.objectiveValues srp) search.population [] = ∅ := rfl
    rw [hnone, hlosers, unmarked_empty]
    refine ⟨(h.selecting srp).weaken fun k hk => ?_, fun id => ?_⟩
    · obtain ⟨p, hp, -⟩ := hk
      exact absurd hp List.not_mem_nil
    · constructor
      · exact fun hid => ⟨h.optimal id hid, .inl hid⟩
      · intro ⟨_, hid⟩
        cases hid with
        | inl hold => exact hold
        | inr hnew =>
          obtain ⟨p, hp, -⟩ := hnew
          exact absurd hp List.not_mem_nil

/-- What no part of `searchFinished` touches. -/
structure Untouched (search s : GDE3Search V) : Prop where
  searchSpaces : s.searchSpaces = search.searchSpaces
  scenarios : s.scenarios = search.scenarios
  populElem : s.populElem = search.populElem
  nextId : s.nextId = search.nextId
  populationSize : s.populationSize = search.populationSize
  objectiveFunctions : s.objectiveFunctions = search.objectiveFunctions

theorem Untouched.trans {search s s' : GDE3Search V} (h : Untouched search s)
    (h' : Untouched s s') : Untouched search s' :=
  ⟨h'.1.trans h.1, h'.2.trans h.2, h'.3.trans h.3, h'.4.trans h.4, h'.5.trans h.5, h'.6.trans h.6⟩

theorem Selecting.untouched {search s : GDE3Search V} {marks : Finset ℕ} {compared : ℕ → Prop}
    (h : Selecting search srp marks compared s) : Untouched search s.cleanupPopulation := by
  obtain ⟨r, optimalIds, rfl, -, -⟩ := h
  exact ⟨rfl, rfl, rfl, rfl, rfl, rfl⟩

/-- After the comparison of parents and children. A member that has been dropped is recorded
with its values of now. -/
structure Evaluated (A : DoubleArith V) (srp : ResultsPool V) (search s : GDE3Search V) :
    Prop where
  ready : s.Ready
  untouched : Untouched search s
  population : s.population = survivors A srp search
  optimal : ∀ id, id ∈ s.optimalIds ↔ id ∈ survivors A srp search ∧
    (id ∈ search.optimalIds ∨
      ComparedIn search.population (search.childPairs search.population.length) id)
  records : Recorded (search.objectiveValues srp) search.population search.scenarioObjValMap
    (fun k => k ∈ search.population ∧ k ∉ survivors A srp search) s.toObjectiveRecords

theorem Ready.evaluateChildren {search s : GDE3Search V} (h : search.Ready)
    (hrun : search.evaluateChildren A srp = .ok s) : Evaluated A srp search s := by
  obtain ⟨s₁, hloop, hret⟩ := Outcome.bind_eq_ok.mp hrun
  obtain ⟨hselecting, hmem⟩ := h.evaluateParents hloop
  rw [← Outcome.ok.inj hret]
  obtain ⟨hready, hpopulation⟩ := h.cleanup hselecting
  refine ⟨hready, hselecting.untouched, hpopulation, hmem, ?_⟩
  obtain ⟨r, optimalIds, rfl, -, hrecorded⟩ := hselecting
  refine ⟨hrecorded.elsewhere, fun k ⟨hk, hdropped⟩ => hrecorded.now k ?_⟩
  obtain ⟨i, hi⟩ := List.mem_iff_getElem?.mp hk
  have hlost : i ∈ pairLosers A srp search := by
    by_contra hnot
    exact hdropped (mem_unmarked.mpr ⟨i, hi, hnot⟩)
  obtain ⟨pair, hpair, hloser⟩ := (mem_losers A).mp hlost
  obtain ⟨_, _, _, _, hcase⟩ := loser_eq_some A hloser
  refine ⟨pair, hpair, ?_⟩
  cases hcase with
  | inl hchild => exact .inr (hchild.2 ▸ hi)
  | inr hparent => exact .inl (hparent.2 ▸ hi)

end GDE3Search
end ReadexPtf.Autotune
