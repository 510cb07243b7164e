import ReadexPtf.Frontend.ScenarioResultsPool
import ReadexPtf.Lib.StableSort

/-! The pool of the analysis results: the properties of the experiments, under their numbers. A
number that is looked up is in the pool from then on. -/
namespace ReadexPtf.AnalysisResults
open ReadexPtf Agents ScenarioResults
variable {V : Type}

structure AnalysisResultsPool (V : Type) where
  resultsPerExperiment : OrdMap ℤ (List (MetaProperty V))

def entityId (property : MetaProperty V) : String :=
  if property.rtsBased then property.callpath else property.regionId

namespace AnalysisResultsPool

def empty : AnalysisResultsPool V := ⟨.empty⟩

/-- The properties of an experiment; of one that is not in the pool there are none. -/
def entriesOf (pool : AnalysisResultsPool V) (experiment_number : ℤ) : List (MetaProperty V) :=
  (pool.resultsPerExperiment.get? experiment_number).getD []

def pushExperimentProperty (pool : AnalysisResultsPool V) (property : MetaProperty V)
    (experiment_number : ℤ) : AnalysisResultsPool V :=
  ⟨pool.resultsPerExperiment.set experiment_number
    (pool.entriesOf experiment_number ++ [property])⟩

/-- `operator[]` puts an empty list into the map where there is none. -/
def getExperimentProperties (pool : AnalysisResultsPool V) (experiment_number : ℤ) :
    List (MetaProperty V) × AnalysisResultsPool V :=
  (pool.entriesOf experiment_number, ⟨pool.resultsPerExperiment.insertNew experiment_number []⟩)

/-- The inner loop. -/
def selectProperties (id : ℤ) (entity : String) (props properties : List (MetaProperty V)) :
    Outcome (List (MetaProperty V)) :=
  properties.foldlM (fun props p => do
    let scenarioID ← scenarioId p
    return if scenarioID = id ∧ entity = entityId p then props ++ [p] else props) props

/-- The outer loop, which is bounded by the size of the map. -/
def selectFrom (id : ℤ) (entity : String) (exp : ℤ) (props : List (MetaProperty V))
    (pool : AnalysisResultsPool V) : Outcome (List (MetaProperty V) × AnalysisResultsPool V) :=
  if exp < pool.resultsPerExperiment.keys.length then do
    let (properties, pool) := pool.getExperimentProperties exp
    let props ← selectProperties id entity props properties
    if exp < intMax then selectFrom id entity (exp + 1) props pool else .undefined
  else .ok (props, pool)
termination_by (intMax - exp).toNat

def getPropertiesForScenarioIDandEntity (pool : AnalysisResultsPool V) (id : ℤ)
    (entity : String) : Outcome (List (MetaProperty V) × AnalysisResultsPool V) :=
  selectFrom id entity 0 [] pool

end AnalysisResultsPool

inductive Call (V : Type) where
  | push (property : MetaProperty V) (experiment_number : ℤ)
  | get (id : ℤ) (entity : String)

/-- The pool and the lists that were returned. -/
structure Run (V : Type) where
  pool : AnalysisResultsPool V
  answers : List (List (MetaProperty V))

def Run.call (s : Run V) : Call V → Outcome (Run V)
  | .push property experiment_number =>
    .ok { s with pool := s.pool.pushExperimentProperty property experiment_number }
  | .get id entity => do
    let (props, pool) ← s.pool.getPropertiesForScenarioIDandEntity id entity
    return ⟨pool, s.answers ++ [props]⟩

def Run.calls (s : Run V) (calls : List (Call V)) : Outcome (Run V) := calls.foldlM Run.call s

/-- What is pushed, with the number of its experiment. -/
abbrev Pushes (V : Type) := List (ℤ × MetaProperty V)

def Asked (id : ℤ) (entity : String) (property : MetaProperty V) : Prop :=
  scenarioId property = .ok id ∧ entityId property = entity
instance (id : ℤ) (entity : String) (property : MetaProperty V) :
    Decidable (Asked id entity property) := inferInstanceAs (Decidable (_ ∧ _))

/-- In the order of the experiment numbers and then of insertion. -/
def Pushes.asked (pushes : Pushes V) (id : ℤ) (entity : String) : List (MetaProperty V) :=
  ((stableSort Prod.fst pushes).map Prod.snd).filter fun property => Asked id entity property

/-- What the calls are to return, each from what is pushed before it. -/
def answersTo (pushes : Pushes V) : List (Call V) → List (List (MetaProperty V))
  | [] => []
  | .push property experiment_number :: calls =>
    answersTo (pushes ++ [(experiment_number, property)]) calls
  | .get id entity :: calls => pushes.asked id entity :: answersTo pushes calls

/-- A property is pushed with a scenario, under a number that is not negative. -/
def Call.Valid : Call V → Prop
  | .push property experiment_number =>
    0 ≤ experiment_number ∧ experiment_number ≤ intMax ∧ ∃ id, scenarioId property = .ok id
  | .get _ _ => True

/-- The number leaves one for the loop counter. -/
def Call.Below : Call V → Prop
  | .push _ experiment_number => experiment_number < intMax
  | .get _ _ => True

namespace AnalysisResultsPool
variable {pushes : Pushes V} {pool : AnalysisResultsPool V} {id : ℤ} {entity : String}

/-- The pool has what is pushed. -/
structure Stores (pushes : Pushes V) (pool : AnalysisResultsPool V) : Prop where
  entries : ∀ n, pool.entriesOf n = (pushes.filter fun p => p.1 = n).map Prod.snd
  named : ∀ p ∈ pushes, ∃ id, scenarioId p.2 = .ok id

/-- The numbers in the pool are less than `b`, and the greatest one is the number before `b`;
all of those before `exp` are in it. -/
structure Known (pool : AnalysisResultsPool V) (exp b : ℕ) : Prop where
  bounds : ∀ k ∈ pool.resultsPerExperiment.keys, 0 ≤ k ∧ k < b
  last : 0 < b → (b : ℤ) - 1 ∈ pool.resultsPerExperiment.keys
  below : ∀ n < exp, (n : ℤ) ∈ pool.resultsPerExperiment.keys

theorem selectProperties_eq {properties : List (MetaProperty V)}
    (hnamed : ∀ p ∈ properties, ∃ id, scenarioId p = .ok id) (props : List (MetaProperty V)) :
    selectProperties id entity props properties =
      .ok (props ++ properties.filter fun p => Asked id entity p) := by
  rw [selectProperties]
  induction properties generalizing props with
  | nil => simp
  | cons p properties ih =>
    rw [List.forall_mem_cons] at hnamed
    obtain ⟨⟨scenarioID, hid⟩, hrest⟩ := hnamed
    rw [List.foldlM_cons, hid, Outcome.ok_bind, Outcome.pure_eq, Outcome.ok_bind, ih hrest]
    have hasked : Asked id entity p ↔ scenarioID = id ∧ entity = entityId p := by
      rw [Asked, hid, Outcome.ok.injEq, eq_comm (a := entityId p)]
    by_cases hp : Asked id entity p
    · rw [if_pos (hasked.mp hp), List.filter_cons_of_pos (by simpa using hp), List.append_assoc,
        List.singleton_append]
    · rw [if_neg (hasked.not.mp hp), List.filter_cons_of_neg (by simpa using hp)]

theorem entriesOf_insertNew (exp n : ℤ) :
    entriesOf ⟨pool.resultsPerExperiment.insertNew exp []⟩ n = pool.entriesOf n := by
  rw [entriesOf, OrdMap.get?_insertNew, entriesOf]
  cases pool.resultsPerExperiment.get? n with
  | some properties => rfl
  | none =>
    rw [Option.none_or]
    split_ifs <;> rfl

/-- The loop goes on as long as there is a number that it has not come to. -/
theorem Known.lt_length_iff {exp b : ℕ} (h : Known pool exp b) :
    (exp : ℤ) < pool.resultsPerExperiment.keys.length ↔ exp < b := by
  have hnodup := pool.resultsPerExperiment.keys_nodup
  rw [Int.ofNat_lt, ← List.toFinset_card_of_nodup hnodup]
  constructor
  · intro hlt
    have hsub : pool.resultsPerExperiment.keys.toFinset ⊆ Finset.Ico (0 : ℤ) b := by
      intro k hk
      rw [List.mem_toFinset] at hk
      exact Finset.mem_Ico.mpr (h.bounds k hk)
    have hcard := Finset.card_le_card hsub
    rw [Int.card_Ico, sub_zero, Int.toNat_natCast] at hcard
    exact hlt.trans_le hcard
  · intro hlt
    have hsub : insert ((b : ℤ) - 1) (Finset.Ico (0 : ℤ) exp) ⊆
        pool.resultsPerExperiment.keys.toFinset := by
      intro k hk
      rw [List.mem_toFinset]
      rcases Finset.mem_insert.mp hk with rfl | hk
      · exact h.last (by omega)
      · rw [Finset.mem_Ico] at hk
        have hn := h.below k.toNat (by omega)
        rwa [Int.toNat_of_nonneg hk.1] at hn
    have hcard := Finset.card_le_card hsub
    rw [Finset.card_insert_of_notMem (by simp [Finset.mem_Ico]; omega), Int.card_Ico, sub_zero,
      Int.toNat_natCast] at hcard
    exact hcard

theorem Known.succ {exp b : ℕ} (h : Known pool exp b) (hlt : exp < b) :
    Known ⟨pool.resultsPerExperiment.insertNew exp []⟩ (exp + 1) b := by
  constructor
  · intro k hk
    rcases OrdMap.mem_keys_insertNew.mp hk with rfl | hk
    · exact ⟨Int.natCast_nonneg exp, Int.ofNat_lt.mpr hlt⟩
    · exact h.bounds k hk
  · exact fun hpos => OrdMap.mem_keys_insertNew.mpr (.inr (h.last hpos))
  · intro n hn
    rw [OrdMap.mem_keys_insertNew]
    rcases Nat.lt_succ_iff_lt_or_eq.mp hn with hless | rfl
    · exact .inr (h.below n hless)
    · exact .inl rfl

theorem Stores.insertNew (h : Stores pushes pool) (exp : ℤ) :
    Stores pushes ⟨pool.resultsPerExperiment.insertNew exp []⟩ :=
  ⟨fun n => by rw [entriesOf_insertNew, h.entries], h.named⟩

/-- A round that the loop comes to. -/
theorem selectFrom_round {exp b : ℕ} (h : Stores pushes pool) (hknown : Known pool exp b)
    (hlt : exp < b) (props : List (MetaProperty V)) :
    selectFrom id entity exp props pool =
      if (exp : ℤ) < intMax then
        selectFrom id entity (exp + 1 : ℕ)
          (props ++ (pool.entriesOf exp).filter fun p => Asked id entity p)
          ⟨pool.resultsPerExperiment.insertNew exp []⟩
      else .undefined := by
  have hnamed : ∀ p ∈ pool.entriesOf exp, ∃ id, scenarioId p = .ok id := by
    rw [h.entries]
    intro p hp
    obtain ⟨q, hq, rfl⟩ := List.mem_map.mp hp
    exact h.named q (List.mem_of_mem_filter hq)
  rw [selectFrom, if_pos (hknown.lt_length_iff.mpr hlt), getExperimentProperties]
  simp only [selectProperties_eq hnamed]
  rw [Outcome.ok_bind, Nat.cast_succ]

/-- The rounds that are left, up to the greatest number. -/
theorem selectFrom_returns (id : ℤ) (entity : String) {b : ℕ} (hfits : (b : ℤ) ≤ intMax)
    (left : ℕ) : ∀ {exp : ℕ} (props : List (MetaProperty V)) {pool : AnalysisResultsPool V},
      Stores pushes pool → Known pool exp b → exp + left = b → ∃ pool',
        selectFrom id entity exp props pool =
          .ok (props ++ (List.range' exp left).flatMap fun n : ℕ =>
            (pool.entriesOf n).filter fun p => Asked id entity p, pool') ∧
        Stores pushes pool' ∧ Known pool' b b := by
  induction left with
  | zero =>
    intro exp props pool h hknown hexp
    obtain rfl : exp = b := hexp
    refine ⟨pool, ?_, h, hknown⟩
    rw [selectFrom, if_neg (hknown.lt_length_iff.not.mpr (lt_irrefl _))]
    simp
  | succ left ih =>
    intro exp props pool h hknown hexp
    have hlt : exp < b := by omega
    obtain ⟨pool', hrun, hstores, hall⟩ :=
      ih (props ++ (pool.entriesOf exp).filter fun p => Asked id entity p) (h.insertNew exp)
        (hknown.succ hlt) (by omega)
    refine ⟨pool', ?_, hstores, hall⟩
    rw [selectFrom_round h hknown hlt, if_pos (by omega), hrun, List.range'_succ, List.flatMap_cons,
      List.append_assoc]
    simp only [entriesOf_insertNew]

/-- The loop comes to the greatest `int`, which has no successor. -/
theorem selectFrom_overflows (id : ℤ) (entity : String) {b : ℕ} (hfits : (b : ℤ) = intMax + 1)
    (left : ℕ) : ∀ {exp : ℕ} (props : List (MetaProperty V)) {pool : AnalysisResultsPool V},
      Stores pushes pool → Known pool exp b → exp + (left + 1) = b →
        selectFrom id entity exp props pool = .undefined := by
  induction left with
  | zero =>
    intro exp props pool h hknown hexp
    rw [selectFrom_round h hknown (by omega), if_neg (by omega)]
  | succ left ih =>
    intro exp props pool h hknown hexp
    rw [selectFrom_round h hknown (by omega), if_pos (by omega),
      ih _ (h.insertNew exp) (hknown.succ (by omega)) (by omega)]

theorem exists_known (hbounds : ∀ k ∈ pool.resultsPerExperiment.keys, 0 ≤ k) :
    ∃ b : ℕ, Known pool 0 b := by
  rcases List.eq_nil_or_concat pool.resultsPerExperiment.keys with hnil | ⟨ks, g, hkeys⟩
  · refine ⟨0, ?_, fun hpos => absurd hpos (lt_irrefl 0),
      fun n hn => absurd hn (Nat.not_lt_zero n)⟩
    rw [hnil]
    exact List.forall_mem_nil _
  · -- the keys are in order, so the last one is the greatest
    have hsorted : pool.resultsPerExperiment.keys.Pairwise (· < ·) :=
      List.pairwise_map.mpr pool.resultsPerExperiment.sorted
    rw [List.concat_eq_append] at hkeys
    rw [hkeys] at hbounds hsorted
    have hg : 0 ≤ g := hbounds g (by simp)
    refine ⟨g.toNat + 1, ?_, fun _ => ?_, fun n hn => absurd hn (Nat.not_lt_zero n)⟩
    · rw [hkeys]
      intro k hk
      refine ⟨hbounds k hk, ?_⟩
      rcases List.mem_append.mp hk with hk | hk
      · have hless := (List.pairwise_append.mp hsorted).2.2 k hk g (List.mem_singleton_self g)
        omega
      · rw [List.mem_singleton.mp hk]
        omega
    · rw [hkeys]
      simp [Int.toNat_of_nonneg hg]

theorem Stores.push (h : Stores pushes pool) {property : MetaProperty V} {n : ℤ}
    (hnamed : ∃ id, scenarioId property = .ok id) :
    Stores (pushes ++ [(n, property)]) (pool.pushExperimentProperty property n) := by
  constructor
  · intro n'
    rw [entriesOf, pushExperimentProperty, OrdMap.get?_set, List.filter_append, List.map_append,
      ← h.entries]
    by_cases hn : n' = n
    · simp [hn]
    · simp [hn, Ne.symm hn, entriesOf]
  · rw [List.forall_mem_append, List.forall_mem_singleton]
    exact ⟨h.named, hnamed⟩

theorem Stores.mem_keys (h : Stores pushes pool) {p : ℤ × MetaProperty V} (hp : p ∈ pushes) :
    p.1 ∈ pool.resultsPerExperiment.keys := by
  have hentry : p.2 ∈ pool.entriesOf p.1 := by
    rw [h.entries]
    exact List.mem_map_of_mem (List.mem_filter.mpr ⟨hp, decide_eq_true rfl⟩)
  rw [OrdMap.mem_keys]
  cases hget : pool.resultsPerExperiment.get? p.1 with
  | some properties => exact ⟨properties, rfl⟩
  | none =>
    rw [entriesOf, hget] at hentry
    cases hentry

/-- The order of the loop is that of the numbers and then of insertion. -/
theorem asked_eq (h : Stores pushes pool) {b : ℕ} (hknown : Known pool 0 b) :
    pushes.asked id entity = (List.range' 0 b).flatMap fun n : ℕ =>
      (pool.entriesOf n).filter fun p => Asked id entity p := by
  have hks : ((List.range' 0 b).map (Nat.cast : ℕ → ℤ)).Pairwise (· < ·) := by
    rw [List.pairwise_map]
    exact List.Pairwise.imp Int.ofNat_lt.mpr List.pairwise_lt_range'
  have hmem : ∀ p ∈ pushes, p.1 ∈ (List.range' 0 b).map (Nat.cast : ℕ → ℤ) := by
    intro p hp
    have hbounds := hknown.bounds p.1 (h.mem_keys hp)
    refine List.mem_map.mpr ⟨p.1.toNat, ?_, Int.toNat_of_nonneg hbounds.1⟩
    rw [List.mem_range'_1]
    omega
  rw [Pushes.asked, StableSort.eq_flatMap hks hmem, List.flatMap_map, List.map_flatMap,
    List.filter_flatMap]
  exact List.flatMap_congr fun n _ => by rw [h.entries]

/-- A lookup gives what it is to give, and leaves what is pushed in the pool. -/
theorem get_returns (id : ℤ) (entity : String) (h : Stores pushes pool)
    (hbounds : ∀ k ∈ pool.resultsPerExperiment.keys, 0 ≤ k ∧ k < intMax) : ∃ pool',
      pool.getPropertiesForScenarioIDandEntity id entity = .ok (pushes.asked id entity, pool') ∧
        Stores pushes pool' ∧ ∀ k ∈ pool'.resultsPerExperiment.keys, 0 ≤ k ∧ k < intMax := by
  obtain ⟨b, hknown⟩ := exists_known fun k hk => (hbounds k hk).1
  have hfits : (b : ℤ) ≤ intMax := by
    rcases Nat.eq_zero_or_pos b with rfl | hpos
    · decide
    · have hlast := (hbounds _ (hknown.last hpos)).2
      omega
  obtain ⟨pool', hrun, hstores, hall⟩ :=
    selectFrom_returns id entity hfits b [] h hknown (Nat.zero_add b)
  refine ⟨pool', ?_, hstores, fun k hk => ?_⟩
  · rw [getPropertiesForScenarioIDandEntity, asked_eq h hknown]
    exact hrun
  · have hk' := hall.bounds k hk
    exact ⟨hk'.1, hk'.2.trans_le hfits⟩

end AnalysisResultsPool

section Runs
open AnalysisResultsPool

theorem calls_answer {calls : List (Call V)} : ∀ {pushes : Pushes V} {s : Run V},
    Stores pushes s.pool →
    (∀ k ∈ s.pool.resultsPerExperiment.keys, 0 ≤ k ∧ k < intMax) →
    (∀ c ∈ calls, c.Valid ∧ c.Below) →
      ∃ pool, s.calls calls = .ok ⟨pool, s.answers ++ answersTo pushes calls⟩ := by
  induction calls with
  | nil =>
    intro pushes s _ _ _
    exact ⟨s.pool, by rw [answersTo, List.append_nil]; rfl⟩
  | cons c calls ih =>
    intro pushes s hstores hbounds hcalls
    rw [List.forall_mem_cons] at hcalls
    obtain ⟨⟨hvalid, hbelow⟩, hlater⟩ := hcalls
    cases c with
    | push property n =>
      refine ih (s := { s with pool := s.pool.pushExperimentProperty property n })
        (hstores.push hvalid.2.2) ?_ hlater
      intro k hk
      rcases OrdMap.mem_keys_set.mp hk with rfl | hk
      · exact ⟨hvalid.1, hbelow⟩
      · exact hbounds k hk
    | get id entity =>
      obtain ⟨pool', hget, hstores', hbounds'⟩ := get_returns id entity hstores hbounds
      obtain ⟨pool'', hrest⟩ := ih (s := ⟨pool', s.answers ++ [pushes.asked id entity]⟩)
        hstores' hbounds' hlater
      refine ⟨pool'', ?_⟩
      rw [List.append_assoc, List.singleton_append] at hrest
      rw [Run.calls, List.foldlM_cons, Run.call, hget, answersTo]
      exact hrest

/-- Every lookup ends with what was pushed before it for its scenario and entity, in the order of
the experiments and then of insertion. -/
theorem calls_answersTo {calls : List (Call V)} (h : ∀ c ∈ calls, c.Valid ∧ c.Below) :
    ∃ pool, Run.calls ⟨.empty, []⟩ calls = .ok ⟨pool, answersTo [] calls⟩ :=
  calls_answer ⟨fun _ => rfl, List.forall_mem_nil _⟩ (List.forall_mem_nil _) h

/-- A property of scenario 3 and of the region `r`. -/
def ofScenario3 : MetaProperty ℚ :=
  { MetaProperty.emptyProp 0 with
    regionId := "r"
    addInfo := OrdMap.empty.set "ScenarioID" "3" }

theorem ofScenario3_valid {n : ℤ} (hn : 0 ≤ n) (hfits : n ≤ intMax) :
    (Call.push ofScenario3 n).Valid :=
  ⟨hn, hfits, 3, by decide +kernel⟩

/-- Experiments 7 and 2, in this order, and lookups between. -/
theorem calls_gap : ∃ pool,
    Run.calls ⟨.empty, []⟩ [.push ofScenario3 7, .get 3 "r", .push ofScenario3 2, .get 3 "r"] =
      .ok ⟨pool, [[ofScenario3], [ofScenario3, ofScenario3]]⟩ :=
  calls_answersTo (by
    simp only [List.forall_mem_cons]
    have h7 : (7 : ℤ) < intMax := by decide
    have h2 : (2 : ℤ) < intMax := by decide
    exact ⟨⟨ofScenario3_valid (by decide) h7.le, h7⟩, ⟨trivial, trivial⟩,
      ⟨ofScenario3_valid (by decide) h2.le, h2⟩, ⟨trivial, trivial⟩, List.forall_mem_nil _⟩)

/-- Under the greatest `int` the loop counter overflows. -/
theorem not_calls_answersTo : ¬ ∀ calls : List (Call ℚ), (∀ c ∈ calls, c.Valid) →
    ∃ pool, Run.calls ⟨.empty, []⟩ calls = .ok ⟨pool, answersTo [] calls⟩ := by
  intro h
  obtain ⟨pool, hrun⟩ := h [.push ofScenario3 intMax, .get 3 "r"] (by
    simp only [List.forall_mem_cons]
    exact ⟨ofScenario3_valid (by decide) le_rfl, trivial, List.forall_mem_nil _⟩)
  have hstores : Stores [(intMax, ofScenario3)]
      (AnalysisResultsPool.empty.pushExperimentProperty ofScenario3 intMax) :=
    Stores.push ⟨fun _ => rfl, List.forall_mem_nil _⟩ ⟨3, by decide +kernel⟩
  have hkeys : ∀ k, k ∈ (AnalysisResultsPool.empty.pushExperimentProperty ofScenario3
      intMax).resultsPerExperiment.keys ↔ k = intMax := fun k => by
    rw [pushExperimentProperty, OrdMap.mem_keys_set]
    simp [AnalysisResultsPool.empty]
  have hknown : Known (AnalysisResultsPool.empty.pushExperimentProperty ofScenario3 intMax)
      0 2147483648 := by
    refine ⟨fun k hk => ?_, fun _ => (hkeys _).mpr (by rw [intMax]; norm_num),
      fun n hn => absurd hn (Nat.not_lt_zero n)⟩
    rw [(hkeys k).mp hk, intMax]
    norm_num
  have hget := selectFrom_overflows 3 "r" (by rw [intMax]; norm_num) 2147483647 [] hstores hknown
    (by norm_num)
  rw [Run.calls, List.foldlM_cons, Run.call, Outcome.ok_bind, List.foldlM_cons, Run.call,
    getPropertiesForScenarioIDandEntity] at hrun
  rw [Nat.cast_zero] at hget
  rw [hget] at hrun
  cases hrun

end Runs
end ReadexPtf.AnalysisResults
