import ReadexPtf.Lib.Outcome
import ReadexPtf.Autotune.SearchSpace

/-! The scenario pools of the tuning framework. A pool is a map from ids to scenarios, and
a scenario is always stored under its own id. -/
namespace ReadexPtf.Frontend
open Autotune (Scenario)

structure ScenarioPool where
  scenarios : OrdMap Nat Scenario
  keyed : ∀ e ∈ scenarios.entries, e.1 = e.2.id

namespace ScenarioPool

def clear : ScenarioPool := ⟨.empty, fun _ he => absurd he List.not_mem_nil⟩

def empty (pool : ScenarioPool) : Bool := pool.scenarios.entries.isEmpty

def size (pool : ScenarioPool) : Nat := pool.scenarios.entries.length

/-- What the pool holds, in the order of the ids. -/
def contents (pool : ScenarioPool) : List Scenario := pool.scenarios.entries.map Prod.snd

theorem keyed_set {scenarios : OrdMap Nat Scenario}
    (hkeyed : ∀ e ∈ scenarios.entries, e.1 = e.2.id) (scenario : Scenario) :
    ∀ e ∈ (scenarios.set scenario.id scenario).entries, e.1 = e.2.id := by
  intro e he
  cases OrdMap.Entries.mem_insert he with
  | inl hnew => rw [hnew]
  | inr hold => exact hkeyed e hold

theorem keyed_insertNew {scenarios : OrdMap Nat Scenario}
    (hkeyed : ∀ e ∈ scenarios.entries, e.1 = e.2.id) (scenario : Scenario) :
    ∀ e ∈ (scenarios.insertNew scenario.id scenario).entries, e.1 = e.2.id := by
  rw [OrdMap.insertNew]
  split_ifs with hthere
  · exact hkeyed
  · exact keyed_set hkeyed scenario

/-- A scenario whose id is in the pool already is not taken in. -/
def push (pool : ScenarioPool) (scenario : Scenario) : ScenarioPool :=
  ⟨pool.scenarios.insertNew scenario.id scenario, keyed_insertNew pool.keyed scenario⟩

/-- The pool without the entry under `id`. -/
def erase (pool : ScenarioPool) (id : Nat) : ScenarioPool :=
  ⟨pool.scenarios.filterKeys fun key => key != id,
    fun e he => pool.keyed e (List.mem_of_mem_filter he)⟩

/-- `pop()`: the scenario with the lowest id. `begin()` of an empty map is not dereferenceable. -/
def pop (pool : ScenarioPool) : Outcome (Scenario × ScenarioPool) :=
  match pool.scenarios.entries with
  | [] => .undefined
  | e :: _ => .ok (e.2, pool.erase e.1)

/-- `pop( id )`: a null pointer where no scenario has the id. -/
def popId (pool : ScenarioPool) (id : Nat) : Option (Scenario × ScenarioPool) :=
  (pool.scenarios.entries.find? fun e => e.2.id == id).map fun e => (e.2, pool.erase e.1)

@[simp] theorem contents_clear : clear.contents = [] := rfl

theorem empty_iff {pool : ScenarioPool} : pool.empty = true ↔ pool.contents = [] := by
  simp [empty, contents]

theorem length_contents (pool : ScenarioPool) : pool.contents.length = pool.size :=
  List.length_map ..

theorem map_id_contents (pool : ScenarioPool) :
    pool.contents.map Scenario.id = pool.scenarios.keys := by
  rw [contents, List.map_map]
  exact List.map_congr_left fun e he => (pool.keyed e he).symm

/-- A scenario with an id of its own is taken in. -/
theorem push_perm {pool : ScenarioPool} {scenario : Scenario}
    (hnew : scenario.id ∉ pool.contents.map Scenario.id) :
    (pool.push scenario).contents.Perm (scenario :: pool.contents) := by
  rw [map_id_contents] at hnew
  have hnone : ¬ (pool.scenarios.get? scenario.id).isSome := by
    intro hsome
    exact hnew (OrdMap.mem_keys.mpr (Option.isSome_iff_exists.mp hsome))
  have hentries : (pool.push scenario).scenarios.entries =
      OrdMap.Entries.insert scenario.id scenario pool.scenarios.entries := by
    change (pool.scenarios.insertNew scenario.id scenario).entries = _
    rw [OrdMap.insertNew, if_neg hnone]
    rfl
  rw [contents, hentries]
  exact (OrdMap.Entries.insert_perm hnew scenario).map Prod.snd

/-- Erasing the entry of a scenario leaves the others. -/
theorem erase_perm {pool : ScenarioPool} {e : Nat × Scenario}
    (he : e ∈ pool.scenarios.entries) :
    pool.contents.Perm (e.2 :: (pool.erase e.1).contents) :=
  (OrdMap.Entries.filter_ne_perm pool.scenarios.sorted he).map Prod.snd

theorem pop_ok {pool rest : ScenarioPool} {scenario : Scenario}
    (h : pool.pop = .ok (scenario, rest)) : pool.contents.Perm (scenario :: rest.contents) := by
  rw [pop] at h
  split at h
  · cases h
  · rename_i e es hentries
    cases h
    exact erase_perm (by rw [hentries]; exact List.mem_cons_self)

theorem pop_returns {pool : ScenarioPool} (h : pool.empty = false) :
    ∃ scenario rest, pool.pop = .ok (scenario, rest) := by
  rw [pop]
  cases hentries : pool.scenarios.entries with
  | nil => simp [empty, hentries] at h
  | cons e es => exact ⟨_, _, rfl⟩

/-- A pool is known by what it holds. -/
theorem ext_contents {pool pool' : ScenarioPool} (h : pool.contents = pool'.contents) :
    pool = pool' := by
  have hentries (pool : ScenarioPool) :
      pool.scenarios.entries = pool.contents.map fun scenario => (scenario.id, scenario) := by
    rw [contents, List.map_map]
    conv_lhs => rw [← List.map_id pool.scenarios.entries]
    exact List.map_congr_left fun e he => Prod.ext (pool.keyed e he) rfl
  have heq : pool.scenarios.entries = pool'.scenarios.entries := by
    rw [hentries pool, hentries pool', h]
  obtain ⟨⟨entries, _⟩, _⟩ := pool
  obtain ⟨⟨entries', _⟩, _⟩ := pool'
  subst heq
  rfl

/-- The scenarios leave the pool in the order of their ids. -/
theorem pop_of_contents {pool : ScenarioPool} {scenario : Scenario} {rest : List Scenario}
    (h : pool.contents = scenario :: rest) :
    ∃ pool', pool.pop = .ok (scenario, pool') ∧ pool'.contents = rest := by
  cases hentries : pool.scenarios.entries with
  | nil => rw [contents, hentries] at h; cases h
  | cons e es =>
    rw [contents, hentries, List.map_cons, List.cons.injEq] at h
    have hsorted := pool.scenarios.sorted
    rw [hentries, List.pairwise_cons] at hsorted
    have hkept : ∀ e' ∈ es, (e'.1 != e.1) = true := fun e' he' =>
      bne_iff_ne.mpr (hsorted.1 e' he').ne'
    refine ⟨pool.erase e.1, ?_, ?_⟩
    · rw [pop, hentries, ← h.1]
    · change (pool.scenarios.entries.filter fun e' => e'.1 != e.1).map Prod.snd = rest
      rw [hentries, List.filter_cons_of_neg (by simp), List.filter_eq_self.mpr hkept, h.2]

/-- A scenario that is moved through an empty pool. -/
theorem pop_push_clear (scenario : Scenario) :
    (clear.push scenario).pop = .ok (scenario, clear) := by
  have hone : (clear.push scenario).contents = [scenario] := rfl
  obtain ⟨pool', hpop, hrest⟩ := pop_of_contents hone
  rw [hpop, ext_contents (hrest.trans contents_clear.symm)]

theorem popId_some {pool rest : ScenarioPool} {scenario : Scenario} {id : Nat}
    (h : pool.popId id = some (scenario, rest)) :
    pool.contents.Perm (scenario :: rest.contents) := by
  rw [popId] at h
  cases hfind : pool.scenarios.entries.find? fun e => e.2.id == id with
  | none =>
    rw [hfind] at h
    cases h
  | some e =>
    rw [hfind] at h
    cases h
    exact erase_perm (List.mem_of_find?_eq_some hfind)

end ScenarioPool

/-- The two ways in which a plugin takes a scenario out of a pool. -/
inductive Pop where
  | lowest
  | byId (id : Nat)
  deriving DecidableEq, Repr

/-- What a plugin goes on with. It dereferences a null pointer as any other. -/
def ScenarioPool.take (pool : ScenarioPool) : Pop → Outcome (Scenario × ScenarioPool)
  | .lowest => pool.pop
  | .byId id => Outcome.found (pool.popId id)

theorem ScenarioPool.take_ok {pool rest : ScenarioPool} {scenario : Scenario} {pop : Pop}
    (h : pool.take pop = .ok (scenario, rest)) :
    pool.contents.Perm (scenario :: rest.contents) := by
  cases pop with
  | lowest => exact pop_ok h
  | byId id => exact popId_some (Outcome.found_eq_ok.mp h)

/-- `target->push( source->pop() )`. -/
def moveScenario (pools : ScenarioPool × ScenarioPool) (pop : Pop) :
    Outcome (ScenarioPool × ScenarioPool) := do
  let (scenario, source) ← pools.1.take pop
  return (source, pools.2.push scenario)

/-- The moves of one call of a plugin. -/
def moveScenarios (source target : ScenarioPool) (pops : List Pop) :
    Outcome (ScenarioPool × ScenarioPool) :=
  pops.foldlM moveScenario (source, target)

/-- What a number of moves does to the two pools. -/
structure Moved (count : Nat) (source target source' target' : ScenarioPool) : Prop where
  perm : (source'.contents ++ target'.contents).Perm (source.contents ++ target.contents)
  stays : target.contents ⊆ target'.contents
  leaves : source'.contents ⊆ source.contents
  size : target'.size = target.size + count

/-- Moves go from one pool to the other. -/
theorem Moved.mem {count : Nat} {source target source' target' : ScenarioPool}
    (h : Moved count source target source' target') :
    ∀ scenario ∈ source.contents, scenario ∈ source'.contents ∨ scenario ∈ target'.contents :=
  fun _ hs => List.mem_append.mp (h.perm.symm.subset (List.mem_append_left _ hs))

theorem Moved.refl (source target : ScenarioPool) : Moved 0 source target source target :=
  ⟨.refl _, List.Subset.refl _, List.Subset.refl _, rfl⟩

theorem Moved.trans {m n : Nat} {a b c a' b' c' : ScenarioPool} (h : Moved m a a' b b')
    (h' : Moved n b b' c c') : Moved (m + n) a a' c c' :=
  ⟨h'.perm.trans h.perm, fun _ hs => h'.stays (h.stays hs), fun _ hs => h.leaves (h'.leaves hs),
    by rw [h'.size, h.size, Nat.add_assoc]⟩

/-- The pools of one move: no id is in both of them. -/
theorem Moved.one {source source' target : ScenarioPool} {scenario : Scenario}
    (hids : ((source.contents ++ target.contents).map Scenario.id).Nodup)
    (hpop : source.contents.Perm (scenario :: source'.contents)) :
    Moved 1 source target source' (target.push scenario) := by
  have hids' : ((scenario :: source'.contents ++ target.contents).map Scenario.id).Nodup :=
    ((hpop.append_right _).map _).nodup_iff.mp hids
  have hnew : scenario.id ∉ target.contents.map Scenario.id := by
    rw [List.cons_append, List.map_cons, List.map_append, List.nodup_cons] at hids'
    exact fun hmem => hids'.1 (List.mem_append_right _ hmem)
  have hpush := ScenarioPool.push_perm hnew
  refine ⟨?_, ?_, ?_, ?_⟩
  · calc List.Perm (source'.contents ++ (target.push scenario).contents)
          (source'.contents ++ (scenario :: target.contents)) := hpush.append_left _
      List.Perm _ (scenario :: source'.contents ++ target.contents) := List.perm_middle
      List.Perm _ (source.contents ++ target.contents) := hpop.symm.append_right _
  · exact fun _ hs => hpush.symm.subset (List.mem_cons_of_mem _ hs)
  · exact fun _ hs => hpop.symm.subset (List.mem_cons_of_mem _ hs)
  · rw [← ScenarioPool.length_contents, hpush.length_eq, List.length_cons,
      ScenarioPool.length_contents]

theorem moveScenario_ok {source target source' target' : ScenarioPool} {pop : Pop}
    (hids : ((source.contents ++ target.contents).map Scenario.id).Nodup)
    (h : moveScenario (source, target) pop = .ok (source', target')) :
    Moved 1 source target source' target' := by
  rw [moveScenario, Outcome.bind_eq_ok] at h
  obtain ⟨⟨scenario, rest⟩, hpop, hpush⟩ := h
  cases hpush
  exact .one hids (ScenarioPool.take_ok hpop)

theorem moveScenarios_ok {pops : List Pop} : ∀ {source target source' target' : ScenarioPool},
    ((source.contents ++ target.contents).map Scenario.id).Nodup →
    moveScenarios source target pops = .ok (source', target') →
    Moved pops.length source target source' target' := by
  induction pops with
  | nil =>
    intro source target source' target' _ h
    cases h
    exact .refl _ _
  | cons pop pops ih =>
    intro source target source' target' hids h
    rw [moveScenarios, List.foldlM_cons, Outcome.bind_eq_ok] at h
    obtain ⟨⟨source₁, target₁⟩, hone, hrest⟩ := h
    have hfirst := moveScenario_ok hids hone
    have hlater := ih ((hfirst.perm.map _).nodup_iff.mpr hids) hrest
    rw [List.length_cons, Nat.add_comm]
    exact hfirst.trans hlater

end ReadexPtf.Frontend
