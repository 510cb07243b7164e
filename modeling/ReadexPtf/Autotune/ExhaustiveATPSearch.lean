import ReadexPtf.Autotune.IndividualKeep
import Mathlib

/-! The exhaustive search over application tuning parameters: the valid combinations of a domain
come from a server, and parameters are objects that are told apart by their addresses. -/
namespace ReadexPtf.Autotune
open ReadexPtf

/-- The tuning parameters by their addresses. -/
structure ParameterObjects where
  name : Nat → String
  restriction : Nat → Option Restriction

def ParameterObjects.setRestriction (objects : ParameterObjects) (tp : Nat) (r : Restriction) :
    ParameterObjects :=
  { objects with restriction := fun a => if a = tp then some r else objects.restriction a }

/-- A search space with a domain; its variant space holds pointers. -/
structure DomainSpace where
  domain : String
  regions : List String
  rtsVector : List String
  tuningParameters : List Nat

def DomainSpace.entities (space : DomainSpace) : SearchSpace := ⟨space.regions, space.rtsVector, []⟩

/-- The queue, the path and the extremes are kept by the same code as in the exhaustive search. -/
structure ExhaustiveATPSearch (Srp V : Type) where
  searchSpaces : List DomainSpace
  evaluation : ExhaustiveSearch Srp V

namespace ExhaustiveATPSearch

section Create
variable (withRtsSupport : Bool) (getValidConfigurations : String → List (List Int))
variable (objects : ParameterObjects)

/-- The combination is read with `at`. -/
def setCombination (tuningParameters : List Nat) (combination : List Int) (variantSS : Variant) :
    Outcome Variant :=
  tuningParameters.zipIdx.foldlM (fun variantSS e =>
    match combination[e.2]? with
    | none => .throws "out_of_range"
    | some x => .ok (variantSS.set e.1 x)) variantSS

/-- Without valid combinations the last element of each vector restriction is taken. -/
def setRestricted (tuningParameters : List Nat) (variantSS : Variant) : Outcome Variant :=
  tuningParameters.foldlM (fun variantSS tp =>
    match objects.restriction tp with
    | none => .undefined
    | some r => .ok (if r.type = 2 then r.elements.foldl (fun v x => v.set tp x) variantSS
        else variantSS)) variantSS

/-- The end of the recursion in one search space; `next` is `iterate_SS( SS_index + 1, .. )`. -/
def endCombination (next : List TuningSpecification → Creation →
      Outcome (List TuningSpecification × Creation)) (space : DomainSpace) (w : Walk) :
    Outcome Walk := do
  let spec ← specification withRtsSupport space.entities w.variantSS
  let (ts, creation) ← next (w.ts ++ [spec]) w.creation
  .ok { w with ts := ts.dropLast, creation }

def iterateValidCombination (next : List TuningSpecification → Creation →
      Outcome (List TuningSpecification × Creation)) (space : DomainSpace)
    (validCombinations : List (List Int)) (w : Walk) : Outcome Walk :=
  match space.tuningParameters with
  | [] => endCombination withRtsSupport next space w
  | _ :: _ =>
    match validCombinations with
    | [] => do
      let variantSS ← setRestricted objects space.tuningParameters w.variantSS
      endCombination withRtsSupport next space { w with variantSS }
    | _ :: _ =>
      validCombinations.foldlM (fun w combination => do
        let variantSS ← setCombination space.tuningParameters combination w.variantSS
        endCombination withRtsSupport next space { w with variantSS }) w

/-- The server is asked about domains that have a name. -/
def validCombinations (space : DomainSpace) : List (List Int) :=
  if space.domain = "" then [] else getValidConfigurations space.domain

def iterateSS : List DomainSpace → List TuningSpecification → Creation →
    Outcome (List TuningSpecification × Creation)
  | [], ts, c => .ok (ts, generatescenario withRtsSupport ts c)
  | space :: rest, ts, c => do
    let w ← iterateValidCombination withRtsSupport objects (iterateSS rest) space
      (validCombinations getValidConfigurations space) ⟨.empty, ts, c⟩
    .ok (w.ts, w.creation)

end Create

variable {Srp V : Type}

def addObjectiveFunction (search : ExhaustiveATPSearch Srp V) (obj : Nat → Srp → V) :
    ExhaustiveATPSearch Srp V :=
  { search with evaluation := search.evaluation.addObjectiveFunction obj }

def addSearchSpace (search : ExhaustiveATPSearch Srp V) (space : DomainSpace) :
    ExhaustiveATPSearch Srp V :=
  { search with searchSpaces := search.searchSpaces ++ [space] }

/-- Both extremes are reset to the greatest number. -/
def clear (dblMax : V) (search : ExhaustiveATPSearch Srp V) : ExhaustiveATPSearch Srp V where
  searchSpaces := []
  evaluation := search.evaluation.clear dblMax dblMax

def createScenarios (withRtsSupport : Bool) (getValidConfigurations : String → List (List Int))
    (objects : ParameterObjects) (ptfMinObjective : Nat → Srp → V)
    (search : ExhaustiveATPSearch Srp V) (pools : ScenarioPools) :
    Outcome (ExhaustiveATPSearch Srp V × ScenarioPools) := do
  let objectiveFunctions :=
    if search.evaluation.objectiveFunctions.isEmpty then [ptfMinObjective]
    else search.evaluation.objectiveFunctions
  let (_, c) ← iterateSS withRtsSupport getValidConfigurations objects search.searchSpaces []
    ⟨search.evaluation.scenarioIds, pools⟩
  .ok ({ search with
    evaluation := { search.evaluation with objectiveFunctions, scenarioIds := c.scenarioIds } },
    c.pools)

def searchFinished [LT V] [DecidableLT V] (search : ExhaustiveATPSearch Srp V) (srp : Srp) :
    Outcome (ExhaustiveATPSearch Srp V) := do
  let evaluation ← search.evaluation.searchFinished srp
  .ok { search with evaluation }

end ExhaustiveATPSearch

/-- The first specification of every scenario of the pool has a variant that meets `good`. -/
def ScenarioPools.FrontMeets (good : Variant → Prop) (pools : ScenarioPools) : Prop :=
  ∀ scenario ∈ pools.createdSince 0, ∃ spec rest, scenario.ts = spec :: rest ∧ good spec.variant

/-- The variant has values for some of these parameters only. -/
def KeysIn (tps : List Nat) (v : Variant) : Prop := ∀ a ∈ v.keys, a ∈ tps

namespace ExhaustiveATPSearch

section Spec
variable {rts : Bool} {getValidConfigurations : String → List (List Int)}
variable {objects : ParameterObjects}

theorem keysIn_set {tps : List Nat} {v : Variant} (h : KeysIn tps v) {tp : Nat} (htp : tp ∈ tps)
    (x : Int) : KeysIn tps (v.set tp x) := by
  intro a ha
  cases OrdMap.mem_keys_set.mp ha with
  | inl hself => exact hself ▸ htp
  | inr hold => exact h a hold

theorem keysIn_setCombination {tps : List Nat} {combination : List Int} {v v' : Variant}
    (h : KeysIn tps v) (hset : setCombination tps combination v = .ok v') : KeysIn tps v' := by
  have hfold : ∀ (es : List (Nat × Nat)), (∀ e ∈ es, e.1 ∈ tps) → ∀ v v' : Variant, KeysIn tps v →
      es.foldlM (fun (variantSS : Variant) e =>
        match combination[e.2]? with
        | none => Outcome.throws "out_of_range"
        | some x => .ok (variantSS.set e.1 x)) v = .ok v' → KeysIn tps v' := by
    intro es
    induction es with
    | nil => exact fun _ v v' h hset => Outcome.ok.inj hset ▸ h
    | cons e es ih =>
      intro hes v v' h hset
      obtain ⟨he, hes⟩ := List.forall_mem_cons.mp hes
      rw [List.foldlM_cons] at hset
      cases hread : combination[e.2]? with
      | none => simp [hread] at hset
      | some x =>
        rw [hread, Outcome.ok_bind] at hset
        exact ih hes _ _ (keysIn_set h he x) hset
  exact hfold _ (fun e he => List.fst_mem_of_mem_zipIdx he) v v' h hset

theorem keysIn_setRestricted {tps : List Nat} {v v' : Variant} (h : KeysIn tps v)
    (hset : setRestricted objects tps v = .ok v') : KeysIn tps v' := by
  have helements : ∀ (xs : List Int) (tp : Nat), tp ∈ tps → ∀ v : Variant, KeysIn tps v →
      KeysIn tps (xs.foldl (fun v x => v.set tp x) v) := by
    intro xs tp htp
    induction xs with
    | nil => exact fun v h => h
    | cons x xs ih => exact fun v h => ih _ (keysIn_set h htp x)
  have hfold : ∀ (tps' : List Nat), tps' ⊆ tps → ∀ v v' : Variant, KeysIn tps v →
      setRestricted objects tps' v = .ok v' → KeysIn tps v' := by
    intro tps'
    induction tps' with
    | nil => exact fun _ v v' h hset => Outcome.ok.inj hset ▸ h
    | cons tp tps' ih =>
      intro hsub v v' h hset
      obtain ⟨htp, hsub⟩ := List.cons_subset.mp hsub
      rw [setRestricted, List.foldlM_cons] at hset
      cases hrestriction : objects.restriction tp with
      | none => simp [hrestriction] at hset
      | some r =>
        rw [hrestriction, Outcome.ok_bind] at hset
        refine ih hsub _ v' ?_ hset
        split_ifs
        · exact helements _ tp htp v h
        · exact h
  exact hfold tps (List.Subset.refl tps) v v' h hset

/-- What a call of `iterate_SS` that returns has done. -/
structure Iterated (ts : List TuningSpecification) (c : Creation) (ts' : List TuningSpecification)
    (c' : Creation) : Prop where
  restored : ts' = ts
  grown : Grown c c'
  front : ∀ (good : Variant → Prop) spec rest, ts = spec :: rest → good spec.variant →
    c.pools.FrontMeets good → c'.pools.FrontMeets good

theorem iterated_generatescenario (ts : List TuningSpecification) (c : Creation) :
    Iterated ts c ts (generatescenario rts ts c) where
  restored := rfl
  grown := grown_generatescenario ts c
  front := by
    intro good spec rest hts hgood hmeets scenario hscenario
    rw [generatescenario, ScenarioPools.createdSince_create _ _ (Nat.zero_le _), List.mem_append,
      List.mem_singleton] at hscenario
    cases hscenario with
    | inl hold => exact hmeets scenario hold
    | inr hnew =>
      rw [hnew, hts]
      exact ⟨_, _, rfl, hgood⟩

section Walk
variable {next : List TuningSpecification → Creation →
  Outcome (List TuningSpecification × Creation)} {space : DomainSpace}

/-- One combination of values: its scenarios have the variant in front if nothing is before it. -/
theorem endCombination_spec
    (hnext : ∀ ts c ts' c', next ts c = .ok (ts', c') → Iterated ts c ts' c') {w w' : Walk}
    (h : endCombination rts next space w = .ok w') :
    w'.variantSS = w.variantSS ∧ Iterated w.ts w.creation w'.ts w'.creation ∧
      (w.ts = [] → ∀ good : Variant → Prop, good w.variantSS →
        w.creation.pools.FrontMeets good → w'.creation.pools.FrontMeets good) := by
  obtain ⟨spec, hspec, h⟩ := Outcome.bind_eq_ok.mp h
  obtain ⟨⟨ts, c⟩, hcall, h⟩ := Outcome.bind_eq_ok.mp h
  have hcalled := hnext _ _ _ _ hcall
  have hts : ts.dropLast = w.ts := by rw [hcalled.restored, List.dropLast_concat]
  rw [← Outcome.ok.inj h]
  refine ⟨rfl, ⟨hts, hcalled.grown, fun good first rest hfirst hgood hmeets => ?_⟩,
    fun hnil good hgood hmeets => ?_⟩
  · exact hcalled.front good first (rest ++ [spec]) (by rw [hfirst]; rfl) hgood hmeets
  · have hfront : w.ts ++ [spec] = spec :: [] := by rw [hnil]; rfl
    exact hcalled.front good spec [] hfront ((specification_variant hspec).symm ▸ hgood) hmeets

/-- All combinations of one search space. -/
theorem iterateValidCombination_spec
    (hnext : ∀ ts c ts' c', next ts c = .ok (ts', c') → Iterated ts c ts' c')
    {valid : List (List Int)} {w w' : Walk}
    (hkeys : KeysIn space.tuningParameters w.variantSS)
    (h : iterateValidCombination rts objects next space valid w = .ok w') :
    Iterated w.ts w.creation w'.ts w'.creation ∧
      (w.ts = [] → w.creation.pools.FrontMeets (KeysIn space.tuningParameters) →
        w'.creation.pools.FrontMeets (KeysIn space.tuningParameters)) := by
  unfold iterateValidCombination at h
  split at h
  · obtain ⟨-, hcall, hfront⟩ := endCombination_spec hnext h
    exact ⟨hcall, fun hnil => hfront hnil _ hkeys⟩
  · split at h
    · obtain ⟨variantSS, hset, h⟩ := Outcome.bind_eq_ok.mp h
      obtain ⟨-, hcall, hfront⟩ := endCombination_spec hnext h
      exact ⟨hcall, fun hnil => hfront hnil _ (keysIn_setRestricted hkeys hset)⟩
    · refine Outcome.foldlM_invariant (fun u : Walk => KeysIn space.tuningParameters u.variantSS ∧
          Iterated w.ts w.creation u.ts u.creation ∧
          (w.ts = [] → w.creation.pools.FrontMeets (KeysIn space.tuningParameters) →
            u.creation.pools.FrontMeets (KeysIn space.tuningParameters)))
        (fun u combination u' hu hstep => ?_) _ _ _
        ⟨hkeys, ⟨rfl, Grown.refl _, fun _ _ _ _ _ hmeets => hmeets⟩, fun _ hmeets => hmeets⟩ h
        |>.2
      obtain ⟨hukeys, hdone, hufront⟩ := hu
      obtain ⟨variantSS, hset, hstep⟩ := Outcome.bind_eq_ok.mp hstep
      obtain ⟨hvariant, hcall, hfront⟩ := endCombination_spec hnext hstep
      have hset := keysIn_setCombination hukeys hset
      refine ⟨hvariant ▸ hset, ⟨hcall.restored.trans hdone.restored,
        hdone.grown.trans hcall.grown, fun good spec rest hts hgood hmeets => ?_⟩,
        fun hnil hmeets => ?_⟩
      · exact hcall.front good spec rest (hdone.restored.trans hts) hgood
          (hdone.front good spec rest hts hgood hmeets)
      · exact hfront (hdone.restored.trans hnil) _ hset (hufront hnil hmeets)

end Walk

theorem iterateSS_iterated {spaces : List DomainSpace} :
    ∀ (ts : List TuningSpecification) (c : Creation) (ts' : List TuningSpecification)
      (c' : Creation), iterateSS rts getValidConfigurations objects spaces ts c = .ok (ts', c') →
      Iterated ts c ts' c' := by
  induction spaces with
  | nil =>
    intro ts c ts' c' h
    obtain ⟨hts, hc⟩ := Prod.mk.inj (Outcome.ok.inj h)
    exact hts ▸ hc ▸ iterated_generatescenario ts c
  | cons space rest ih =>
    intro ts c ts' c' h
    obtain ⟨w, hwalk, h⟩ := Outcome.bind_eq_ok.mp h
    obtain ⟨hts, hc⟩ := Prod.mk.inj (Outcome.ok.inj h)
    have hempty : KeysIn space.tuningParameters .empty := by simp [KeysIn]
    exact hts ▸ hc ▸ (iterateValidCombination_spec ih hempty hwalk).1

/-- The variants in front of the scenarios are those of the first search space. -/
theorem iterateSS_front {space : DomainSpace} {rest : List DomainSpace} {c c' : Creation}
    {ts' : List TuningSpecification}
    (h : iterateSS rts getValidConfigurations objects (space :: rest) [] c = .ok (ts', c'))
    (hempty : c.pools.createdSince 0 = []) :
    c'.pools.FrontMeets (KeysIn space.tuningParameters) := by
  obtain ⟨w, hwalk, h⟩ := Outcome.bind_eq_ok.mp h
  have hc : w.creation = c' := (Prod.mk.inj (Outcome.ok.inj h)).2
  have hnone : KeysIn space.tuningParameters .empty := by simp [KeysIn]
  exact hc ▸ (iterateValidCombination_spec iterateSS_iterated hnone hwalk).2 rfl
    (by simp [ScenarioPools.FrontMeets, hempty])

end Spec

variable {Srp V : Type}

/-- What creating the scenarios of some search spaces into empty pools leaves. -/
structure CreatedAll (space : DomainSpace) (search' : ExhaustiveATPSearch Srp V)
    (pools' : ScenarioPools) : Prop where
  path : search'.evaluation.path = .empty
  objective : search'.evaluation.objectiveFunctions ≠ []
  queued : search'.evaluation.scenarioIds = (pools'.createdSince 0).map Scenario.id
  distinct : ((pools'.createdSince 0).map Scenario.id).Nodup
  front : pools'.FrontMeets (KeysIn space.tuningParameters)

theorem createdAll {rts : Bool} {getValidConfigurations : String → List (List Int)}
    {objects : ParameterObjects} {ptfMinObjective : Nat → Srp → V}
    {search search' : ExhaustiveATPSearch Srp V} {pools pools' : ScenarioPools}
    {space : DomainSpace} {rest : List DomainSpace}
    (h : search.createScenarios rts getValidConfigurations objects ptfMinObjective pools =
      .ok (search', pools'))
    (hspaces : search.searchSpaces = space :: rest) (hpath : search.evaluation.path = .empty)
    (hidle : search.evaluation.scenarioIds = []) (hempty : pools.createdSince 0 = []) :
    CreatedAll space search' pools' := by
  obtain ⟨⟨ts, c⟩, hiterate, h⟩ := Outcome.bind_eq_ok.mp h
  obtain ⟨hsearch, hpools⟩ := Prod.mk.inj (Outcome.ok.inj h)
  rw [hspaces] at hiterate
  have hgrown := (iterateSS_iterated _ _ _ _ hiterate).grown
  have hpushed := hgrown.pushed 0 (Nat.zero_le _)
  rw [hempty, List.map_nil, List.nil_append] at hpushed
  rw [← hsearch, ← hpools]
  refine ⟨hpath, ?_, ?_, ?_, iterateSS_front hiterate hempty⟩
  · cases hobjectives : search.evaluation.objectiveFunctions <;> simp
  · rw [hpushed, hgrown.queued, hidle]
    rfl
  · rw [hpushed]
    exact List.nodup_range'

theorem searchFinished_evaluates [LT V] [DecidableLT V] (srp : Srp)
    {search : ExhaustiveATPSearch Srp V} (hobjective : search.evaluation.objectiveFunctions ≠ []) :
    ∃ search', search.searchFinished srp = .ok search' ∧ search'.evaluation.scenarioIds = [] ∧
      ∀ id, id ∈ search'.evaluation.path.keys ↔
        id ∈ search.evaluation.path.keys ∨ id ∈ search.evaluation.scenarioIds := by
  obtain ⟨evaluation, hcall, hdone, hkeys⟩ :=
    ExhaustiveSearch.searchFinished_evaluates srp hobjective
  refine ⟨{ search with evaluation }, ?_, hdone, hkeys⟩
  rw [searchFinished, hcall, Outcome.ok_bind]

end ExhaustiveATPSearch
end ReadexPtf.Autotune
