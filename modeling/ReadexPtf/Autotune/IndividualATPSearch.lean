import ReadexPtf.Autotune.ExhaustiveATPSearch
import Mathlib

/-! The individual search over application tuning parameters: one domain after the other, the
parameters of a domain restricted to the values of its best scenario. -/
namespace ReadexPtf.Autotune
open ReadexPtf

/-- A search space of the caller: the parameters of a domain are distinct objects. -/
structure Domain extends DomainSpace where
  distinct : tuningParameters.Nodup

structure IndividualATPSearch (Srp V : Type) where
  searchAlgorithm : ExhaustiveATPSearch Srp V
  searchStepCount : Int
  tuningParameters : List Nat
  exploredTuningParameters : List Nat
  searchSpaces : List Domain
  objectiveFunctions : List (Nat → Srp → V)
  selection : OrdMap Nat (List Int)
  individualSearchPath : OrdMap Nat V
  bestScenario : Option Nat
  bestEnergy : V
  tpEliminated : Int
  individual_keep : Int
  worstScenario : Option Nat
  worstEnergy : V

namespace IndividualATPSearch
variable {Srp V : Type}

/-- The constructor, `initialize` and `setScenariosToKeep`; the energies are not initialised. -/
def initialized (dblMax unset : V) (individual_keep : Int) : IndividualATPSearch Srp V where
  searchAlgorithm := ⟨[], .init dblMax dblMax⟩
  searchStepCount := 0
  tuningParameters := []
  exploredTuningParameters := []
  searchSpaces := []
  objectiveFunctions := []
  selection := .empty
  individualSearchPath := .empty
  bestScenario := none
  bestEnergy := unset
  tpEliminated := 0
  individual_keep := individual_keep
  worstScenario := none
  worstEnergy := unset

def addSearchSpace (s : IndividualATPSearch Srp V) (searchSpace : Domain) :
    IndividualATPSearch Srp V :=
  { s with searchSpaces := s.searchSpaces ++ [searchSpace] }

def addObjectiveFunction (s : IndividualATPSearch Srp V) (obj : Nat → Srp → V) :
    IndividualATPSearch Srp V :=
  { s with objectiveFunctions := s.objectiveFunctions ++ [obj] }

section Select
variable (objects : ParameterObjects) (tuningParameters : List Nat)

/-- `getTPIndex` with the parameter it finds. -/
def getTP (name : String) : Option Nat :=
  tuningParameters.find? fun tp => name = objects.name tp

/-- The loop over the values of a scenario, from the first address above `last` on. Reading a
parameter that has no value inserts one, which the loop may reach later; the fuel counts the
addresses. -/
def selectedFrom : Nat → Variant → Option Nat → List Int
  | 0, _, _ => []
  | fuel + 1, values, last =>
    match values.entries.find? fun e => ∀ a ∈ last, a < e.1 with
    | none => []
    | some e =>
      match getTP objects tuningParameters (objects.name e.1) with
      | none => selectedFrom fuel values (some e.1)
      | some tp =>
        (values.get? tp).getD 0 :: selectedFrom fuel (values.insertNew tp 0) (some e.1)

/-- The values pushed for a scenario, in the order of the addresses of the parameters. -/
def selectedValues (values : Variant) : List Int :=
  selectedFrom objects tuningParameters (values.entries.length + tuningParameters.length) values none

def select (pools : ScenarioPools) : Outcome (OrdMap Nat (List Int)) :=
  pools.csp.entries.foldlM (fun selection e =>
    match e.2.ts with
    | [] => .undefined
    | spec :: _ => .ok ((selectedValues objects tuningParameters spec.variant).foldl
        (fun selection v => selection.set e.2.id ((selection.get? e.2.id).getD [] ++ [v])) selection))
    .empty

end Select

/-- The entities of a search space, or one default entity. -/
def entitySpace (withRtsSupport : Bool) (space : Domain) (domain : String)
    (tuningParameters : List Nat) : DomainSpace where
  domain := domain
  regions := if withRtsSupport then [] else if space.regions.isEmpty then [""] else space.regions
  rtsVector :=
    if withRtsSupport then if space.rtsVector.isEmpty then [""] else space.rtsVector else []
  tuningParameters := tuningParameters

/-- The search spaces of one step: the domain, and the parameters explored before. -/
def stepSpaces (withRtsSupport : Bool) (s : IndividualATPSearch Srp V) (space : Domain) :
    List DomainSpace :=
  entitySpace withRtsSupport space space.domain space.tuningParameters ::
    if s.searchSpaces.length > 1 ∧ s.exploredTuningParameters.length > 0 then
      [entitySpace withRtsSupport space "" s.exploredTuningParameters]
    else []

def createScenarios (withRtsSupport : Bool) (getValidConfigurations : String → List (List Int))
    (ptfMinObjective : Nat → Srp → V) (dblMax : V) (objects : ParameterObjects)
    (s : IndividualATPSearch Srp V) (pools : ScenarioPools) :
    Outcome (IndividualATPSearch Srp V × ScenarioPools) := do
  let objectiveFunctions :=
    if s.objectiveFunctions.isEmpty then [ptfMinObjective] else s.objectiveFunctions
  let space ← Outcome.elementAt s.searchSpaces s.searchStepCount
  let cleared := objectiveFunctions.foldl ExhaustiveATPSearch.addObjectiveFunction
    (s.searchAlgorithm.clear dblMax)
  let (searchAlgorithm, pools) ← ((stepSpaces withRtsSupport s space).foldl
    ExhaustiveATPSearch.addSearchSpace cleared).createScenarios withRtsSupport
      getValidConfigurations objects ptfMinObjective pools
  let selection ← select objects space.tuningParameters pools
  .ok ({ s with
    objectiveFunctions, searchAlgorithm, selection
    searchStepCount := s.searchStepCount + 1, tuningParameters := space.tuningParameters }, pools)

section Finish
variable [LT V] [DecidableLT V] (sort : Traversal (Nat × V))

/-- One round of the loop that restricts the parameters. -/
def restrict (tuningParameters : List Nat) (st : ParameterObjects × List Nat) (e : Int × Nat) :
    Outcome (ParameterObjects × List Nat) := do
  let tp ← Outcome.elementAt tuningParameters e.2
  .ok (st.1.setRestriction tp ⟨2, [e.1]⟩, st.2 ++ [tp])

def settle (objects : ParameterObjects) (s : IndividualATPSearch Srp V) (first : Nat × V) :
    Outcome (IndividualATPSearch Srp V × ParameterObjects) :=
  if s.bestScenario = none ∨ first.2 < s.bestEnergy then
    if s.individual_keep = 1 then do
      let (objects, exploredTuningParameters) ←
        ((s.selection.get? first.1).getD []).zipIdx.foldlM (restrict s.tuningParameters)
          (objects, s.exploredTuningParameters)
      .ok ({ s with
        bestScenario := some first.1, bestEnergy := first.2, exploredTuningParameters }, objects)
    else .ok ({ s with bestScenario := some first.1, bestEnergy := first.2 }, objects)
  else .ok ({ s with tuningParameters := [] }, objects)

def searchFinished (objects : ParameterObjects) (s : IndividualATPSearch Srp V) (srp : Srp) :
    Outcome (Bool × IndividualATPSearch Srp V × ParameterObjects) := do
  let searchAlgorithm ← s.searchAlgorithm.searchFinished srp
  let path := searchAlgorithm.evaluation.path
  match sort.sort (fun a b => a.2 < b.2) path.entries with
  | [] => .undefined
  | first :: rest => do
    let last ← Outcome.elementAt (first :: rest) ((first :: rest).length - 1)
    let (worstScenario, worstEnergy) :=
      improve (fun a b => b < a) s.worstScenario s.worstEnergy last.1 last.2
    let (s, objects) ← settle objects { s with
      searchAlgorithm, individualSearchPath := s.individualSearchPath.insertAll path
      worstScenario, worstEnergy } first
    .ok (s.searchStepCount - s.tpEliminated = s.searchSpaces.length, s, objects)

end Finish
end IndividualATPSearch
end ReadexPtf.Autotune
