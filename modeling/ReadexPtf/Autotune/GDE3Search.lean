import ReadexPtf.Autotune.SearchSpace
import ReadexPtf.Lib.Positions
import ReadexPtf.Lib.Traversal

/-! The generational search after an experiment: the comparison of scenarios and the
reduction of the population by dominance and by crowding distance. -/
namespace ReadexPtf.Autotune
open ReadexPtf

/-- The arithmetic of `double` as the search uses it. -/
structure DoubleArith (V : Type) where
  lt : V → V → Bool
  eq : V → V → Bool
  add : V → V → V
  sub : V → V → V
  mul : V → V → V
  div : V → V → V
  abs : V → V
  sqrt : V → V
  round : V → V
  floor : V → V
  ofInt : ℤ → V
  /-- The conversion to an integer type; `none` if the number does not fit. -/
  toInt : V → Option ℤ
  fltMax : V
  eq_symm : ∀ a b, eq a b → eq b a
  eq_trans : ∀ a b c, eq a b → eq b c → eq a c
  not_lt_of_eq : ∀ a b, eq a b → ¬ lt a b

/-- The severities of the properties found for a scenario. -/
abbrev ResultsPool (V : Type) := ℕ → List V
abbrev ObjectiveFunction (V : Type) := ℕ → ResultsPool V → V

/-- What comparisons leave behind. -/
structure ObjectiveRecords (V : Type) where
  scenarioObjValMap : OrdMap ℕ (List V)
  path : OrdMap ℕ V
  optimalObjVal : V
  optimalScenarioId : ℤ
  singleObjective : Bool
  noObjectives : ℕ

/-- The members of the population, by the ids of their scenarios, and what makes new
ones. `nextId` and `drawn` count the scenarios made and the numbers drawn by the process. -/
structure Generation where
  searchSpaces : List SearchSpace
  scenarios : OrdMap ℕ Scenario
  population : List ℕ
  parentChildMap : OrdMap ℕ ℕ
  populElem : List String
  populationSize : ℕ
  memberCreated : ℕ
  generationNo : ℕ
  noAttempts : ℕ
  maxAttempts : ℕ
  nextId : ℕ
  drawn : ℕ

namespace Generation

/-- The population runs through the ids of scenarios in the order they were made. -/
structure Members (g : Generation) : Prop where
  sorted : g.population.Pairwise (· < ·)
  older : ∀ id ∈ g.population, id < g.nextId

/-- Each child is a later member than all parents, and has one parent. -/
structure Family (g : Generation) : Prop where
  inside : ∀ i c, g.parentChildMap.get? i = some c → c < g.population.length
  later : ∀ i c j, g.parentChildMap.get? i = some c → j ∈ g.parentChildMap.keys → j < c
  single : ∀ i j c, g.parentChildMap.get? i = some c → g.parentChildMap.get? j = some c → i = j

end Generation

structure GDE3Search (V : Type) extends ObjectiveRecords V, Generation where
  objectiveFunctions : List (ObjectiveFunction V)
  recentPopulation : List ℕ
  optimalIds : List ℕ
  tobeDropped : Finset ℕ
  maxNoGenerations : ℤ
  samePopulationVector : ℕ

def addOptimalId (scenarioId : ℕ) (optimalIds : List ℕ) : List ℕ :=
  if scenarioId ∈ optimalIds then optimalIds else optimalIds ++ [scenarioId]

/-- `vec1 == vec2`. -/
def DoubleArith.vecEq {V : Type} (A : DoubleArith V) (vec1 vec2 : List V) : Bool :=
  vec1.isEqv vec2 A.eq

section Compare
variable {V : Type} (A : DoubleArith V)

def ObjectiveRecords.recordSingle (r : ObjectiveRecords V) (scenarioId : ℕ) (value : V) :
    ObjectiveRecords V :=
  let better := A.lt value r.optimalObjVal
  { r with
    optimalObjVal := if better then value else r.optimalObjVal
    optimalScenarioId := if better then scenarioId else r.optimalScenarioId
    scenarioObjValMap := r.scenarioObjValMap.set scenarioId [value]
    path := r.path.set scenarioId value }

/-- The first comparison counts the objectives. -/
def ObjectiveRecords.count (r : ObjectiveRecords V) (number : ℕ) : ObjectiveRecords V :=
  if r.noObjectives = 0 then
    { r with noObjectives := number, singleObjective := number == 1 || r.singleObjective }
  else r

def ObjectiveRecords.record (r : ObjectiveRecords V) (parent child : ℕ)
    (parentMap childMap : List V) : ObjectiveRecords V :=
  match parentMap, childMap with
  | [p], [c] => ((r.count 1).recordSingle A parent p).recordSingle A child c
  | _, _ =>
    { r.count parentMap.length with
      scenarioObjValMap := (r.scenarioObjValMap.set parent parentMap).set child childMap }

/-- -1 if the parent dominates, 1 if the child does, 0 if neither does; of two that are
equal in every objective the parent dominates. -/
def dominance (parentMap childMap : List V) : ℤ :=
  if parentMap.length ≠ childMap.length then -100
  else if (parentMap.zip childMap).all fun v => ! A.lt v.2 v.1 then -1
  else if (parentMap.zip childMap).all fun v => ! A.lt v.1 v.2 then 1
  else 0

namespace GDE3Search

def objectiveValues (search : GDE3Search V) (srp : ResultsPool V) (scenarioId : ℕ) : List V :=
  search.objectiveFunctions.map fun objective => objective scenarioId srp

def compareScenarios (srp : ResultsPool V) (search : GDE3Search V) (parent child : ℕ) :
    GDE3Search V × ℤ :=
  let parentMap := search.objectiveValues srp parent
  let childMap := search.objectiveValues srp child
  if parentMap.length ≠ childMap.length then (search, -100)
  else ({ search with toObjectiveRecords := search.record A parent child parentMap childMap },
    dominance A parentMap childMap)

/-- `tobeDropped.insert( index ); removeOptimalId( population[ index ]->getID() );` -/
def drop (search : GDE3Search V) (index scenarioId : ℕ) : Outcome (GDE3Search V) := do
  let optimalIds ← eraseLoop scenarioId search.optimalIds
  return { search with optimalIds, tobeDropped := insert index search.tobeDropped }

def keep (search : GDE3Search V) (scenarioId : ℕ) : GDE3Search V :=
  { search with optimalIds := addOptimalId scenarioId search.optimalIds }

/-- One round of the loop over the parents. -/
def evaluateParent (srp : ResultsPool V) (search : GDE3Search V) (parent : ℕ) :
    Outcome (GDE3Search V) :=
  match search.parentChildMap.get? parent with
  | none => return search
  | some child => do
    let parentId ← Outcome.found search.population[parent]?
    let childId ← Outcome.found search.population[child]?
    let (search, resultComp) := search.compareScenarios A srp parentId childId
    if resultComp = 0 then return (search.keep parentId).keep childId
    else if resultComp < 0 then return (← search.drop child childId).keep parentId
    else return (← search.drop parent parentId).keep childId

def cleanupPopulation (search : GDE3Search V) : GDE3Search V :=
  { search with
    population := unmarked search.tobeDropped search.population
    parentChildMap := .empty
    tobeDropped := ∅ }

def evaluateChildren (srp : ResultsPool V) (search : GDE3Search V) : Outcome (GDE3Search V) := do
  let search ← (List.range search.population.length).foldlM (evaluateParent A srp) search
  return search.cleanupPopulation

/-- The pairs of positions `i < j` in the order of the two nested loops. -/
def pairs (size : ℕ) : List (ℕ × ℕ) :=
  (List.range (size - 1)).flatMap fun i =>
    (List.range' (i + 1) (size - (i + 1))).map fun j => (i, j)

def dominatePair (srp : ResultsPool V) (search : GDE3Search V) (i j : ℕ) :
    Outcome (GDE3Search V) := do
  let parentId ← Outcome.found search.population[i]?
  let childId ← Outcome.found search.population[j]?
  let (search, resultComp) := search.compareScenarios A srp parentId childId
  if resultComp = 0 then return search
  else if resultComp < 0 then search.drop j childId
  else search.drop i parentId

/-- The loops stop both (`resizingDone`) as soon as enough members are to be dropped. -/
def cleanByDominance (srp : ResultsPool V) : List (ℕ × ℕ) → GDE3Search V →
    Outcome (GDE3Search V × Bool)
  | [], search => return (search, false)
  | (i, j) :: rest, search => do
    let search ← search.dominatePair A srp i j
    if search.population.length - search.tobeDropped.card = search.populationSize then
      return (search, true)
    else cleanByDominance srp rest search

end GDE3Search
end Compare

section Crowding
variable {V : Type} (A : DoubleArith V)

/-- The smallest and the largest value of each objective so far. -/
def widen (bounds : List (V × V)) (currVector : List V) : List (V × V) :=
  bounds.zipWith (fun bound value =>
    (if A.lt value bound.1 then value else bound.1, if A.lt bound.2 value then value else bound.2))
    currVector

def distanceTo (bounds : List (V × V)) (vec other : List V) : V :=
  A.sqrt (((vec.zip other).zip bounds).foldl (fun distance ⟨(value, otherValue), minObj, maxObj⟩ =>
    let absDist := A.abs (A.sub value otherValue)
    let range := A.sub maxObj minObj
    let absDist := if A.eq range (A.ofInt 0) then absDist else A.div absDist range
    A.add distance (A.mul absDist absDist)) (A.ofInt 0))

def findDistance (vec prevVec nextVec : List V) (bounds : List (V × V)) : V :=
  A.add (distanceTo A bounds vec prevVec) (distanceTo A bounds vec nextVec)

/-- The vectors that have a neighbour on each side, with these. -/
def neighbours {α : Type} : List α → List (α × α × α)
  | prev :: curr :: next :: rest => (prev, curr, next) :: neighbours (curr :: next :: rest)
  | _ => []

/-- The pair on top of the queue: of several with the lowest distance the one pushed first. -/
def crowdTop : List (ℕ × V) → Option (ℕ × V)
  | [] => none
  | first :: rest => some (rest.foldl (fun top p => if A.lt p.2 top.2 then p else top) first)

/-- One pass by each objective, the first objective last. -/
def lexicalOrder (order : Traversal (List V)) (noObjectives : ℕ) (mainVector : List (List V)) :
    List (List V) :=
  (List.range noObjectives).reverse.foldl (fun mainVector base =>
    order.sort (fun vec1 vec2 => A.lt (vec1.getD base (A.ofInt 0)) (vec2.getD base (A.ofInt 0)))
      mainVector) mainVector

namespace GDE3Search

/-- The first id recorded with the vector. Without one the id is read uninitialised. -/
def scenarioOf (search : GDE3Search V) (currVector : List V) : Outcome ℕ :=
  Outcome.found ((search.scenarioObjValMap.entries.find? fun e => A.vecEq e.2 currVector).map
    Prod.fst)

def crowdPq (search : GDE3Search V) (bounds : List (V × V)) (mainVector : List (List V)) :
    Outcome (List (ℕ × V)) :=
  (neighbours mainVector).mapM fun (prevVector, currVector, nextVector) => do
    return (← search.scenarioOf A currVector,
      findDistance A currVector prevVector nextVector bounds)

/-- Removes the member with the lowest crowding distance, and its vector. -/
def trim (bounds : List (V × V)) (search : GDE3Search V) (mainVector : List (List V)) :
    Outcome (GDE3Search V × List (List V)) := do
  let popPair ← Outcome.found (crowdTop A (← search.crowdPq A bounds mainVector))
  match search.population.findIdx? (· = popPair.1) with
  | none => return (search, mainVector)
  | some i =>
    let search ← search.drop i popPair.1
    let vecRemove := (search.scenarioObjValMap.get? popPair.1).getD []
    return (search, mainVector.eraseP fun vec => A.vecEq vec vecRemove)

def trimAll (bounds : List (V × V)) : ℕ → GDE3Search V → List (List V) → Outcome (GDE3Search V)
  | 0, search, _ => return search
  | overHead + 1, search, mainVector => do
    let (search, mainVector) ← search.trim A bounds mainVector
    trimAll bounds overHead search mainVector

/-- The vectors hold the severities of all members, also of those in `tobeDropped`. Vectors
of another length than `noObjectives` are read outside, and `nan` is out of any order. -/
def cleanByCrowding (order : Traversal (List V)) (srp : ResultsPool V) (search : GDE3Search V) :
    Outcome (GDE3Search V) :=
  let mainVector := search.population.map srp
  if ∀ vec ∈ mainVector, vec.length = search.noObjectives ∧ ∀ value ∈ vec, A.eq value value then
    let mainVector := lexicalOrder A order search.noObjectives mainVector
    let bounds := mainVector.foldl (widen A)
      (List.replicate search.noObjectives (A.fltMax, A.ofInt 0))
    search.trimAll A bounds (search.population.length - search.populationSize) mainVector
  else .undefined

def reducePopulation (order : Traversal (List V)) (srp : ResultsPool V) (search : GDE3Search V) :
    Outcome (GDE3Search V) := do
  if search.populationSize < search.population.length then
    let (search, resizingDone) ←
      cleanByDominance A srp (pairs search.population.length) search
    let search ← if resizingDone then pure search else search.cleanByCrowding A order srp
    return search.cleanupPopulation
  else return search

/-- `scenarioObjValMap[ id ]` in the log enters the members that were never compared. -/
def logObjectives (search : GDE3Search V) : GDE3Search V :=
  { search with
    scenarioObjValMap :=
      search.population.foldl (fun m id => m.insertNew id []) search.scenarioObjValMap }

def countEqualGenerations (search : GDE3Search V) : GDE3Search V :=
  let recent :=
    if search.recentPopulation = [] then search.population else search.recentPopulation
  { search with
    recentPopulation := search.population
    samePopulationVector :=
      if search.population.length ≠ recent.length then search.samePopulationVector
      else if search.population = recent then search.samePopulationVector + 1
      else 1 }

def searchFinished (order : Traversal (List V)) (srp : ResultsPool V) (timerExceeded : Bool)
    (search : GDE3Search V) : Outcome (GDE3Search V × Bool) := do
  let search ← search.evaluateChildren A srp
  let search ← search.reducePopulation A order srp
  let search := search.logObjectives.countEqualGenerations
  return (search, search.samePopulationVector == 3 ||
    (search.generationNo : ℤ) == search.maxNoGenerations ||
    search.noAttempts ≥ search.maxAttempts || timerExceeded)

end GDE3Search
end Crowding

end ReadexPtf.Autotune
