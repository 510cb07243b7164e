import ReadexPtf.Autotune.ExhaustiveSearch
import ReadexPtf.Autotune.GDE3Search
import ReadexPtf.Lib.IntLoop

/-! Scenario creation of the generational search: the random parents, the children by
crossover, and the filter both pass. Random numbers come from one stream. -/
namespace ReadexPtf.Autotune
open ReadexPtf

/-- The conversion of an `int` to `size_t`. -/
def toSize (z : ℤ) : ℕ := (z % 2 ^ 64).toNat

/-- `for( size_t iter = from; iter <= to; iter += step ) if( iter == value )`. The counter
has 2^64 values: a loop that goes on after as many rounds never ends. -/
def onStep (rangeTo step value : ℕ) : ℕ → ℕ → Outcome Bool
  | 0, _ => .undefined
  | rounds + 1, iter =>
    if iter ≤ rangeTo then
      if iter = value then return true
      else onStep rangeTo step value rounds ((iter + step) % 2 ^ 64)
    else return false

namespace TuningParameter

/-- The test of one value in `checkFeasible`. -/
def checkValue (tp : TuningParameter) (value : ℤ) : Outcome Bool :=
  match tp.elementWise with
  | none =>
    if value < tp.rangeFrom then return false
    else if tp.rangeTo < value then return false
    else onStep (toSize tp.rangeTo) (toSize tp.rangeStep) (toSize value) (2 ^ 64)
      (toSize tp.rangeFrom)
  | some v => return v.contains value

/-- The values of the parameter: the grid between its bounds, or those of its restriction. -/
def Feasible (tp : TuningParameter) (value : ℤ) : Prop :=
  match tp.elementWise with
  | none => value ≤ tp.rangeTo ∧ ∃ k : ℕ, value = tp.rangeFrom + k * tp.rangeStep
  | some v => value ∈ v

end TuningParameter

def checkFeasible (variant : Variant) : List TuningParameter → Outcome Bool
  | [] => return true
  | tp :: tps => do
    if ← tp.checkValue ((variant.get? tp.addr).getD 0) then checkFeasible variant tps
    else return false

/-- The values of one search space, each with a comma behind it. -/
def configString (variant : Variant) : String :=
  variant.entries.foldl (fun newString e => newString ++ toString e.2 ++ ",") ""

/-- A sum or product of `int` that leaves the type has no defined value. -/
def checkedInt (z : ℤ) : Outcome ℤ := if FitsInt z then .ok z else .undefined

/-- How an attempt at a child ends: the attempts are used up, the child is infeasible, or
its specifications are complete. -/
inductive Attempt where
  | exceeded (g : Generation)
  | infeasible (g : Generation)
  | complete (g : Generation) (ts : List TuningSpecification) (uniqueConfig : String)

namespace Generation
variable {V : Type} (A : DoubleArith V) (rand : ℕ → V) (stack : ℕ → ℤ) (rts : Bool)

def uniform (g : Generation) : V × Generation := (rand g.drawn, { g with drawn := g.drawn + 1 })

/-- The members' scenarios are found by id. -/
def specifications (g : Generation) (scenarioId : ℕ) : List TuningSpecification :=
  match g.scenarios.get? scenarioId with
  | none => []
  | some scenario => scenario.ts

/-- `new Scenario( tsList )`, entered into the population. -/
def pushScenario (ts : List TuningSpecification) (uniqueConfig : String) (g : Generation) :
    Generation :=
  { g with
    populElem := uniqueConfig :: g.populElem
    scenarios := g.scenarios.set g.nextId
      ⟨g.nextId, ts.map fun t => listSpecification rts t.variant t.entityList⟩
    population := g.population ++ [g.nextId]
    nextId := g.nextId + 1 }

/-- The value drawn for a parameter: the nearest step, cut off at the end of the range. -/
def drawnValue (tp : TuningParameter) (randGen : V) : Outcome ℤ :=
  match tp.elementWise with
  | none => do
    let width ← checkedInt (tp.rangeTo - tp.rangeFrom)
    let valDbl := A.div (A.mul randGen (A.ofInt width)) (A.ofInt tp.rangeStep)
    let value ← checkedInt (← Outcome.found (A.toInt (A.round valDbl)))
    let offset ← checkedInt (value * tp.rangeStep)
    let value ← checkedInt (tp.rangeFrom + offset)
    return if tp.rangeTo < value then tp.rangeTo else value
  | some v => do
    let vIndex ← Outcome.found (A.toInt (A.mul (A.ofInt v.length) randGen))
    Outcome.elementAt v vIndex

/-- `next` is the call `iterateSS( indexSS + 1, ts, newMap, uniqueConfig )`. -/
def iterateTP (next : List TuningSpecification → String → Generation → Outcome Generation)
    (space : SearchSpace) : List TuningParameter → Variant → List TuningSpecification → String →
      Generation → Outcome Generation
  | [], newMap, ts, uniqueConfig, g => do
    let g := { g with noAttempts := g.noAttempts + 1 }
    if g.noAttempts = g.maxAttempts then return g
    if ← checkFeasible newMap space.variantSpace then
      let tuningSpec ← specification rts space newMap
      next (ts ++ [tuningSpec]) (uniqueConfig ++ configString newMap) g
    else return g
  | tp :: tps, newMap, ts, uniqueConfig, g => do
    let (randGen, g) := g.uniform rand
    let value ← drawnValue A tp randGen
    iterateTP next space tps (newMap.set tp.addr value) ts uniqueConfig g

def iterateSS : List SearchSpace → List TuningSpecification → String → Generation →
    Outcome Generation
  | [], ts, uniqueConfig, g =>
    if uniqueConfig ∈ g.populElem then return g
    else
      let g := g.pushScenario rts ts uniqueConfig
      let g := { g with memberCreated := g.memberCreated + 1 }
      return if g.memberCreated = g.populationSize then { g with noAttempts := 0 } else g
  | space :: rest, ts, uniqueConfig, g =>
    iterateTP A rand rts (iterateSS rest) space space.variantSpace .empty ts uniqueConfig g

/-- The first population. `true` goes with a return in the middle of `createScenarios`. -/
def createParents (rounds : ℕ) (g : Generation) : Outcome (Generation × Bool) :=
  if g.population ≠ [] then return (g, false)
  else Outcome.whileLoop (fun (g, returned) => !returned && g.memberCreated != g.populationSize)
    (fun (g, _) => do
      let g ← iterateSS A rand rts g.searchSpaces [] "" g
      return (g, g.noAttempts = g.maxAttempts)) rounds (g, false)

/-- `random[ i ]`. Before the first element is whatever the stack holds. -/
def readRandom (random : List ℤ) (i : ℤ) (g : Generation) : ℤ :=
  if i < 0 then stack g.drawn else random.getD i.toNat (-1)

/-- Three members other than `idx`. -/
def selectRandom (rounds idx popSize : ℕ) (g : Generation) : Outcome (List ℤ × ℕ × Generation) :=
  Outcome.whileLoop (fun (_, i, _) => i < 3) (fun (random, i, g) => do
    let (draw, g) := g.uniform rand
    let newEntry ← Outcome.found (A.toInt (A.mul draw (A.ofInt popSize)))
    if newEntry ≠ readRandom stack random (((i : ℤ) + 1).tmod 3) g ∧
        newEntry ≠ readRandom stack random (((i : ℤ) - 1).tmod 3) g ∧ newEntry ≠ idx then
      return (random.set i newEntry, i + 1, g)
    else return (random, i, g)) rounds ([-1, -1, -1], 0, g)

/-- The value of a parameter in the specification `i` of a member; a missing one is entered as 0. -/
def memberValue (g : Generation) (member : ℤ) (i addr : ℕ) : Outcome ℤ := do
  let scenarioId ← Outcome.elementAt g.population member
  match (g.specifications scenarioId)[i]? with
  | none => return 0
  | some tuningSpec => return (tuningSpec.variant.get? addr).getD 0

/-- `CR = F = 0.5`. -/
def half : V := A.div (A.ofInt 1) (A.ofInt 2)

/-- `valDbl >= bound`; false for `nan`. -/
def atLeast (valDbl bound : V) : Bool := A.lt bound valDbl || A.eq bound valDbl

def mutatedValue (tp : TuningParameter) (rOne rTwo rThree : ℤ) : Outcome ℤ := do
  let difference ← checkedInt (rOne - rTwo)
  let valDbl := A.add (A.ofInt rThree) (A.mul (half A) (A.ofInt difference))
  let value ← checkedInt (← Outcome.found (A.toInt valDbl))
  if atLeast A valDbl (A.ofInt tp.rangeFrom) && atLeast A (A.ofInt tp.rangeTo) valDbl then
    let valDbl := A.div (A.sub valDbl (A.ofInt tp.rangeFrom)) (A.ofInt tp.rangeStep)
    let value ← checkedInt (← Outcome.found (A.toInt (A.round valDbl)))
    let offset ← checkedInt (value * tp.rangeStep)
    checkedInt (tp.rangeFrom + offset)
  else return value

/-- The value of a parameter of the child: mutated, or that of the parent. -/
def childValue (idx : ℕ) (random : List ℤ) (i : ℕ) (crosses : Bool) (tp : TuningParameter)
    (g : Generation) : Outcome ℤ :=
  if crosses then do
    let rOne ← g.memberValue (random.getD 0 (-1)) i tp.addr
    let rTwo ← g.memberValue (random.getD 1 (-1)) i tp.addr
    let rThree ← g.memberValue (random.getD 2 (-1)) i tp.addr
    mutatedValue A tp rOne rTwo rThree
  else g.memberValue idx i tp.addr

/-- The crossover in one search space, from the parameter `curIndex` of the flattened space on. -/
def crossover (idx : ℕ) (random : List ℤ) (i : ℕ) (randIndex : ℤ) :
    List TuningParameter → ℕ → Variant → Generation → Outcome (Variant × ℕ × Generation)
  | [], curIndex, newChildMap, g => return (newChildMap, curIndex, g)
  | tp :: tps, curIndex, newChildMap, g => do
    let (randGen, g) := g.uniform rand
    let crosses := A.lt randGen (half A) || (curIndex : ℤ) == randIndex
    let value ← childValue A idx random i crosses tp g
    crossover idx random i randIndex tps (curIndex + 1) (newChildMap.set tp.addr value) g

/-- The specification of a child names a region or runtime situation if the space has one. -/
def childSpecification (space : SearchSpace) (variant : Variant) : TuningSpecification :=
  if rts then { variant, contextType := .rtsList, entityList := space.rtsVector.take 1 }
  else { variant, contextType := .regionList, entityList := space.regions.take 1 }

def attemptChild (idx : ℕ) (random : List ℤ) (randIndex : ℤ) : List SearchSpace → ℕ → ℕ →
    List TuningSpecification → String → Generation → Outcome Attempt
  | [], _, _, ts, uniqueConfig, g => return .complete g ts uniqueConfig
  | space :: rest, i, curIndex, ts, uniqueConfig, g => do
    let (newChildMap, curIndex, g) ←
      crossover A rand idx random i randIndex space.variantSpace curIndex .empty g
    let g := { g with noAttempts := g.noAttempts + 1 }
    if g.noAttempts = g.maxAttempts then return .exceeded g
    if ← checkFeasible newChildMap space.variantSpace then
      attemptChild idx random randIndex rest (i + 1) curIndex
        (ts ++ [childSpecification rts space newChildMap])
        (uniqueConfig ++ configString newChildMap) g
    else return .infeasible g

/-- One round of the loop over the parents; only a new configuration moves `idx` on. -/
def createChild (rounds popSize : ℕ) :
    Generation × ℕ × Bool → Outcome (Generation × ℕ × Bool)
  | (g, idx, _) => do
    let (random, _, g) ← selectRandom A rand stack rounds idx popSize g
    let flattenedSpaceSize := (g.searchSpaces.map fun space => space.variantSpace.length).sum
    let (draw, g) := g.uniform rand
    let randIndex ← Outcome.found
      (A.toInt (A.add (A.floor (A.mul draw (A.ofInt flattenedSpaceSize))) (A.ofInt 1)))
    match ← attemptChild A rand rts idx random randIndex g.searchSpaces 0 0 [] "" g with
    | .exceeded g => return (g, idx, true)
    | .infeasible g => return (g, idx, false)
    | .complete g ts uniqueConfig =>
      if uniqueConfig ∈ g.populElem then return (g, idx, false)
      else
        let g := g.pushScenario rts ts uniqueConfig
        let g := { g with
          noAttempts := if idx + 1 = g.populationSize then 0 else g.noAttempts
          parentChildMap := g.parentChildMap.set idx (g.population.length - 1) }
        return (g, idx + 1, false)

def createChildren (rounds : ℕ) (g : Generation) : Outcome Generation := do
  let popSize := g.population.length
  let (g, _, _) ← Outcome.whileLoop (fun (_, idx, returned) => !returned && idx < popSize)
    (createChild A rand stack rts rounds popSize) rounds (g, 0, false)
  return g

/-- Parents are drawn once, for an empty population; fewer than five get no children. -/
def createScenarios (rounds : ℕ) (g : Generation) : Outcome Generation := do
  let g := { g with generationNo := g.generationNo + 1, noAttempts := 0, memberCreated := 0 }
  let (g, returned) ← createParents A rand rts rounds g
  if returned || g.population.length < 5 then return g
  else createChildren A rand stack rts rounds { g with noAttempts := 0 }

end Generation

/-- The calls of a plugin, and what the rest of the framework does in between. -/
inductive GDE3Op (V : Type) where
  | addSearchSpace (searchSpace : SearchSpace)
  | addObjectiveFunction (obj : ObjectiveFunction V)
  | setPopulationSize (size : ℕ)
  | setMaxGenerations (maxGenerations : ℤ)
  | createScenarios (rounds : ℕ)
  | searchFinished (srp : ResultsPool V) (timerExceeded : Bool)
  | clear
  | elsewhere (made drawn : ℕ)

/-- What a run meets outside of the search: the random numbers, the stack, the order of
equal elements in a sort, and the objective of `PTF_minObjective`. -/
structure Environment (V : Type) where
  arith : DoubleArith V
  rand : ℕ → V
  stack : ℕ → ℤ
  rts : Bool
  order : Traversal (List V)
  minObjective : ObjectiveFunction V

namespace GDE3Search
variable {V : Type} (env : Environment V)

def start (nextId drawn : ℕ) : GDE3Search V where
  scenarioObjValMap := .empty
  path := .empty
  optimalObjVal := env.arith.ofInt 100000
  optimalScenarioId := -1
  singleObjective := false
  noObjectives := 0
  searchSpaces := []
  scenarios := .empty
  population := []
  parentChildMap := .empty
  populElem := []
  populationSize := 10
  memberCreated := 0
  generationNo := 0
  noAttempts := 0
  maxAttempts := 10000
  nextId := nextId
  drawn := drawn
  objectiveFunctions := []
  recentPopulation := []
  optimalIds := []
  tobeDropped := ∅
  maxNoGenerations := 20
  samePopulationVector := 0

def createScenarios (rounds : ℕ) (search : GDE3Search V) : Outcome (GDE3Search V) := do
  let generation ← search.toGeneration.createScenarios env.arith env.rand env.stack env.rts rounds
  return { search with
    objectiveFunctions :=
      if search.objectiveFunctions = [] then [env.minObjective] else search.objectiveFunctions
    toGeneration := generation }

def step (search : GDE3Search V) : GDE3Op V → Outcome (GDE3Search V)
  | .addSearchSpace space => .ok { search with searchSpaces := search.searchSpaces ++ [space] }
  | .addObjectiveFunction obj =>
    .ok { search with objectiveFunctions := search.objectiveFunctions ++ [obj] }
  | .setPopulationSize size => .ok { search with populationSize := size }
  | .setMaxGenerations number => .ok { search with maxNoGenerations := number }
  | .createScenarios rounds => search.createScenarios env rounds
  | .searchFinished srp timerExceeded => do
    let (search, _) ← search.searchFinished env.arith env.order srp timerExceeded
    return search
  | .clear => .ok search
  | .elsewhere made drawn =>
    .ok { search with nextId := search.nextId + made, drawn := search.drawn + drawn }

def run (search : GDE3Search V) (ops : List (GDE3Op V)) : Outcome (GDE3Search V) :=
  ops.foldlM (step env) search

/-- The states that the runs of a new search object come to. -/
def Reachable (search : GDE3Search V) : Prop :=
  ∃ nextId drawn ops, (start env nextId drawn).run env ops = .ok search

end GDE3Search
end ReadexPtf.Autotune
