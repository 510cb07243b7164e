import ReadexPtf.Agents.Application
import ReadexPtf.Agents.Reductions
import ReadexPtf.Autotune.GDE3Scenarios
import Mathlib

/-! The data base of an analysis agent: what was measured, by context, metric and iteration. -/
namespace ReadexPtf.Agents
open ReadexPtf Autotune

/-- What the table of metrics says. -/
structure EventList (Metric : Type) where
  eventName : Metric → String
  implicitBarrierTime : Metric

/-- A region that was not found is a null pointer. A context of an rts node has its id. -/
structure Context (RegionType : Type) where
  region : Option (Region RegionType)
  rank : ℤ
  thread : ℤ
  rtsID : Option ℤ

section Contexts
variable {RegionType Metric : Type} [DecidableEq Metric]

def Application.searchRegion (app : Application RegionType) (fileId firstLine : ℤ) :
    Option (Region RegionType) :=
  (app.codeRegions.entries.filterMap fun entry => app.regions[entry.2]?).find? fun region =>
    region.fileId = fileId ∧ region.regionFirstLine = firstLine

def Context.ofNumbers (app : Application RegionType) (fileId firstLine rank thread : ℤ) :
    Context RegionType := ⟨app.searchRegion fileId firstLine, rank, thread, none⟩

def ct2String (events : EventList Metric) (ct : Context RegionType) (m : Metric) :
    Outcome String :=
  match ct.region with
  | none => .undefined
  | some region =>
    -- An implicit barrier is a region of its own, at the line where the other one ends.
    let (lineNumber, regName) := if m = events.implicitBarrierTime then
        (region.endPosition,
          "!$omp implicit barrier @" ++ region.fileName ++ ":" ++ region.endPosition.repr)
      else (region.regionFirstLine, region.name)
    let key := ":" ++ region.fileId.repr ++ ":" ++ lineNumber.repr ++ ":" ++ regName ++ ":" ++
      ct.rank.repr ++ ":" ++ ct.thread.repr ++ ":" ++ events.eventName m
    match ct.rtsID with
    | some rtsID => .ok (key ++ ":" ++ rtsID.repr)
    | none => .ok key

end Contexts

/-- `currentIteration` is the one of the data provider. -/
structure PerformanceDataBase where
  data : OrdMap String (OrdMap ℤ Int64)
  timeWindowLeft : ℤ
  timeWindowRight : ℤ
  defaultOp : DataBaseReductionOperation
  interpType : DataBaseInterpolationType
  lastWrittenIteration : ℤ
  currentIteration : ℤ

namespace PerformanceDataBase
variable {RegionType Metric : Type} [DecidableEq Metric] (events : EventList Metric)

def start : PerformanceDataBase where
  data := .empty
  timeWindowLeft := 0
  timeWindowRight := 0
  defaultOp := .sum
  interpType := .zeros
  lastWrittenIteration := 0
  currentIteration := 0

/-- `none` stands for `PDB_SCOREP_NOT_FOUND`. -/
def findDataEntry (ct : Context RegionType) (m : Metric) (db : PerformanceDataBase) :
    Outcome (Option (OrdMap ℤ Int64)) := do
  let key ← ct2String events ct m
  match db.data.get? key with
  | none => return none
  | some dataEntry => return if dataEntry.entries.isEmpty then none else some dataEntry

def getSpecificIterationValue (ct : Context RegionType) (m : Metric) (iteration : ℤ)
    (db : PerformanceDataBase) : Outcome (Option Int64) := do
  let dataEntry ← db.findDataEntry events ct m
  return dataEntry.bind fun dataEntry => dataEntry.get? iteration

/-- What `PDB_REDUCTION_AVG` cuts to an integer. -/
def reducedAverage {V : Type} (arith : Measures V) (interpType : DataBaseInterpolationType)
    (left right : ℤ) (dataEntry : OrdMap ℤ Int64) : Outcome V := do
  let numElements ← checkedInt (right - left + 1)
  let reductions ← getReductions arith interpType (arith.ofInt 0) left right dataEntry
  return arith.div reductions.sum (arith.ofInt numElements)

/-- What `PDB_REDUCTION_STDDEV` takes the square root of. -/
def reducedVariance {V : Type} (arith : Measures V) (interpType : DataBaseInterpolationType)
    (left right : ℤ) (dataEntry : OrdMap ℤ Int64) : Outcome V := do
  let numElements ← checkedInt (right - left + 1)
  let mean ← reducedAverage arith interpType left right dataEntry
  let reductions ← getReductions arith interpType mean left right dataEntry
  return arith.div reductions.stddev (arith.ofInt numElements)

/-- One reduction of a data entry. -/
def reducedValue {V : Type} (arith : Measures V) (interpType : DataBaseInterpolationType)
    (left right : ℤ) (dataEntry : OrdMap ℤ Int64) : DataBaseReductionOperation → Outcome V
  | .avg => reducedAverage arith interpType left right dataEntry
  | .stddev => do
    let variance ← reducedVariance arith interpType left right dataEntry
    return arith.sqrt variance
  | .sum => do
    let _ ← checkedInt (right - left + 1)
    let reductions ← getReductions arith interpType (arith.ofInt 0) left right dataEntry
    return reductions.sum
  | .sumSqr => do
    let _ ← checkedInt (right - left + 1)
    let reductions ← getReductions arith interpType (arith.ofInt 0) left right dataEntry
    return reductions.sumSqr

def getReducedValueInWindow {V : Type} (arith : Measures V) (op : DataBaseReductionOperation)
    (interpType : DataBaseInterpolationType) (left right : ℤ) (ct : Context RegionType)
    (m : Metric) (db : PerformanceDataBase) : Outcome (Option Int64) := do
  match ← db.findDataEntry events ct m with
  | none => return none
  | some dataEntry =>
    let result ← reducedValue arith interpType left right dataEntry op
    return some (arith.toInt64 result)

def clean (db : PerformanceDataBase) : PerformanceDataBase := { db with data := .empty }

/-- `end - begin < 0 || end - 1 > last_written_iteration || begin < 0`. -/
def invalidWindow (begin finish : ℤ) (db : PerformanceDataBase) : Outcome Bool := do
  let length ← checkedInt (finish - begin)
  if length < 0 then return true
  let last ← checkedInt (finish - 1)
  return decide (db.lastWrittenIteration < last ∨ begin < 0)

/-- What was thrown stands next to the data base as it is then. -/
def setTimeWindow (begin finish : ℤ) (db : PerformanceDataBase) :
    Outcome (Except String Unit × PerformanceDataBase) := do
  if db.timeWindowLeft = begin ∧ db.timeWindowRight = finish then return (.ok (), db)
  if ← db.invalidWindow begin finish then
    return (.error ("Time window [begin, end] is invalid; please pass a valid time window " ++
      "to this function."), db)
  return (.ok (), { db with timeWindowLeft := begin, timeWindowRight := finish })

/-- The time window is reset unless the current iteration is before the last written one. -/
def resetTimeWindow (db : PerformanceDataBase) :
    Outcome (Except String Unit × PerformanceDataBase) :=
  if db.lastWrittenIteration ≤ db.currentIteration then do
    let db := { db with lastWrittenIteration := db.currentIteration }
    let finish ← checkedInt (db.lastWrittenIteration + 1)
    db.setTimeWindow db.lastWrittenIteration finish
  else .ok (.ok (), db)

def store (ct : Context RegionType) (m : Metric) (value : Int64) (db : PerformanceDataBase) :
    Outcome (Except String Unit × PerformanceDataBase) := do
  let key ← ct2String events ct m
  match ← db.resetTimeWindow with
  | (.error error, db) => return (.error error, db)
  | (.ok (), db) =>
    let dataEntry := (db.data.get? key).getD .empty
    return (.ok (), { db with
      data := db.data.set key (dataEntry.set db.currentIteration value) })

/-- The entry that is erased belongs to a copy of what the data base has. -/
def erase (ct : Context RegionType) (m : Metric) (db : PerformanceDataBase) :
    Outcome PerformanceDataBase := do
  let dataEntry ← db.findDataEntry events ct m
  let _erased := dataEntry.map fun dataEntry =>
    dataEntry.filterKeys fun iteration => iteration ≠ db.currentIteration
  return db

end PerformanceDataBase

/-- What is done with the data base; the regions are those that are known then. -/
inductive PerformanceOperation (RegionType Metric : Type) where
  | store (ct : Context RegionType) (m : Metric) (value : Int64)
  | storeByNumbers (app : Application RegionType) (fileId firstLine rank thread : ℤ) (m : Metric)
      (value : Int64)
  | erase (app : Application RegionType) (fileId firstLine rank thread : ℤ) (m : Metric)
  | finishIteration
  | clean
  | setTimeWindow (begin finish : ℤ)
  | setDefaultReductionOperation (op : DataBaseReductionOperation)
  | setInterpolationType (interpType : DataBaseInterpolationType)

namespace PerformanceOperation
variable {RegionType Metric : Type} [DecidableEq Metric] (events : EventList Metric)

def run (db : PerformanceDataBase) : PerformanceOperation RegionType Metric →
    Outcome (Except String Unit × PerformanceDataBase)
  | .store ct m value => db.store events ct m value
  | .storeByNumbers app fileId firstLine rank thread m value =>
    db.store events (.ofNumbers app fileId firstLine rank thread) m value
  | .erase app fileId firstLine rank thread m => do
    let db ← db.erase events (.ofNumbers app fileId firstLine rank thread) m
    return (.ok (), db)
  | .finishIteration => do
    let currentIteration ← checkedInt (db.currentIteration + 1)
    return (.ok (), { db with currentIteration })
  | .clean => return (.ok (), db.clean)
  | .setTimeWindow begin finish => db.setTimeWindow begin finish
  | .setDefaultReductionOperation op => return (.ok (), { db with defaultOp := op })
  | .setInterpolationType interpType => return (.ok (), { db with interpType })

/-- A caller goes on with the data base after what was thrown. -/
def step (db : PerformanceDataBase) (operation : PerformanceOperation RegionType Metric) :
    Outcome PerformanceDataBase := do
  let (_, db) ← operation.run events db
  return db

end PerformanceOperation
end ReadexPtf.Agents
