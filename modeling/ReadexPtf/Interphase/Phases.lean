import ReadexPtf.Autotune.GDE3Search
import ReadexPtf.Autotune.RationalArith
import ReadexPtf.Lib.Traversal
import ReadexPtf.Rts.Clusters
import Mathlib

/-! The records that the interphase plugin keeps of the phases it has measured, and how
it fills and normalizes them. -/
namespace ReadexPtf.Interphase
open Autotune (DoubleArith)

/-- The arithmetic of `double`, with the reading of a text and the largest number. -/
structure Doubles (V : Type) extends DoubleArith V where
  stod : String → Outcome V
  dblMax : V
  lt_irrefl : ∀ a, lt a a = false
  lt_trans : ∀ a b c, lt a b → lt b c → lt a c

namespace Doubles
variable {V : Type} (A : Doubles V)

def zero : V := A.ofInt 0
def le (a b : V) : Bool := A.lt a b || A.eq a b

/-- The conversion to `unsigned int`: a number outside of its range has none. -/
def toUnsigned (v : V) : Outcome ℕ :=
  match A.toInt v with
  | some z => if 0 ≤ z ∧ z < 4294967296 then .ok z.toNat else .undefined
  | none => .undefined

/-- `std::sort` by a number. Numbers that are not equal to themselves have no place. -/
def sortBy {α : Type} (order : Traversal α) (key : α → V) (l : List α) : Outcome (List α) :=
  if l.all fun a => A.eq (key a) (key a) then
    .ok (order.sort (fun a b => A.lt (key a) (key b)) l)
  else .undefined

end Doubles

/-- A square root to eight decimal places, exact where the root has no more of them. -/
def decimalSqrt (q : ℚ) : ℚ :=
  let scaled := (q * 10 ^ 16).floor.toNat
  mkRat (Autotune.natSqrt scaled 128 (scaled + 1)) (10 ^ 8)

/-- The rationals, with texts that are digits. -/
def ratDoubles : Doubles ℚ where
  toDoubleArith := { Autotune.ratArith with sqrt := decimalSqrt }
  stod str :=
    if str.toList ≠ [] ∧ str.toList.all Char.isDigit then
      .ok (str.toList.foldl (fun (n : ℕ) c => 10 * n + (c.toNat - 48)) 0 : ℕ)
    else .throws "stod"
  dblMax := 2 ^ 1024 - 2 ^ 971
  lt_irrefl a := decide_eq_false (lt_irrefl a)
  lt_trans _ _ _ h h' := decide_eq_true ((of_decide_eq_true h).trans (of_decide_eq_true h'))

def unclassified : ℤ := -1
def noise : ℤ := -2
def minPoints : ℕ := 3

/-- The values of the tuning parameters, by their addresses. -/
abbrev Configuration := OrdMap ℕ ℤ

structure RtsInfo (V : Type) where
  callpath : String
  objValues : OrdMap String V
  defaultObjValues : OrdMap String V
  normalizedObj : OrdMap String V
  phaseIdentifiers : OrdMap String V
  defaultPhaseIdentifiers : OrdMap String V

def RtsInfo.new (V : Type) : RtsInfo V := ⟨"", .empty, .empty, .empty, .empty, .empty⟩

/-- `rtsInfo` is in the order of its traversal. -/
structure PhaseInfo (V : Type) where
  scenarioID : ℤ
  scenarioConfig : Configuration
  phaseIdentifiers : OrdMap String V
  objValues : OrdMap String V
  normalizedObj : OrdMap String V
  normalizedFeatures : V × V
  visited : Bool
  neighbors : List ℕ
  clusterID : ℤ
  defaultPhaseIdentifiers : OrdMap String V
  defaultObjValues : OrdMap String V
  rtsInfo : List (RtsInfo V)

/-- `dtaPhases`. -/
abbrev Phases (V : Type) := OrdMap ℕ (PhaseInfo V)

section Measurements
variable {V : Type} (A : Doubles V)

/-- A property as the agents report it. -/
structure MetaProperty (V : Type) where
  id : String
  severity : V
  isRtsBased : Bool
  extraInfo : OrdMap String String

structure ObjectiveFunction (V : Type) where
  name : String
  objective : List (MetaProperty V) → V

/-- `retVal`: an entry that is missing counts as zero. -/
def retVal (addInfo : OrdMap String String) (tag : String) : Outcome V :=
  match addInfo.get? tag with
  | some str => A.stod str
  | none => .ok A.zero

/-- The loop over the identifiers from `idP` on. -/
def addIdentifiers (addInfo : OrdMap String String) (tags : List String) :
    ℕ → ℕ → List V → Outcome (List V)
  | 0, _, ident => .ok ident
  | rounds + 1, idP, ident =>
    if idP + 1 < ident.length then do
      let tag ← Outcome.elementAt tags idP
      let value ← retVal A addInfo tag
      let current ← Outcome.elementAt ident idP
      if tag = "Instances" then
        if A.lt current value then do
          let execTime ← retVal A addInfo "ExecTime"
          addIdentifiers addInfo tags rounds (idP + 2)
            ((ident.set idP value).set (idP + 1) execTime)
        else addIdentifiers addInfo tags rounds (idP + 1) ident
      else addIdentifiers addInfo tags rounds (idP + 1) (ident.set idP (A.add current value))
    else .ok ident

/-- The second component is `phase_iter`, which only a property sets. -/
def getMeasurements (properties : List (MetaProperty V)) (ident : List V) (tags : List String)
    (phaseIter : Option ℕ) : Outcome (List V × Option ℕ) :=
  properties.foldlM (fun s p =>
    if p.isRtsBased then do
      let iter ← retVal A p.extraInfo (tags.getLast?.getD "")
      let iter ← A.toUnsigned iter
      let ident ← addIdentifiers A p.extraInfo tags s.1.length 0 s.1
      return (ident, some iter)
    else return s) (ident, phaseIter)

def tags : List String := ["TotalInstr", "L3Misses", "BranchInstr", "Instances", "ExecTime", "PhaseIter"]

/-- The identifiers before the first measurement. -/
def noIdent : List V := List.replicate 5 A.zero

/-- What the experiment for one scenario has left in the result pools. -/
structure Results (V : Type) where
  srp : List (MetaProperty V)
  arp : String → List (MetaProperty V)
  config : Configuration

end Measurements

section Insertion
variable {V : Type} (A : Doubles V)

/-- The length of a match of `/Cluster=\d+` at the start, or zero. -/
def pathClusterMatch : List Char → ℕ
  | '/' :: cs =>
    match Rtstree.clusterMatch cs with
    | 0 => 0
    | length + 1 => length + 2
  | _ => 0

/-- The first argument counts the characters that belong to the match removed last. -/
def removeMatches : ℕ → List Char → List Char
  | _, [] => []
  | skipped + 1, _ :: cs => removeMatches skipped cs
  | 0, c :: cs =>
    match pathClusterMatch (c :: cs) with
    | 0 => c :: removeMatches 0 cs
    | length + 1 => removeMatches length cs

/-- `std::regex_replace( call_path, std::regex( "/Cluster=\d+" ), "" )`. -/
def removeClusters (callPath : String) : String := .ofList (removeMatches 0 callPath.toList)

def objectiveValues (objectives : List (ObjectiveFunction V)) (properties : List (MetaProperty V)) :
    List (String × V) :=
  objectives.map fun obj => (obj.name, obj.objective properties)

def insertEntries (m : OrdMap String V) (es : List (String × V)) : OrdMap String V :=
  es.foldl (fun m e => m.insertNew e.1 e.2) m

def setEntries (m : OrdMap String V) (es : List (String × V)) : OrdMap String V :=
  es.foldl (fun m e => m.set e.1 e.2) m

/-- `m[ tag ] += value`, from zero where there is no entry. -/
def addEntries (m : OrdMap String V) (es : List (String × V)) : OrdMap String V :=
  es.foldl (fun m e => m.set e.1 (A.add ((m.get? e.1).getD A.zero) e.2)) m

/-- What insertion reads of the plugin: the objectives, the requested samples, and for each
tuning step the call paths of the valid rts's of the significant regions. -/
structure InsertSetting (V : Type) where
  objectives : List (ObjectiveFunction V)
  samples : ℕ
  validRts : ℕ → List String

variable (setting : InsertSetting V) (results : Results V)

/-- The records of the rts's that have properties, with the last `phase_iter`. -/
def newRtsInfo (phaseIter : Option ℕ) : Outcome (List (RtsInfo V) × Option ℕ) :=
  (setting.validRts 1).foldlM (fun s callPath =>
    if (results.arp callPath).isEmpty then .ok s
    else do
      let (rtsIdent, phaseIter) ← getMeasurements A (results.arp callPath) (noIdent A) tags s.2
      return (s.1 ++ [{ RtsInfo.new V with
        callpath := callPath
        objValues := insertEntries .empty (objectiveValues setting.objectives (results.arp callPath))
        phaseIdentifiers := insertEntries .empty (tags.zip rtsIdent) }], phaseIter)) ([], phaseIter)

/-- The record of the first tuning step, with the iteration of its phase. -/
def newPhase (scenarioId : ℤ) : Outcome (ℕ × PhaseInfo V) := do
  let (phaseIdent, phaseIter) ← getMeasurements A results.srp (noIdent A) tags none
  let (rtsInfo, phaseIter) ← newRtsInfo A setting results phaseIter
  let phaseIter ← Outcome.found phaseIter
  return (phaseIter, {
    scenarioID := scenarioId
    scenarioConfig := results.config
    phaseIdentifiers := insertEntries .empty (tags.zip phaseIdent)
    objValues := insertEntries .empty (objectiveValues setting.objectives results.srp)
    normalizedObj := .empty
    normalizedFeatures := (A.zero, A.zero)
    visited := false
    neighbors := []
    clusterID := unclassified
    defaultPhaseIdentifiers := .empty
    defaultObjValues := .empty
    rtsInfo })

/-- The part of `insertRtsData` for one rts whose record has been found. -/
def storeRts (tuningStep : ℕ) (properties : List (MetaProperty V)) (rtsIdent : List V)
    (rts : RtsInfo V) : RtsInfo V :=
  let objValues := objectiveValues setting.objectives properties
  let identifiers := tags.zip rtsIdent
  if tuningStep = 2 then { rts with
    defaultObjValues := insertEntries rts.defaultObjValues objValues
    defaultPhaseIdentifiers := insertEntries rts.defaultPhaseIdentifiers identifiers }
  else if tuningStep = 3 then { rts with
    objValues := setEntries rts.objValues objValues
    phaseIdentifiers := setEntries rts.phaseIdentifiers identifiers }
  else rts

/-- The data of every valid rts goes to the first record with its call path. In the third
step the call paths have a part for the cluster. -/
def insertRtsData (tuningStep : ℕ) (phase : PhaseInfo V) : Outcome (PhaseInfo V) := do
  let rtsInfo ← (setting.validRts tuningStep).foldlM (fun rtsInfo validPath =>
    let callPath := if tuningStep = 3 then removeClusters validPath else validPath
    match rtsInfo.findIdx? fun r => r.callpath = callPath with
    | none => .ok rtsInfo
    | some i =>
      if (results.arp callPath).isEmpty then .ok rtsInfo
      else do
        let rts ← Outcome.elementAt rtsInfo i
        let (rtsIdent, _) ← getMeasurements A (results.arp callPath) (noIdent A) tags none
        return rtsInfo.set i (storeRts setting tuningStep (results.arp callPath) rtsIdent rts))
    phase.rtsInfo
  return { phase with rtsInfo }

/-- What the second step stores in the record of a phase. -/
def storeDefaults (phaseIdent : List V) (phase : PhaseInfo V) : Outcome (PhaseInfo V) :=
  insertRtsData A setting results 2 { phase with
    defaultPhaseIdentifiers := addEntries A phase.defaultPhaseIdentifiers (tags.zip phaseIdent)
    defaultObjValues :=
      insertEntries phase.defaultObjValues (objectiveValues setting.objectives results.srp) }

/-- What the third step stores in the record of a phase. -/
def storeResults (phaseIdent : List V) (phase : PhaseInfo V) : Outcome (PhaseInfo V) :=
  insertRtsData A setting results 3 { phase with
    phaseIdentifiers := setEntries phase.phaseIdentifiers (tags.zip phaseIdent)
    objValues := setEntries phase.objValues (objectiveValues setting.objectives results.srp) }

/-- What a later tuning step stores in the record of a phase. -/
def storePhaseData (tuningStep : ℕ) (phaseIdent : List V) (phase : PhaseInfo V) :
    Outcome (PhaseInfo V) :=
  match tuningStep with
  | 2 => storeDefaults A setting results phaseIdent phase
  | 3 => storeResults A setting results phaseIdent phase
  | _ => .ok phase

/-- Subtraction of `unsigned int`s. -/
def minus (a b : ℕ) : ℕ := (((a : ℤ) - b) % 4294967296).toNat

/-- The phase of an iteration: the iterations go on counting through the tuning steps. -/
def phaseOfIter (samples tuningStep phaseIter : ℕ) : ℕ :=
  match tuningStep with
  | 2 => minus (minus phaseIter 1) samples
  | 3 => minus (minus phaseIter 1) (2 * samples % 4294967296)
  | _ => minus phaseIter 1

def insertPhaseData (tuningStep : ℕ) (scenarioId : ℤ) (phases : Phases V) : Outcome (Phases V) :=
  if tuningStep = 1 then do
    let (phaseIter, phase) ← newPhase A setting results scenarioId
    return phases.insertNew (phaseOfIter setting.samples 1 phaseIter) phase
  else do
    let (phaseIdent, phaseIter) ← getMeasurements A results.srp (noIdent A) tags none
    let phaseIter ← Outcome.found phaseIter
    let number := phaseOfIter setting.samples tuningStep phaseIter
    match phases.get? number with
    | none => return phases
    | some phase =>
      let phase ← storePhaseData A setting results tuningStep phaseIdent phase
      return phases.set number phase

end Insertion
end ReadexPtf.Interphase
