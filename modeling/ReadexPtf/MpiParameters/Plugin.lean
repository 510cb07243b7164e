import ReadexPtf.Agents.MetaProperty
import ReadexPtf.Frontend.ScenarioPool
import ReadexPtf.Lib.Views
import Mathlib

/-! The MPI parameters plugin for the IBM implementation: a scenario is run with the values
of its parameters on the command line, and a command that was run before is not run again. -/
namespace ReadexPtf.MpiParameters
open ReadexPtf.Agents Frontend Autotune
variable {V : Type}

/-- What the plugin reads of a tuning parameter. -/
structure MPIParameter where
  id : ℕ
  name : String

/-- The parameters that are dropped where another one is switched off. -/
inductive MPIType where
  | bulkMinMsgSize
  | taskAffinity
  deriving DecidableEq

structure MPIParametersPlugin where
  /-- What is at the address of a tuning parameter. -/
  tuningParameter : ℕ → MPIParameter
  /-- The texts of the values; none where a value is a number itself. -/
  valuesMap : OrdMap ℕ (List String)
  applUninstrumented : Bool
  /-- The process of an execution object of which only the thread was set. -/
  indeterminate : ℤ
  zero : V

section Checksum

/-- A byte of a string is a `char`, which has a sign. -/
def signedChar (byte : UInt8) : ℤ :=
  if byte.toNat < 128 then byte.toNat else byte.toNat - 256

/-- The `float` nearest to a number; halfway the even one. -/
def toFloat (number : ℤ) : ℤ :=
  if number.natAbs < 2 ^ 24 then number
  else
    let ulp := 2 ^ (number.natAbs.log2 - 23)
    let below := number.natAbs / ulp
    let up := ulp < 2 * (number.natAbs % ulp) ∨
      (ulp = 2 * (number.natAbs % ulp) ∧ below % 2 = 1)
    number.sign * ((if up then below + 1 else below) * ulp : ℕ)

def checkSum (str : String) : ℤ :=
  str.toUTF8.data.toList.foldl (fun totalSum c => toFloat (totalSum + signedChar c)) 0

def FitsInt (number : ℤ) : Prop := -2 ^ 31 ≤ number ∧ number < 2 ^ 31

instance (number : ℤ) : Decidable (FitsInt number) := inferInstanceAs (Decidable (_ ∧ _))

/-- A `float` that no `int` holds is not converted. -/
def toInt (number : ℤ) : Outcome ℤ := if FitsInt number then .ok number else .undefined

end Checksum

section Command
variable (plugin : MPIParametersPlugin (V := V))

def currentValues (address : ℕ) : Outcome (List String) :=
  Outcome.found (plugin.valuesMap.get? (plugin.tuningParameter address).id)

/-- `at()`: a negative number is a large index. -/
def valueAt (currentValues : List String) (value : ℤ) : Outcome String :=
  if 0 ≤ value then
    match currentValues[value.toNat]? with
    | some text => .ok text
    | none => .throws "vector::_M_range_check"
  else .throws "vector::_M_range_check"

/-- The iterator of the entry that was erased is incremented. -/
def deleteConfParameter (val : MPIType) (values : Variant) : Outcome Variant :=
  values.entries.foldlM (fun values it =>
    if (plugin.tuningParameter it.1).name = "bulk_min_msg_size" ∧ val = .bulkMinMsgSize then
      .undefined
    else if (plugin.tuningParameter it.1).name = "task_affinity" ∧ val = .taskAffinity then
      .undefined
    else .ok values) values

/-- What a parameter with the value `no` drops. -/
def deletedBy (key : String) : Option MPIType :=
  if key = "use_bulk_xfer" then some .bulkMinMsgSize
  else if key = "pe_affinity" then some .taskAffinity
  else none

/-- Nothing was erased where the loop goes on, so that it runs through all of the entries. -/
def deleteSwitchedOff (values : Variant) : Outcome Variant :=
  values.entries.foldlM (fun values it => do
    let currentValues ← currentValues plugin it.1
    if currentValues.length ≠ 0 then do
      let text ← valueAt currentValues it.2
      if text = "no" then
        match deletedBy (plugin.tuningParameter it.1).name with
        | some confParameter => deleteConfParameter plugin confParameter values
        | none => .ok values
      else .ok values
    else .ok values) values

def appendArgument (command : String) (it : ℕ × ℤ) : Outcome String := do
  let currentValues ← currentValues plugin it.1
  if currentValues.length = 0 then
    .ok (command ++ ("-" ++ (plugin.tuningParameter it.1).name ++ " " ++ it.2.repr ++ " "))
  else do
    let text ← valueAt currentValues it.2
    .ok (command ++ ("-" ++ (plugin.tuningParameter it.1).name ++ " " ++ text ++ " "))

/-- `ts->front()->getVariant()->getValue()`. -/
def frontValues (scenario : Scenario) : Outcome Variant :=
  match scenario.ts with
  | [] => .undefined
  | spec :: _ => .ok spec.variant

/-- The command and its check sum. -/
def commandOf (values : Variant) : Outcome (String × ℤ) := do
  let values ← deleteSwitchedOff plugin values
  let command ← values.entries.foldlM (appendArgument plugin) ""
  let auxVal ← toInt (checkSum command)
  return (command, auxVal)

end Command

section Valued
variable {plugin : MPIParametersPlugin (V := V)}

/-- The text that goes on the command line for a value. -/
def MPIParametersPlugin.text (plugin : MPIParametersPlugin (V := V)) (it : ℕ × ℤ) : String :=
  match plugin.valuesMap.get? (plugin.tuningParameter it.1).id with
  | some (first :: others) => ((first :: others)[it.2.toNat]?).getD ""
  | _ => it.2.repr

def MPIParametersPlugin.argument (plugin : MPIParametersPlugin (V := V)) (it : ℕ × ℤ) : String :=
  "-" ++ (plugin.tuningParameter it.1).name ++ " " ++ plugin.text it ++ " "

/-- What a scenario is started with. -/
def MPIParametersPlugin.launchCommand (plugin : MPIParametersPlugin (V := V))
    (scenario : Scenario) : String :=
  match scenario.ts with
  | [] => ""
  | spec :: _ => spec.variant.entries.foldl (fun command it => command ++ plugin.argument it) ""

/-- The values of a parameter are numbers, or they are indices of its texts. -/
def MPIParametersPlugin.Valued (plugin : MPIParametersPlugin (V := V)) (it : ℕ × ℤ) : Prop :=
  ∃ currentValues, plugin.valuesMap.get? (plugin.tuningParameter it.1).id = some currentValues ∧
    (currentValues ≠ [] → 0 ≤ it.2 ∧ it.2 < currentValues.length)

def MPIType.key : MPIType → String
  | .bulkMinMsgSize => "bulk_min_msg_size"
  | .taskAffinity => "task_affinity"

/-- A parameter is switched off that drops another one of the same scenario. -/
def MPIParametersPlugin.Deletes (plugin : MPIParametersPlugin (V := V)) (values : Variant) : Prop :=
  ∃ it ∈ values.entries, ∃ currentValues,
    plugin.valuesMap.get? (plugin.tuningParameter it.1).id = some currentValues ∧
    currentValues[it.2.toNat]? = some "no" ∧
    ∃ val, deletedBy (plugin.tuningParameter it.1).name = some val ∧
      ∃ dropped ∈ values.entries, (plugin.tuningParameter dropped.1).name = val.key

theorem valueAt_eq_ok {currentValues : List String} {value : ℤ} (hnonneg : 0 ≤ value)
    {text : String} : valueAt currentValues value = .ok text ↔
      currentValues[value.toNat]? = some text := by
  rw [valueAt, if_pos hnonneg]
  cases currentValues[value.toNat]? <;> simp

/-- The parameter that is to be dropped is not there. -/
theorem deleteConfParameter_eq_ok {val : MPIType} {values values' : Variant} :
    deleteConfParameter plugin val values = .ok values' ↔
      values' = values ∧ ∀ it ∈ values.entries, (plugin.tuningParameter it.1).name ≠ val.key := by
  have hstep : ∀ (values : Variant) (it : ℕ × ℤ) (values' : Variant),
      (if (plugin.tuningParameter it.1).name = "bulk_min_msg_size" ∧ val = .bulkMinMsgSize then
          Outcome.undefined
        else if (plugin.tuningParameter it.1).name = "task_affinity" ∧ val = .taskAffinity then
          .undefined
        else .ok values) = .ok values' ↔
      values' = values ∧ (plugin.tuningParameter it.1).name ≠ val.key := by
    intro values it values'
    cases val
    · by_cases hname : (plugin.tuningParameter it.1).name = "bulk_min_msg_size" <;>
        simp [MPIType.key, hname, eq_comm]
    · by_cases hname : (plugin.tuningParameter it.1).name = "task_affinity" <;>
        simp [MPIType.key, hname, eq_comm]
  rw [deleteConfParameter,
    Outcome.foldlM_checks fun values it _ values' h => ((hstep values it values').mp h).1]
  exact and_congr_right fun _ => forall₂_congr fun it _ =>
    (hstep values it values).trans (and_iff_right rfl)

/-- One round of the loop that looks for switched off parameters. -/
theorem deleteStep_eq_ok {values values' : Variant} {it : ℕ × ℤ} (hvalued : plugin.Valued it) :
    (currentValues plugin it.1 >>= fun currentValues =>
      if currentValues.length ≠ 0 then valueAt currentValues it.2 >>= fun text =>
        if text = "no" then
          match deletedBy (plugin.tuningParameter it.1).name with
          | some confParameter => deleteConfParameter plugin confParameter values
          | none => .ok values
        else .ok values
      else .ok values) = .ok values' ↔
    values' = values ∧ ∀ currentValues,
      plugin.valuesMap.get? (plugin.tuningParameter it.1).id = some currentValues →
      currentValues[it.2.toNat]? = some "no" →
      ∀ val, deletedBy (plugin.tuningParameter it.1).name = some val →
        ∀ dropped ∈ values.entries, (plugin.tuningParameter dropped.1).name ≠ val.key := by
  obtain ⟨texts, htexts, hrange⟩ := hvalued
  rw [currentValues, htexts]
  cases texts with
  | nil => simp [Outcome.found, eq_comm]
  | cons first others =>
    obtain ⟨hnonneg, hlt⟩ := hrange (List.cons_ne_nil _ _)
    obtain ⟨text, htext⟩ : ∃ text, (first :: others)[it.2.toNat]? = some text :=
      ⟨_, List.getElem?_eq_getElem (by omega)⟩
    have hat := (valueAt_eq_ok hnonneg).mpr htext
    simp only [Outcome.found, Outcome.ok_bind, List.length_cons, Nat.add_eq_zero_iff, one_ne_zero,
      and_false, ne_eq, not_false_eq_true, if_true, hat, Option.some.injEq]
    by_cases hno : text = "no"
    · rw [if_pos hno]
      cases hdeleted : deletedBy (plugin.tuningParameter it.1).name with
      | none => simp [eq_comm]
      | some val =>
        rw [deleteConfParameter_eq_ok]
        refine and_congr_right fun _ => ⟨?_, ?_⟩
        · rintro h _ rfl _ _ hval
          exact (Option.some.inj hval) ▸ h
        · exact fun h => h _ rfl (by rw [htext, hno]) val rfl
    · rw [if_neg hno]
      constructor
      · intro h
        refine ⟨(Outcome.ok.inj h).symm, ?_⟩
        rintro _ rfl htext'
        exact absurd (Option.some.inj (htext.symm.trans htext')) hno
      · rintro ⟨rfl, -⟩
        rfl

theorem deleteSwitchedOff_eq_ok {values values' : Variant}
    (hvalued : ∀ it ∈ values.entries, plugin.Valued it) :
    deleteSwitchedOff plugin values = .ok values' ↔ values' = values ∧ ¬ plugin.Deletes values := by
  rw [deleteSwitchedOff, Outcome.foldlM_checks fun values it hit values' h =>
    ((deleteStep_eq_ok (hvalued it hit)).mp h).1]
  refine and_congr_right fun _ => ?_
  constructor
  · rintro h ⟨it, hit, currentValues, htexts, hno, val, hval, dropped, hdropped, hname⟩
    exact ((deleteStep_eq_ok (hvalued it hit)).mp (h it hit)).2 currentValues htexts hno val hval
      dropped hdropped hname
  · intro h it hit
    refine (deleteStep_eq_ok (hvalued it hit)).mpr ⟨rfl, ?_⟩
    intro currentValues htexts hno val hval dropped hdropped hname
    exact h ⟨it, hit, currentValues, htexts, hno, val, hval, dropped, hdropped, hname⟩

theorem appendArgument_eq {it : ℕ × ℤ} (hvalued : plugin.Valued it) (command : String) :
    appendArgument plugin command it = .ok (command ++ plugin.argument it) := by
  obtain ⟨texts, htexts, hrange⟩ := hvalued
  rw [appendArgument, currentValues, htexts, MPIParametersPlugin.argument,
    MPIParametersPlugin.text, htexts]
  cases texts with
  | nil => rfl
  | cons first others =>
    obtain ⟨hnonneg, hlt⟩ := hrange (List.cons_ne_nil _ _)
    have hthere : (first :: others)[it.2.toNat]? = some (first :: others)[it.2.toNat] :=
      List.getElem?_eq_getElem (by omega)
    rw [Outcome.found, Outcome.ok_bind, if_neg (by simp), (valueAt_eq_ok hnonneg).mpr hthere]
    simp only [Outcome.ok_bind, hthere, Option.getD_some]

/-- The command is the one the scenario is started with, unless a parameter is dropped. -/
theorem commandOf_eq_ok {values : Variant} {command : String} {auxVal : ℤ}
    (hvalued : ∀ it ∈ values.entries, plugin.Valued it) :
    commandOf plugin values = .ok (command, auxVal) ↔
      ¬ plugin.Deletes values ∧
      command = values.entries.foldl (fun command it => command ++ plugin.argument it) "" ∧
      FitsInt (checkSum command) ∧ auxVal = checkSum command := by
  rw [commandOf, Outcome.bind_eq_ok]
  constructor
  · rintro ⟨values', hdeleted, h⟩
    obtain ⟨rfl, hkept⟩ := (deleteSwitchedOff_eq_ok hvalued).mp hdeleted
    rw [Outcome.foldlM_eq_foldl fun command it hit => appendArgument_eq (hvalued it hit) command,
      Outcome.ok_bind, toInt] at h
    split_ifs at h with hfits
    · rw [Outcome.ok_bind] at h
      cases h
      exact ⟨hkept, rfl, hfits, rfl⟩
    · cases h
  · rintro ⟨hkept, rfl, hfits, rfl⟩
    refine ⟨values, (deleteSwitchedOff_eq_ok hvalued).mpr ⟨rfl, hkept⟩, ?_⟩
    rw [Outcome.foldlM_eq_foldl fun command it hit => appendArgument_eq (hvalued it hit) command,
      Outcome.ok_bind, toInt, if_pos hfits]
    rfl

end Valued

section Results

/-- The results of the scenarios under their ids. -/
abbrev ScenarioResultsPool (V : Type) := OrdMap ℤ (List (MetaProperty V))

def idText (scenario : Scenario) : String := (scenario.id : ℤ).repr

/-- A property that does not name its scenario is rejected. -/
def pushResult (srp : ScenarioResultsPool V) (property : MetaProperty V) :
    Outcome (ScenarioResultsPool V) :=
  match property.addInfo.get? "ScenarioID" with
  | none => .throws "0"
  | some text => .ok (srp.set (atoi text) ((srp.get? (atoi text)).getD [] ++ [property]))

/-- `getScenarioResultsByID( scenario_id ).front()`. -/
def frontResult (srp : ScenarioResultsPool V) (scenarioId : ℤ) : Outcome (MetaProperty V) :=
  match srp.get? scenarioId with
  | none => .throws "0"
  | some [] => .undefined
  | some (property :: _) => .ok property

/-- `setThread`: the execution objects are replaced by the first one with the new thread. -/
def setThread (indeterminate thread : ℤ) (prop : MetaProperty V) : MetaProperty V :=
  match prop.execObjs with
  | [] => { prop with execObjs := [⟨indeterminate, thread⟩] }
  | execObj :: _ => { prop with execObjs := [⟨execObj.process, thread⟩] }

/-- The thread is copied in an instrumented run only. -/
def copyThread (plugin : MPIParametersPlugin (V := V)) (oldMetaProp newMetaProp : MetaProperty V) :
    Outcome (MetaProperty V) :=
  if plugin.applUninstrumented then .ok newMetaProp
  else do
    let thread ← oldMetaProp.getThread
    return setThread plugin.indeterminate thread newMetaProp

/-- `map::at( "ScenarioID" )` is assigned. -/
def renameScenario (text : String) (addInfo : OrdMap String String) :
    Outcome (OrdMap String String) :=
  match addInfo.get? "ScenarioID" with
  | none => .throws "map::at"
  | some _ => .ok (addInfo.set "ScenarioID" text)

/-- The result of an earlier scenario under the id of the one that is skipped. -/
def copyResult (plugin : MPIParametersPlugin (V := V)) (oldMetaProp : MetaProperty V)
    (scenario : Scenario) : Outcome (MetaProperty V) := do
  let newMetaProp ← { MetaProperty.emptyProp plugin.zero with
    name := oldMetaProp.name
    cluster := oldMetaProp.cluster
    id := oldMetaProp.id
    fileId := oldMetaProp.fileId
    fileName := oldMetaProp.fileName
    startLine := oldMetaProp.startLine }.setConfiguration oldMetaProp.getConfiguration
  let newMetaProp ← copyThread plugin oldMetaProp newMetaProp
  let newMetaProp := { { newMetaProp with
    regionType := oldMetaProp.regionType }.setRegionId oldMetaProp.regionId with
    severity := oldMetaProp.severity
    confidence := oldMetaProp.confidence
    purpose := oldMetaProp.purpose }
  let newMetaProp := newMetaProp.addExecObjs oldMetaProp.execObjs
  let newExtraInfo ← renameScenario (idText scenario) oldMetaProp.addInfo
  return newExtraInfo.entries.foldl (fun newMetaProp it =>
    newMetaProp.addExtraInfo it.1 it.2) newMetaProp

/-- What the plugin relies on in a result of an experiment: it names the scenario, and in an
instrumented run it is located. -/
structure Measured (plugin : MPIParametersPlugin (V := V)) (scenario : Scenario)
    (result : MetaProperty V) : Prop where
  named : result.addInfo.get? "ScenarioID" = some (idText scenario)
  located : plugin.applUninstrumented = false → result.execObjs ≠ []

theorem addExtraInfo_foldl_addInfo (infos : List (String × String)) (prop : MetaProperty V) :
    infos.foldl (fun newMetaProp it => newMetaProp.addExtraInfo it.1 it.2) prop =
      { prop with addInfo := infos.foldl (fun m it => m.insertNew it.1 it.2) prop.addInfo } := by
  induction infos generalizing prop with
  | nil => rfl
  | cons info infos ih =>
    rw [List.foldl_cons, ih]
    rfl

theorem copyThread_startLine {plugin : MPIParametersPlugin (V := V)} {old new copy : MetaProperty V}
    (h : copyThread plugin old new = .ok copy) :
    copy.startLine = new.startLine ∧ copy.addInfo = new.addInfo := by
  rw [copyThread] at h
  split at h
  · cases h
    exact ⟨rfl, rfl⟩
  · obtain ⟨thread, -, hcopy⟩ := Outcome.bind_eq_ok.mp h
    cases hcopy
    unfold setThread
    split <;> exact ⟨rfl, rfl⟩

theorem copyThread_returns {plugin : MPIParametersPlugin (V := V)} {scenario : Scenario}
    {old : MetaProperty V} (h : Measured plugin scenario old) (new : MetaProperty V) :
    ∃ copy, copyThread plugin old new = .ok copy := by
  rw [copyThread]
  cases hinstrumented : plugin.applUninstrumented with
  | true => exact ⟨new, rfl⟩
  | false =>
    rw [if_neg Bool.false_ne_true, MetaProperty.getThread]
    cases hobjs : old.execObjs with
    | nil => exact absurd hobjs (h.located hinstrumented)
    | cons execObj others => exact ⟨_, rfl⟩

theorem setRegionId_keeps (regionId : String) (prop : MetaProperty V) :
    (prop.setRegionId regionId).startLine = prop.startLine ∧
      (prop.setRegionId regionId).addInfo = prop.addInfo := by
  unfold MetaProperty.setRegionId
  split <;> exact ⟨rfl, rfl⟩

/-- The copy of a measured result names the scenario that is skipped. -/
theorem copyResult_returns {plugin : MPIParametersPlugin (V := V)} {scenario : Scenario}
    {old : MetaProperty V} (h : Measured plugin scenario old) (skipped : Scenario) :
    ∃ copy, copyResult plugin old skipped = .ok copy ∧ copy.startLine = old.startLine ∧
      copy.addInfo.get? "ScenarioID" = some (idText skipped) := by
  rw [copyResult, MetaProperty.setConfiguration_getConfiguration, Outcome.ok_bind]
  obtain ⟨threaded, hthreaded⟩ := copyThread_returns h { MetaProperty.emptyProp plugin.zero with
    name := old.name
    cluster := old.cluster
    id := old.id
    fileId := old.fileId
    fileName := old.fileName
    startLine := old.startLine
    maxProcs := old.maxProcs
    maxThreads := old.maxThreads }
  obtain ⟨hline, hinfo⟩ := copyThread_startLine hthreaded
  rw [hthreaded, Outcome.ok_bind, renameScenario, h.named]
  refine ⟨_, rfl, ?_, ?_⟩
  · rw [addExtraInfo_foldl_addInfo]
    exact (setRegionId_keeps _ _).1.trans hline
  · have hempty : threaded.addInfo = OrdMap.empty := hinfo
    rw [addExtraInfo_foldl_addInfo]
    change (((MetaProperty.setRegionId old.regionId _).addInfo).insertAll
      (old.addInfo.set "ScenarioID" (idText skipped))).get? "ScenarioID" = _
    rw [OrdMap.get?_insertAll, (setRegionId_keeps _ _).2, hempty, OrdMap.get?_empty,
      Option.none_or, OrdMap.get?_set_self]

theorem frontResult_eq {srp : ScenarioResultsPool V} {scenarioId : ℤ} {result : MetaProperty V}
    (h : srp.get? scenarioId = some [result]) : frontResult srp scenarioId = .ok result := by
  rw [frontResult, h]

/-- A result goes to the scenario that it names. -/
theorem pushResult_eq {scenario : Scenario} {result : MetaProperty V}
    (h : result.addInfo.get? "ScenarioID" = some (idText scenario))
    (srp : ScenarioResultsPool V) :
    pushResult srp result =
      .ok (srp.set scenario.id ((srp.get? scenario.id).getD [] ++ [result])) := by
  rw [pushResult, h]
  dsimp only
  rw [idText, atoi_repr]

end Results

end ReadexPtf.MpiParameters
