import ReadexPtf.Lib.Decimal
import ReadexPtf.Lib.OrdMap
import ReadexPtf.Lib.Outcome
import ReadexPtf.Lib.Strings
import Mathlib

/-! Properties as the agents above the analysis agents handle them. -/
namespace ReadexPtf.Agents
open ReadexPtf
variable {V : Type}

structure ExecObj where
  process : ℤ
  thread : ℤ
  deriving DecidableEq

/-- `V` stands for `double`. The type of the region is the number of the enumerator, to which
whatever number was read is cast. -/
structure MetaProperty (V : Type) where
  cluster : Bool
  id : String
  name : String
  fileId : ℤ
  fileName : String
  startLine : ℤ
  maxProcs : ℤ
  maxThreads : ℤ
  regionType : ℤ
  regionId : String
  confidence : V
  severity : V
  purpose : ℤ
  addInfo : OrdMap String String
  execObjs : List ExecObj
  rtsBased : Bool
  callpath : String
  done : Bool

def MetaProperty.emptyProp (zero : V) : MetaProperty V where
  cluster := false
  id := ""
  name := ""
  fileId := 0
  fileName := ""
  startLine := 0
  maxProcs := 1
  maxThreads := 1
  regionType := 44
  regionId := ""
  confidence := zero
  severity := zero
  purpose := 0
  addInfo := OrdMap.empty
  execObjs := []
  rtsBased := false
  callpath := ""
  done := false

/-- Processes and threads, with an x between them. -/
def MetaProperty.getConfiguration (prop : MetaProperty V) : String :=
  prop.maxProcs.repr ++ "x" ++ prop.maxThreads.repr

/-- The number of processes has to be there. -/
def MetaProperty.setConfiguration (config : String) (prop : MetaProperty V) :
    Outcome (MetaProperty V) :=
  match strtok 'x' config with
  | [] => .undefined
  | [procs] => .ok { prop with maxProcs := atoi procs }
  | procs :: threads :: _ => .ok { prop with maxProcs := atoi procs, maxThreads := atoi threads }

def MetaProperty.setRegionId (regionId : String) (prop : MetaProperty V) : MetaProperty V :=
  if regionId.length = 0 then
    { prop with regionId := prop.fileId.repr ++ "-" ++ prop.startLine.repr }
  else { prop with regionId := regionId }

def MetaProperty.getProcess (prop : MetaProperty V) : Outcome ℤ :=
  match prop.execObjs with
  | [] => .throws "vector::_M_range_check"
  | execObj :: _ => .ok execObj.process

def MetaProperty.getThread (prop : MetaProperty V) : Outcome ℤ :=
  match prop.execObjs with
  | [] => .throws "vector::_M_range_check"
  | execObj :: _ => .ok execObj.thread

def MetaProperty.addExecObj (process thread : ℤ) (prop : MetaProperty V) : MetaProperty V :=
  { prop with execObjs := prop.execObjs ++ [⟨process, thread⟩] }

def MetaProperty.addExecObjs (objs : List ExecObj) (prop : MetaProperty V) : MetaProperty V :=
  { prop with execObjs := prop.execObjs ++ objs }

/-- An entry that is there stays. -/
def MetaProperty.addExtraInfo (param value : String) (prop : MetaProperty V) : MetaProperty V :=
  { prop with addInfo := prop.addInfo.insertNew param value }

section Xml

def formatString (replacements : List (String × String)) (str : String) : String :=
  replacements.foldl (fun str replacement =>
    String.ofList (replaceAll replacement.1.toList replacement.2.toList str.toList)) str

/-- The texts of the characters that are replaced in regions and call paths. -/
def xmlEscapes : List (String × String) :=
  [(" ", "&ws;"), ("<", "&lt;"), ("&", "&amp;"), (">", "&gt;")]

/-- The names and the identifiers other than the region and the call path go out as they are.
`text` prints a number. -/
def MetaProperty.toXMLSerialize (text : V → String) (prop : MetaProperty V) : String :=
  let agentRegionId := formatString xmlEscapes prop.regionId
  let callpath := formatString xmlEscapes prop.callpath
  "  <property cluster=\"" ++ toString prop.cluster ++ "\" ID=\"" ++ prop.id ++ "\" >\n" ++
  "\t<name>" ++ prop.name ++ "</name>\n" ++
  "\t<context FileID=\"" ++ prop.fileId.repr ++ "\" FileName=\"" ++ prop.fileName ++
  "\" RFL=\"" ++ prop.startLine.repr ++ "\" Config=\"" ++ prop.getConfiguration ++
  "\" RegionType=\"" ++ prop.regionType.repr ++ "\" RegionId=\"" ++ agentRegionId ++
  "\" RtsBased=\"" ++ toString prop.rtsBased ++ "\" CallPath=\"" ++ callpath ++ "\" >\n" ++
  String.join (prop.execObjs.map fun obj =>
    "\t\t<execObj process=\"" ++ obj.process.repr ++ "\" thread=\"" ++ obj.thread.repr ++
      "\"/>\n") ++
  "\t</context>\n" ++
  "\t<severity>" ++ text prop.severity ++ "</severity>\n" ++
  "\t<confidence>" ++ text prop.confidence ++ "</confidence>\n" ++
  "\t<purpose>" ++ prop.purpose.repr ++ "</purpose>\n" ++
  "\t<addInfo>\n" ++
  String.join (prop.addInfo.entries.map fun info =>
    "\t\t<" ++ info.1 ++ ">" ++ info.2 ++ "</" ++ info.1 ++ ">\n") ++
  "\t</addInfo>\n" ++
  "  </property>\n"

/-- What the XML parser reads of a property. -/
structure PropertyTree (V : Type) where
  id : String
  cluster : String
  name : String
  severity : V
  confidence : V
  purpose : ℤ
  fileId : ℤ
  fileName : String
  startLine : ℤ
  regionType : ℤ
  configuration : String
  regionId : Option String
  callpath : String
  rtsBased : Bool
  execObjs : List ExecObj
  addInfo : List (String × String)

/-- The regular expressions are the texts of the escapes. -/
def unescape (str : String) : String := formatString (xmlEscapes.map Prod.swap) str

/-- The part of the deserialization that follows the parser. -/
def MetaProperty.ofTree (zero : V) (tree : PropertyTree V) : Outcome (MetaProperty V) := do
  let result ← { MetaProperty.emptyProp zero with
    id := tree.id
    cluster := tree.cluster = "true"
    name := tree.name
    severity := tree.severity
    confidence := tree.confidence
    purpose := tree.purpose
    fileId := tree.fileId
    fileName := tree.fileName
    startLine := tree.startLine
    regionType := tree.regionType }.setConfiguration tree.configuration
  let regionId ← Outcome.found tree.regionId
  let result := result.setRegionId
    (if regionId.length ≠ 0 then unescape regionId else regionId)
  let result := { result with callpath := unescape tree.callpath, rtsBased := tree.rtsBased }
  let result := tree.execObjs.foldl (fun prop obj => prop.addExecObj obj.process obj.thread) result
  .ok (tree.addInfo.foldl (fun prop info => prop.addExtraInfo info.1 info.2) result)

/-- `readXml` is the XML parser; a text that it cannot read ends the agent. -/
def MetaProperty.fromXMLDeserialize (zero : V) (readXml : String → Option (PropertyTree V))
    (propData : String) : Outcome (MetaProperty V) :=
  match readXml propData with
  | none => .aborts
  | some tree => MetaProperty.ofTree zero tree

end Xml

section Setters
variable {prop : MetaProperty V}

/-- A printed number consists of digits and a sign. -/
theorem ne_x_of_mem_repr {v : ℤ} {c : Char} (h : c ∈ v.repr.toList) : c ≠ 'x' := by
  have hdigits (n : ℕ) : ∀ d ∈ n.repr.toList, d ≠ 'x' := by
    intro d hd hx
    have hdigit := isDigit_of_mem_toDigits d (by simpa using hd)
    rw [hx] at hdigit
    cases hdigit
  rw [Int.repr_eq_if] at h
  split at h
  · exact hdigits _ c h
  · rw [String.toList_append, List.mem_append] at h
    cases h with
    | inl h => intro hx; rw [hx] at h; simp at h
    | inr h => exact hdigits _ c h

theorem strtok_configuration (procs threads : ℤ) :
    strtok 'x' (procs.repr ++ "x" ++ threads.repr) = [procs.repr, threads.repr] := by
  have hne (v : ℤ) : v.repr.toList ≠ [] := by
    rw [Int.repr_eq_if]
    split <;> simp [Nat.toDigits_ne_nil]
  have hplain (v : ℤ) : ∀ c ∈ v.repr.toList, decide (c = 'x') = false := fun c hc =>
    decide_eq_false (ne_x_of_mem_repr hc)
  have hsplit : (procs.repr ++ "x" ++ threads.repr).toList.splitOnP (· = 'x') =
      [procs.repr.toList, threads.repr.toList] := by
    rw [String.toList_append, String.toList_append, List.append_assoc]
    show (procs.repr.toList ++ 'x' :: threads.repr.toList).splitOnP _ = _
    rw [List.splitOnP_append_cons_of_forall_mem (hplain procs) 'x' rfl,
      List.splitOnP_eq_singleton (hplain threads)]
  rw [strtok, hsplit]
  simp [hne]

/-- The configuration of another property is taken over. -/
theorem MetaProperty.setConfiguration_getConfiguration (other : MetaProperty V) :
    prop.setConfiguration other.getConfiguration =
      .ok { prop with maxProcs := other.maxProcs, maxThreads := other.maxThreads } := by
  rw [MetaProperty.setConfiguration, MetaProperty.getConfiguration, strtok_configuration]
  simp only [atoi_repr]

theorem MetaProperty.setRegionId_of_ne {regionId : String} (h : regionId ≠ "") :
    prop.setRegionId regionId = { prop with regionId := regionId } := by
  have hlength : regionId.length ≠ 0 := fun h' => h (by simpa using h')
  rw [MetaProperty.setRegionId, if_neg hlength]

theorem MetaProperty.setRegionId_ne (regionId : String) :
    (prop.setRegionId regionId).regionId ≠ "" := by
  unfold MetaProperty.setRegionId
  split
  · intro h
    have hlength := congrArg String.length h
    simp at hlength
  · rename_i h
    exact fun heq => h (by rw [show regionId = "" from heq]; rfl)

theorem MetaProperty.setRegionId_done (regionId : String) :
    (prop.setRegionId regionId).done = prop.done := by
  unfold MetaProperty.setRegionId
  split <;> rfl

theorem MetaProperty.setConfiguration_done {config : String} {result : MetaProperty V}
    (h : prop.setConfiguration config = .ok result) : result.done = prop.done := by
  unfold MetaProperty.setConfiguration at h
  split at h <;> cases h <;> rfl

theorem MetaProperty.addExecObj_foldl (objs : List ExecObj) :
    (objs.foldl (fun prop obj => prop.addExecObj obj.process obj.thread) prop).regionId =
        prop.regionId ∧
      (objs.foldl (fun prop obj => prop.addExecObj obj.process obj.thread) prop).done =
        prop.done := by
  induction objs generalizing prop with
  | nil => exact ⟨rfl, rfl⟩
  | cons obj rest ih => exact @ih (prop.addExecObj obj.process obj.thread)

theorem MetaProperty.addExtraInfo_foldl (infos : List (String × String)) :
    (infos.foldl (fun prop info => prop.addExtraInfo info.1 info.2) prop).regionId =
        prop.regionId ∧
      (infos.foldl (fun prop info => prop.addExtraInfo info.1 info.2) prop).done = prop.done := by
  induction infos generalizing prop with
  | nil => exact ⟨rfl, rfl⟩
  | cons info rest ih => exact @ih (prop.addExtraInfo info.1 info.2)

/-- A property that was read has a region, and nothing was done with it. -/
theorem MetaProperty.ofTree_ok {zero : V} {tree : PropertyTree V}
    (h : MetaProperty.ofTree zero tree = .ok prop) : prop.regionId ≠ "" ∧ prop.done = false := by
  unfold MetaProperty.ofTree at h
  rw [Outcome.bind_eq_ok] at h
  obtain ⟨configured, hconfigured, h⟩ := h
  rw [Outcome.bind_eq_ok] at h
  obtain ⟨regionId, -, h⟩ := h
  rw [← Outcome.ok.inj h, (MetaProperty.addExtraInfo_foldl _).1,
    (MetaProperty.addExtraInfo_foldl _).2, (MetaProperty.addExecObj_foldl _).1,
    (MetaProperty.addExecObj_foldl _).2]
  constructor
  · exact @MetaProperty.setRegionId_ne V configured
      (if regionId.length ≠ 0 then unescape regionId else regionId)
  · have hdone := MetaProperty.setConfiguration_done hconfigured
    rw [MetaProperty.setRegionId_done, hdone]
    rfl

end Setters

end ReadexPtf.Agents
