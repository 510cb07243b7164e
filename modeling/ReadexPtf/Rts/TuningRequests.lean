import ReadexPtf.Lib.Decimal
import ReadexPtf.Lib.Strings
import ReadexPtf.Rts.Node
import Mathlib

/-! Tuning requests for runtime situations: the request for a node names the valid nodes from
the root of the call-tree down to it, with the region ids of Score-P. -/
namespace ReadexPtf.Rtstree
open ReadexPtf

/-- The Score-P ids of a region, each with the ranks that use it. -/
abbrev ScorepRegionIdMappings := OrdMap ℕ (OrdMap ℕ (List ℕ))

/-- The first id that the rank has for the region; it is returned as an `int`. -/
def getScorepid (mappings : ScorepRegionIdMappings) (rank aaRegionID : ℕ) : ℤ :=
  match ((mappings.get? aaRegionID).getD .empty).entries.find? fun e => e.2.contains rank with
  | some e => (BitVec.ofNat 32 e.1).toInt
  | none => -1

section Requests
variable (tree : Cells Rts) (mappings : ScorepRegionIdMappings) (rank : ℕ)

/-- The id of the region of a node, through two pointers. -/
def scorepidOf (data : Rts) : Outcome ℤ := do
  let region ← Outcome.found data.reg
  return getScorepid mappings rank region

/-- The walk ends at the first node that has the id of the root. -/
def traverseReverse (rootScorepId : ℤ) : ℕ → ℕ → List ℕ → Outcome (List ℕ)
  | 0, _, _ => .undefined
  | depth + 1, rtsNode, rtsList => do
    let cell ← Outcome.found tree[rtsNode]?
    let scorepId ← scorepidOf mappings rank cell.data
    if rootScorepId = scorepId then .ok rtsList
    else do
      let parentRts ← Outcome.found cell.parent
      traverseReverse rootScorepId depth parentRts (parentRts :: rtsList)

structure ParamStreams where
  intparamStream : String
  uintparamStream : String
  stringparamStream : String
  cntIntComma : ℕ
  cntUintComma : ℕ
  cntStringComma : ℕ

def nameAndValue (param : Parameter) : String :=
  match param.paramType with
  | .integer | .unsignedInt => "\"" ++ param.paramName ++ "\"" ++ "=" ++ param.paramValue
  | .string => "\"" ++ param.paramName ++ "\"" ++ "=" ++ "\"" ++ param.paramValue ++ "\""

/-- The comma between two string parameters goes to the stream of the integers. -/
def ParamStreams.add (streams : ParamStreams) (param : Parameter) : ParamStreams :=
  match param.paramType with
  | .integer => { streams with
      intparamStream := streams.intparamStream ++
        (if streams.cntIntComma > 0 then "," else "") ++ nameAndValue param
      cntIntComma := streams.cntIntComma + 1 }
  | .unsignedInt => { streams with
      uintparamStream := streams.uintparamStream ++
        (if streams.cntUintComma > 0 then "," else "") ++ nameAndValue param
      cntUintComma := streams.cntUintComma + 1 }
  | .string => { streams with
      intparamStream := streams.intparamStream ++ (if streams.cntStringComma > 0 then "," else "")
      stringparamStream := streams.stringparamStream ++ nameAndValue param
      cntStringComma := streams.cntStringComma + 1 }

def createParamReqStream (rts : Rts) : String :=
  let streams := rts.parameter.foldl ParamStreams.add
    ⟨"INTPARAMS=(", "UINTPARAMS=(", "STRINGPARAMS=(", 0, 0, 0⟩
  streams.intparamStream ++ ")" ++ "," ++ (streams.uintparamStream ++ ")") ++ "," ++
    (streams.stringparamStream ++ ")")

def traverseForward : List ℕ → Bool → String → Outcome (Option String)
  | [], _, reqStream => .ok (some (reqStream ++ ")"))
  | rtsIt :: rtsList, separator, reqStream => do
    let cell ← Outcome.found tree[rtsIt]?
    let scorepRegionId ← scorepidOf mappings rank cell.data
    if scorepRegionId = -1 then .ok none
    else if cell.data.isValidRts = false then traverseForward rtsList separator reqStream
    else traverseForward rtsList true (reqStream ++ (if separator then "," else "") ++
      ("(" ++ scorepRegionId.repr ++ "," ++ createParamReqStream cell.data ++ ")"))

/-- The entry of the main region, where the configuration gives its id. -/
def mainEntry : Option String → String
  | none => ""
  | some mainId => "(" ++ (atoi mainId).repr ++ ",INTPARAMS=(),UINTPARAMS=(),STRINGPARAMS=()),"

/-- What `transfer_rts_tuning_requests_to_processes` makes of a node; nothing where a region has
no id. -/
def rtsTuningRequest (mainId : Option String) (rtsNode : ℕ) : Outcome (Option String) := do
  let root ← Outcome.found tree[0]?
  let scorepRRegionId ← scorepidOf mappings rank root.data
  if scorepRRegionId = -1 then .ok none
  else do
    let setOfRtss ← traverseReverse tree mappings rank scorepRRegionId tree.length rtsNode [rtsNode]
    traverseForward tree mappings rank setOfRtss false ("RTSTUNINGREQUESTS(" ++ mainEntry mainId)

end Requests

section Walk
variable {tree : Cells Rts} {mappings : ScorepRegionIdMappings} {rank : ℕ}

/-- The nodes from the root to a node. -/
abbrev NodesTo (tree : Cells Rts) (a : ℕ) (path : List Rts) : Prop := Cells.PathTo id tree a path

/-- The region of a node has an id for the rank. -/
def Identified (mappings : ScorepRegionIdMappings) (rank : ℕ) (data : Rts) : Prop :=
  ∃ region, data.reg = some region ∧ getScorepid mappings rank region ≠ -1

def scorepidOfNode (mappings : ScorepRegionIdMappings) (rank : ℕ) (data : Rts) : ℤ :=
  match data.reg with
  | some region => getScorepid mappings rank region
  | none => -1

theorem scorepidOf_eq {data : Rts} (h : Identified mappings rank data) :
    scorepidOf mappings rank data = .ok (scorepidOfNode mappings rank data) ∧
      scorepidOfNode mappings rank data ≠ -1 := by
  obtain ⟨region, hreg, hne⟩ := h
  rw [scorepidOf, scorepidOfNode, hreg]
  exact ⟨rfl, hne⟩

/-- The walk up from a node collects the lowest part of its path that begins with the id of the
root; it does not leave the tree. -/
theorem traverseReverse_path (hr : tree.Rooted) {rootScorepId : ℤ} {a : ℕ} {path : List Rts}
    (hpath : NodesTo tree a path) (hid : ∀ data ∈ path, Identified mappings rank data)
    (hroot : ∀ cell, tree[0]? = some cell →
      scorepidOfNode mappings rank cell.data = rootScorepId) :
    ∃ above low below nodes, path = above ++ low :: below ∧
      scorepidOfNode mappings rank low = rootScorepId ∧
      (∀ data ∈ below, scorepidOfNode mappings rank data ≠ rootScorepId) ∧
      nodes.map (dataOf tree) = (low :: below).map some ∧
      ∀ depth rtsList, a < depth →
        traverseReverse tree mappings rank rootScorepId depth a (a :: rtsList) =
          .ok (nodes ++ rtsList) := by
  induction hpath with
  | root cell hcell =>
    refine ⟨[], cell.data, [], [0], rfl, hroot cell hcell, by simp, ?_, ?_⟩
    · simp [dataOf, hcell]
    · intro depth rtsList hdepth
      cases depth with
      | zero => omega
      | succ depth =>
        have hself := (scorepidOf_eq (hid cell.data List.mem_cons_self)).1
        rw [traverseReverse, hcell, Outcome.found, Outcome.ok_bind, hself, Outcome.ok_bind,
          if_pos (hroot cell hcell).symm]
        rfl
  | child p c path cell hparent hchild hcell ih =>
    rw [List.forall_mem_append, List.forall_mem_singleton] at hid
    have hself : scorepidOf mappings rank cell.data =
      .ok (scorepidOfNode mappings rank cell.data) := (scorepidOf_eq hid.2).1
    by_cases hstop : scorepidOfNode mappings rank cell.data = rootScorepId
    · refine ⟨path, cell.data, [], [c], rfl, hstop, by simp, ?_, ?_⟩
      · simp [dataOf, hcell]
      · intro depth rtsList hdepth
        cases depth with
        | zero => omega
        | succ depth =>
          rw [traverseReverse, hcell, Outcome.found, Outcome.ok_bind, hself,
            Outcome.ok_bind, if_pos hstop.symm]
          rfl
    · obtain ⟨above, low, below, nodes, hsplit, hlow, hbelow, hnodes, hwalk⟩ := ih hid.1
      refine ⟨above, low, below ++ [cell.data], nodes ++ [c], by rw [hsplit]; simp, hlow, ?_, ?_, ?_⟩
      · exact List.forall_mem_append.mpr ⟨hbelow, List.forall_mem_singleton.mpr hstop⟩
      · rw [List.map_append, hnodes]
        simp [dataOf, hcell]
      · intro depth rtsList hdepth
        obtain ⟨cell', hcell', hup⟩ := hr.down p c hchild
        have hsame : cell = cell' := Option.some.inj (hcell.symm.trans hcell')
        cases depth with
        | zero => omega
        | succ depth =>
          have hlt := (hr.child_lt hchild).1
          rw [traverseReverse, hcell, Outcome.found, Outcome.ok_bind, hself,
            Outcome.ok_bind, if_neg (Ne.symm hstop), hsame, hup, Outcome.found, Outcome.ok_bind,
            hwalk depth (c :: rtsList) (by omega), List.append_assoc]
          rfl

end Walk

section Texts
variable {tree : Cells Rts} {mappings : ScorepRegionIdMappings} {rank : ℕ}

/-- The parameters of a type as a list. -/
def paramList (type : ParameterNodeType) (params : List Parameter) : String :=
  ",".intercalate ((params.filter fun param => param.paramType = type).map nameAndValue)

/-- The parameters of a node. -/
def paramText (rts : Rts) : String :=
  "INTPARAMS=(" ++ paramList .integer rts.parameter ++ "),UINTPARAMS=(" ++
    paramList .unsignedInt rts.parameter ++ "),STRINGPARAMS=(" ++
    paramList .string rts.parameter ++ ")"

def entry (params : Rts → String) (mappings : ScorepRegionIdMappings) (rank : ℕ) (rts : Rts) :
    String :=
  "(" ++ (scorepidOfNode mappings rank rts).repr ++ "," ++ params rts ++ ")"

/-- A request for nodes, each with its id and its parameters. -/
def requestText (params : Rts → String) (mappings : ScorepRegionIdMappings) (rank : ℕ)
    (mainId : Option String) (nodes : List Rts) : String :=
  "RTSTUNINGREQUESTS(" ++ mainEntry mainId ++
    ",".intercalate (nodes.map (entry params mappings rank)) ++ ")"

/-- A node with an id adds its entry, behind a comma if one was written before. -/
theorem traverseForward_cons {node : ℕ} {data : Rts} (hnode : dataOf tree node = some data)
    (hid : Identified mappings rank data) (nodes : List ℕ) (separator : Bool)
    (reqStream : String) :
    traverseForward tree mappings rank (node :: nodes) separator reqStream =
      if data.isValidRts then
        traverseForward tree mappings rank nodes true (reqStream ++
          (if separator then "," else "") ++ entry createParamReqStream mappings rank data)
      else traverseForward tree mappings rank nodes separator reqStream := by
  obtain ⟨cell, hcell, rfl⟩ := Option.map_eq_some_iff.mp hnode
  obtain ⟨hself, hne⟩ := scorepidOf_eq hid
  rw [traverseForward, hcell, Outcome.found, Outcome.ok_bind, hself, Outcome.ok_bind,
    if_neg hne, entry]
  cases cell.data.isValidRts <;> rfl

theorem traverseForward_continued {nodes : List ℕ} {datas : List Rts}
    (hnodes : nodes.map (dataOf tree) = datas.map some)
    (hid : ∀ data ∈ datas, Identified mappings rank data) (reqStream : String) :
    traverseForward tree mappings rank nodes true reqStream =
      .ok (some (reqStream ++ String.join ((datas.filter Rts.isValidRts).map fun data =>
        "," ++ entry createParamReqStream mappings rank data) ++ ")")) := by
  induction nodes generalizing datas reqStream with
  | nil =>
    cases datas with
    | nil => simp [traverseForward]
    | cons data datas => simp at hnodes
  | cons node nodes ih =>
    cases datas with
    | nil => simp at hnodes
    | cons data datas =>
      rw [List.map_cons, List.map_cons, List.cons.injEq] at hnodes
      rw [List.forall_mem_cons] at hid
      rw [traverseForward_cons hnodes.1 hid.1, ih hnodes.2 hid.2, ih hnodes.2 hid.2]
      cases hvalid : data.isValidRts with
      | false => rw [List.filter_cons_of_neg (by simp [hvalid]), if_neg Bool.false_ne_true]
      | true =>
        rw [List.filter_cons_of_pos (by simp [hvalid])]
        simp only [List.map_cons, String.join_cons, if_true, String.append_assoc]

/-- The request for the nodes that were collected. -/
theorem traverseForward_eq {nodes : List ℕ} {datas : List Rts}
    (hnodes : nodes.map (dataOf tree) = datas.map some)
    (hid : ∀ data ∈ datas, Identified mappings rank data) (reqStream : String) :
    traverseForward tree mappings rank nodes false reqStream =
      .ok (some (reqStream ++ ",".intercalate ((datas.filter Rts.isValidRts).map
        (entry createParamReqStream mappings rank)) ++ ")")) := by
  induction nodes generalizing datas reqStream with
  | nil =>
    cases datas with
    | nil => simp [traverseForward]
    | cons data datas => simp at hnodes
  | cons node nodes ih =>
    cases datas with
    | nil => simp at hnodes
    | cons data datas =>
      rw [List.map_cons, List.map_cons, List.cons.injEq] at hnodes
      rw [List.forall_mem_cons] at hid
      rw [traverseForward_cons hnodes.1 hid.1, traverseForward_continued hnodes.2 hid.2,
        ih hnodes.2 hid.2]
      cases hvalid : data.isValidRts with
      | false => rw [List.filter_cons_of_neg (by simp [hvalid]), if_neg Bool.false_ne_true]
      | true =>
        rw [List.filter_cons_of_pos (by simp [hvalid]), List.map_cons, intercalate_cons,
          List.map_map]
        simp only [Function.comp_def, String.append_assoc, if_neg Bool.false_ne_true,
          String.empty_append, if_true]

end Texts

section Parameters

/-- The parameters of a type, where `before` of them are there already. -/
def listed (type : ParameterNodeType) : List Parameter → ℕ → String
  | [], _ => ""
  | param :: params, before =>
    if param.paramType = type then
      (if before > 0 then "," else "") ++ nameAndValue param ++ listed type params (before + 1)
    else listed type params before

theorem listed_same {type : ParameterNodeType} {param : Parameter} (h : param.paramType = type)
    (params : List Parameter) (before : ℕ) : listed type (param :: params) before =
      (if before > 0 then "," else "") ++ nameAndValue param ++ listed type params (before + 1) := by
  rw [listed, if_pos h]

theorem listed_other {type : ParameterNodeType} {param : Parameter} (h : param.paramType ≠ type)
    (params : List Parameter) (before : ℕ) :
    listed type (param :: params) before = listed type params before := by
  rw [listed, if_neg h]

theorem listed_succ (type : ParameterNodeType) (params : List Parameter) (before : ℕ) :
    listed type params (before + 1) =
      String.join ((params.filter fun param => param.paramType = type).map fun param =>
        "," ++ nameAndValue param) := by
  induction params generalizing before with
  | nil => rfl
  | cons param params ih =>
    rw [listed]
    split_ifs with htype hpositive
    · rw [List.filter_cons_of_pos (by simpa using htype), List.map_cons, String.join_cons, ih]
    · omega
    · rw [List.filter_cons_of_neg (by simpa using htype), ih]

theorem listed_zero (type : ParameterNodeType) (params : List Parameter) :
    listed type params 0 = paramList type params := by
  induction params with
  | nil => rfl
  | cons param params ih =>
    rw [listed, paramList]
    split_ifs with htype hpositive
    · omega
    · rw [List.filter_cons_of_pos (by simpa using htype), List.map_cons, intercalate_cons,
        listed_succ, String.empty_append, List.map_map]
      rfl
    · rw [List.filter_cons_of_neg (by simpa using htype), ih, paramList]

/-- What goes to the stream of the integers. -/
def intStream : List Parameter → ℕ → ℕ → String
  | [], _, _ => ""
  | param :: params, ints, strings =>
    match param.paramType with
    | .integer =>
      (if ints > 0 then "," else "") ++ nameAndValue param ++ intStream params (ints + 1) strings
    | .unsignedInt => intStream params ints strings
    | .string => (if strings > 0 then "," else "") ++ intStream params ints (strings + 1)

theorem intStream_integer {param : Parameter} (h : param.paramType = .integer)
    (params : List Parameter) (ints strings : ℕ) : intStream (param :: params) ints strings =
      (if ints > 0 then "," else "") ++ nameAndValue param ++
        intStream params (ints + 1) strings := by
  rw [intStream, h]

theorem intStream_unsignedInt {param : Parameter} (h : param.paramType = .unsignedInt)
    (params : List Parameter) (ints strings : ℕ) :
    intStream (param :: params) ints strings = intStream params ints strings := by
  rw [intStream, h]

theorem intStream_string {param : Parameter} (h : param.paramType = .string)
    (params : List Parameter) (ints strings : ℕ) : intStream (param :: params) ints strings =
      (if strings > 0 then "," else "") ++ intStream params ints (strings + 1) := by
  rw [intStream, h]

def stringStream (params : List Parameter) : String :=
  String.join ((params.filter fun param => param.paramType = .string).map nameAndValue)

theorem foldl_add (params : List Parameter) (streams : ParamStreams) :
    (params.foldl ParamStreams.add streams).intparamStream = streams.intparamStream ++
        intStream params streams.cntIntComma streams.cntStringComma ∧
      (params.foldl ParamStreams.add streams).uintparamStream = streams.uintparamStream ++
        listed .unsignedInt params streams.cntUintComma ∧
      (params.foldl ParamStreams.add streams).stringparamStream =
        streams.stringparamStream ++ stringStream params := by
  induction params generalizing streams with
  | nil => exact ⟨String.append_empty.symm, String.append_empty.symm, String.append_empty.symm⟩
  | cons param params ih =>
    rw [List.foldl_cons, (ih _).1, (ih _).2.1, (ih _).2.2, stringStream, stringStream,
      ParamStreams.add, intStream]
    cases htype : param.paramType with
    | integer =>
      rw [List.filter_cons_of_neg (by simp [htype]), listed_other (by simp [htype])]
      simp only [String.append_assoc, and_self]
    | unsignedInt =>
      rw [List.filter_cons_of_neg (by simp [htype]), listed_same htype]
      simp only [String.append_assoc, and_self]
    | string =>
      rw [List.filter_cons_of_pos (by simp [htype]), List.map_cons, String.join_cons,
        listed_other (by simp [htype])]
      simp only [String.append_assoc, and_self]

theorem createParamReqStream_eq (rts : Rts) :
    createParamReqStream rts = "INTPARAMS=(" ++ (intStream rts.parameter 0 0 ++
      "),UINTPARAMS=(" ++ listed .unsignedInt rts.parameter 0 ++ "),STRINGPARAMS=(" ++
        stringStream rts.parameter ++ ")") := by
  rw [createParamReqStream, (foldl_add _ _).1, (foldl_add _ _).2.1, (foldl_add _ _).2.2]
  simp only [String.append_assoc]
  rfl

theorem paramText_eq (rts : Rts) :
    paramText rts = "INTPARAMS=(" ++ (listed .integer rts.parameter 0 ++
      "),UINTPARAMS=(" ++ listed .unsignedInt rts.parameter 0 ++ "),STRINGPARAMS=(" ++
        listed .string rts.parameter 0 ++ ")") := by
  unfold paramText
  rw [listed_zero, listed_zero, listed_zero]
  simp only [String.append_assoc]

def countStrings (params : List Parameter) : ℕ :=
  (params.filter fun param => param.paramType = .string).length

theorem countStrings_other {param : Parameter} (h : param.paramType ≠ .string)
    (params : List Parameter) : countStrings (param :: params) = countStrings params := by
  rw [countStrings, List.filter_cons_of_neg (by simp [h]), countStrings]

theorem countStrings_string {param : Parameter} (h : param.paramType = .string)
    (params : List Parameter) : countStrings (param :: params) = countStrings params + 1 := by
  rw [countStrings, List.filter_cons_of_pos (by simp [h]), List.length_cons, countStrings]

theorem stringStream_other {param : Parameter} (h : param.paramType ≠ .string)
    (params : List Parameter) : stringStream (param :: params) = stringStream params := by
  rw [stringStream, List.filter_cons_of_neg (by simp [h]), stringStream]

theorem stringStream_string {param : Parameter} (h : param.paramType = .string)
    (params : List Parameter) :
    stringStream (param :: params) = nameAndValue param ++ stringStream params := by
  rw [stringStream, List.filter_cons_of_pos (by simp [h]), List.map_cons, String.join_cons,
    stringStream]

/-- The commas are all there. -/
theorem length_streams (params : List Parameter) (ints strings : ℕ) :
    (intStream params ints strings).length + (stringStream params).length =
      (listed .integer params ints).length + (listed .string params strings).length := by
  induction params generalizing ints strings with
  | nil => rfl
  | cons param params ih =>
    cases htype : param.paramType with
    | integer =>
      have hrest := ih (ints + 1) strings
      rw [intStream_integer htype, stringStream_other (by simp [htype]), listed_same htype,
        listed_other (by simp [htype])]
      simp only [String.length_append]
      omega
    | unsignedInt =>
      rw [intStream_unsignedInt htype, stringStream_other (by simp [htype]),
        listed_other (by simp [htype]), listed_other (by simp [htype])]
      exact ih ints strings
    | string =>
      have hrest := ih ints (strings + 1)
      rw [intStream_string htype, stringStream_string htype, listed_same htype,
        listed_other (by simp [htype])]
      simp only [String.length_append]
      omega

/-- One string parameter needs no comma. -/
theorem streams_of_le {params : List Parameter} {strings : ℕ}
    (h : countStrings params + strings ≤ 1) (ints : ℕ) :
    intStream params ints strings = listed .integer params ints ∧
      stringStream params = listed .string params strings := by
  induction params generalizing ints strings with
  | nil => exact ⟨rfl, rfl⟩
  | cons param params ih =>
    cases htype : param.paramType with
    | integer =>
      rw [countStrings_other (by simp [htype])] at h
      obtain ⟨hints, hstrings⟩ := ih h (ints + 1)
      rw [intStream_integer htype, stringStream_other (by simp [htype]), listed_same htype,
        listed_other (by simp [htype]), hints]
      exact ⟨rfl, hstrings⟩
    | unsignedInt =>
      rw [countStrings_other (by simp [htype])] at h
      rw [intStream_unsignedInt htype, stringStream_other (by simp [htype]),
        listed_other (by simp [htype]), listed_other (by simp [htype])]
      exact ih h ints
    | string =>
      rw [countStrings_string htype] at h
      have hnone : strings = 0 := by omega
      have hlast : countStrings params + (strings + 1) ≤ 1 := by omega
      obtain ⟨hints, hstrings⟩ := ih hlast ints
      rw [intStream_string htype, stringStream_string htype, listed_same htype,
        listed_other (by simp [htype]), hints, hstrings, hnone]
      exact ⟨String.empty_append, by simp⟩

theorem toList_nameAndValue (param : Parameter) :
    ∃ rest, (nameAndValue param).toList = '"' :: rest := by
  rw [nameAndValue]
  cases param.paramType with
  | integer | unsignedInt =>
    refine ⟨(param.paramName ++ "\"" ++ "=" ++ param.paramValue).toList, ?_⟩
    simp [String.toList_append]
  | string =>
    refine ⟨(param.paramName ++ "\"" ++ "=" ++ "\"" ++ param.paramValue ++ "\"").toList, ?_⟩
    simp [String.toList_append]

/-- Before a first parameter there is no comma. -/
theorem listed_head (params : List Parameter) (tail : List Char) :
    (((listed .integer params 0).toList ++ ')' :: tail).head? ≠ some ',') ∧ ∀ ints rest,
      (listed .integer params (ints + 1)).toList ++ ')' :: tail = ',' :: rest →
      rest.head? = some '"' := by
  induction params with
  | nil => simp [listed]
  | cons param params ih =>
    obtain ⟨name, hname⟩ := toList_nameAndValue param
    rw [listed]
    split_ifs with htype hpositive
    · omega
    · refine ⟨?_, fun ints rest h => ?_⟩
      · simp [String.toList_append, hname]
      · rw [listed, if_pos htype, if_pos (Nat.succ_pos ints)] at h
        simp only [String.toList_append, hname] at h
        rw [← (List.cons.inj h).2]
        rfl
    · refine ⟨ih.1, fun ints rest h => ?_⟩
      rw [listed, if_neg htype] at h
      exact ih.2 ints rest h

theorem intStream_head (params : List Parameter) (ints strings : ℕ) (tail : List Char) :
    ((intStream params (ints + 1) (strings + 1)).toList ++ ')' :: tail).head? ≠ some '"' := by
  induction params with
  | nil => simp [intStream]
  | cons param params ih =>
    rw [intStream]
    cases param.paramType with
    | integer | string => simp [String.toList_append]
    | unsignedInt => exact ih

/-- A comma that belongs between two strings is seen among the integers. -/
theorem intStream_ne {params : List Parameter} {ints strings : ℕ} (hpositive : 0 < countStrings params)
    (h : 1 < countStrings params + strings) (tail tail' : List Char) :
    (intStream params ints strings).toList ++ ')' :: tail ≠
      (listed .integer params ints).toList ++ ')' :: tail' := by
  induction params generalizing ints strings with
  | nil => exact absurd hpositive (Nat.lt_irrefl 0)
  | cons param params ih =>
    cases htype : param.paramType with
    | integer =>
      rw [countStrings_other (by simp [htype])] at hpositive h
      rw [intStream_integer htype, listed_same htype]
      simp only [String.toList_append, List.append_assoc]
      intro heq
      exact ih hpositive h (List.append_cancel_left (List.append_cancel_left heq))
    | unsignedInt =>
      rw [countStrings_other (by simp [htype])] at hpositive h
      rw [intStream_unsignedInt htype, listed_other (by simp [htype])]
      exact ih hpositive h
    | string =>
      rw [countStrings_string htype] at h
      rw [intStream_string htype, listed_other (by simp [htype])]
      cases strings with
      | zero =>
        rw [if_neg (Nat.lt_irrefl 0), String.empty_append]
        exact ih (by omega) (by omega)
      | succ strings =>
        rw [if_pos (Nat.succ_pos strings), String.toList_append]
        intro heq
        cases ints with
        | zero =>
          apply (listed_head params tail').1
          rw [← heq]
          rfl
        | succ ints =>
          have hquote := (listed_head params tail').2 ints _ heq.symm
          exact intStream_head params ints (strings + 1) tail hquote

theorem length_createParamReqStream (rts : Rts) :
    (createParamReqStream rts).length = (paramText rts).length := by
  have hlength := length_streams rts.parameter 0 0
  rw [createParamReqStream_eq, paramText_eq]
  simp only [String.length_append]
  omega

/-- The parameters of a node are as they should be unless two of them are strings. -/
theorem createParamReqStream_eq_iff (rts : Rts) :
    createParamReqStream rts = paramText rts ↔ countStrings rts.parameter ≤ 1 := by
  rw [createParamReqStream_eq, paramText_eq, String.append_right_inj]
  constructor
  · intro heq
    by_contra hmany
    have hlists := congrArg String.toList heq
    simp only [String.toList_append, List.append_assoc] at hlists
    exact intStream_ne (by omega) (by omega) _ _ hlists
  · intro hle
    obtain ⟨hints, hstrings⟩ := @streams_of_le rts.parameter 0 hle 0
    rw [hints, hstrings]

end Parameters

section Requests
variable {tree : Cells Rts} {mappings : ScorepRegionIdMappings} {rank : ℕ}

/-- No valid node of the path is above another node with the id of the root. -/
def NoneAbove (mappings : ScorepRegionIdMappings) (rank : ℕ) (rootScorepId : ℤ)
    (path : List Rts) : Prop :=
  ∀ above low below, path = above ++ low :: below →
    scorepidOfNode mappings rank low = rootScorepId → ∀ data ∈ above, data.isValidRts = false

theorem length_entry (data : Rts) :
    (entry createParamReqStream mappings rank data).length =
      (entry paramText mappings rank data).length := by
  simp only [entry, String.length_append, length_createParamReqStream]

theorem entry_ne_empty (params : Rts → String) (data : Rts) :
    entry params mappings rank data ≠ "" := by
  intro h
  have hlength := congrArg String.length h
  simp [entry] at hlength

theorem entry_eq_iff (data : Rts) :
    entry createParamReqStream mappings rank data = entry paramText mappings rank data ↔
      countStrings data.parameter ≤ 1 := by
  rw [entry, entry, String.append_left_inj, String.append_right_inj,
    createParamReqStream_eq_iff]

/-- The request for the lower part of a path is that for all of it where nothing is valid above
and no entry has its commas misplaced. -/
theorem requestText_eq_iff (mainId : Option String) (above below : List Rts) :
    requestText createParamReqStream mappings rank mainId below =
      requestText paramText mappings rank mainId (above ++ below) ↔
    above = [] ∧ ∀ data ∈ below, countStrings data.parameter ≤ 1 := by
  have hlength : ∀ data ∈ below, (entry createParamReqStream mappings rank data).length =
      (entry paramText mappings rank data).length := fun data _ => length_entry data
  unfold requestText
  refine (String.append_left_inj ")").trans ((String.append_right_inj _).trans ?_)
  constructor
  · intro heq
    have hnone : above = [] := by
      by_contra hsome
      obtain ⟨data, hdata⟩ := List.exists_mem_of_ne_nil above hsome
      have hlonger : (",".intercalate (below.map (entry paramText mappings rank))).length <
          (",".intercalate (above.map (entry paramText mappings rank) ++
            below.map (entry paramText mappings rank))).length :=
        length_intercalate_append ⟨_, List.mem_map_of_mem hdata, entry_ne_empty paramText data⟩
      rw [← List.map_append, ← heq, ← length_intercalate_map hlength] at hlonger
      exact Nat.lt_irrefl _ hlonger
    refine ⟨hnone, fun data hdata => (@entry_eq_iff mappings rank data).mp ?_⟩
    rw [hnone, List.nil_append] at heq
    exact intercalate_map_inj hlength heq data hdata
  · rintro ⟨rfl, hle⟩
    have hentries : below.map (entry createParamReqStream mappings rank) =
        below.map (entry paramText mappings rank) :=
      List.map_congr_left fun data hdata => (entry_eq_iff data).mpr (hle data hdata)
    rw [List.nil_append, hentries]

theorem NodesTo.root_mem {a : ℕ} {path : List Rts} (hpath : NodesTo tree a path) {cell : Cell Rts}
    (hcell : tree[0]? = some cell) : cell.data ∈ path := by
  induction hpath with
  | root cell' hcell' =>
    rw [Option.some.inj (hcell.symm.trans hcell')]
    exact List.mem_cons_self
  | child p c path cell' hparent hchild hcell' ih => exact List.mem_append_left _ ih

/-- The request for a node that the walk was made from. -/
theorem rtsTuningRequest_path (hr : tree.Rooted) {a : ℕ} {path : List Rts}
    (hpath : NodesTo tree a path) (hid : ∀ data ∈ path, Identified mappings rank data)
    {root : Rts} (hroot : dataOf tree 0 = some root) (mainId : Option String) :
    ∃ above low below, path = above ++ low :: below ∧
      scorepidOfNode mappings rank low = scorepidOfNode mappings rank root ∧
      (∀ data ∈ below, scorepidOfNode mappings rank data ≠ scorepidOfNode mappings rank root) ∧
      rtsTuningRequest tree mappings rank mainId a =
        .ok (some (requestText createParamReqStream mappings rank mainId
          ((low :: below).filter Rts.isValidRts))) := by
  obtain ⟨cell, hcell, rfl⟩ := Option.map_eq_some_iff.mp hroot
  obtain ⟨above, low, below, nodes, hsplit, hlow, hbelow, hnodes, hwalk⟩ :=
    @traverseReverse_path tree mappings rank hr (scorepidOfNode mappings rank cell.data) a path
      hpath hid (fun cell' hcell' => by rw [Option.some.inj (hcell'.symm.trans hcell)])
  refine ⟨above, low, below, hsplit, hlow, hbelow, ?_⟩
  have hrootId : Identified mappings rank cell.data := by
    exact hid cell.data (hpath.root_mem hcell)
  obtain ⟨hself, hne⟩ := scorepidOf_eq hrootId
  rw [rtsTuningRequest, hcell, Outcome.found, Outcome.ok_bind, hself, Outcome.ok_bind, if_neg hne,
    hwalk tree.length [] hpath.lt_length, Outcome.ok_bind, List.append_nil,
    traverseForward_eq hnodes fun data hdata => hid data (by rw [hsplit]; simp_all)]
  rfl

/-- The request names exactly the valid nodes of the path, each with its parameters. -/
theorem rtsTuningRequest_eq_iff (hr : tree.Rooted) {a : ℕ} {path : List Rts}
    (hpath : NodesTo tree a path) (hid : ∀ data ∈ path, Identified mappings rank data)
    {root : Rts} (hroot : dataOf tree 0 = some root) (mainId : Option String) :
    rtsTuningRequest tree mappings rank mainId a =
        .ok (some (requestText paramText mappings rank mainId (path.filter Rts.isValidRts))) ↔
      NoneAbove mappings rank (scorepidOfNode mappings rank root) path ∧
        ∀ data ∈ path, data.isValidRts → countStrings data.parameter ≤ 1 := by
  obtain ⟨above, low, below, hsplit, hlow, hbelow, hrequest⟩ :=
    rtsTuningRequest_path hr hpath hid hroot mainId
  have hfilter : path.filter Rts.isValidRts =
      above.filter Rts.isValidRts ++ (low :: below).filter Rts.isValidRts := by
    rw [hsplit, List.filter_append]
  rw [hrequest, hfilter, Outcome.ok.injEq, Option.some.injEq, requestText_eq_iff,
    List.filter_eq_nil_iff]
  constructor
  · rintro ⟨hnone, hcommas⟩
    have hnotValid : ∀ data ∈ above, data.isValidRts = false := by simpa using hnone
    constructor
    · -- a node with the id of the root is not below the lowest one
      intro above' low' below' hsplit' hlow' data hdata
      rw [hsplit] at hsplit'
      cases List.append_eq_append_iff.mp hsplit' with
      | inl hlonger =>
        obtain ⟨others, hothers, hrest⟩ := hlonger
        cases others with
        | nil =>
          rw [List.append_nil] at hothers
          exact hnotValid data (hothers ▸ hdata)
        | cons first others =>
          rw [List.cons_append, List.cons.injEq] at hrest
          have hin : low' ∈ below := by
            rw [hrest.2]
            exact List.mem_append_right _ List.mem_cons_self
          exact absurd hlow' (hbelow low' hin)
      | inr hshorter =>
        obtain ⟨others, hothers, -⟩ := hshorter
        exact hnotValid data (hothers ▸ List.mem_append_left _ hdata)
    · intro data hdata hvalid
      rw [hsplit] at hdata
      cases List.mem_append.mp hdata with
      | inl hin => rw [hnotValid data hin] at hvalid; cases hvalid
      | inr hin => exact hcommas data (List.mem_filter.mpr ⟨hin, hvalid⟩)
  · rintro ⟨hnone, hcommas⟩
    refine ⟨?_, ?_⟩
    · simpa using hnone above low below hsplit hlow
    · intro data hdata
      obtain ⟨hin, hvalid⟩ := List.mem_filter.mp hdata
      exact hcommas data (by rw [hsplit]; exact List.mem_append_right _ hin) hvalid

def validNode (name : String) (region : ℕ) : Rts :=
  { Rts.ofRecord ⟨region, name, 0, 0⟩ region with isValidRts := true }

/-- A main function that is called again by one of its callees. -/
def recursiveTree : Cells Rts :=
  [⟨validNode "main" 0, none, [1]⟩, ⟨validNode "foo" 1, some 0, [2]⟩,
    ⟨validNode "main" 0, some 1, []⟩]

def twoRegions : ScorepRegionIdMappings :=
  (OrdMap.empty.set 0 (OrdMap.empty.set 5 [0])).set 1 (OrdMap.empty.set 6 [0])

theorem rooted_recursiveTree : recursiveTree.Rooted := by
  have hone : Cells.Rooted [⟨validNode "main" 0, none, []⟩] := by
    refine ⟨⟨_, rfl, rfl⟩, ?_, ?_⟩
    · intro c cell hcell hne
      have hlt := (List.getElem?_eq_some_iff.mp hcell).1
      simp at hlt
      exact absurd hlt hne
    · intro p c hc
      cases p <;> simp [Cells.childrenOf] at hc
  have hfoo : (Cells.attach [⟨validNode "main" 0, none, []⟩] 0 (validNode "foo" 1)).Rooted :=
    hone.attach (by decide)
  exact @Cells.Rooted.attach _ _ 1 (validNode "main" 0) hfoo (by decide)

theorem nodesTo_foo : NodesTo recursiveTree 1 [validNode "main" 0, validNode "foo" 1] :=
  .child 0 1 [validNode "main" 0] ⟨validNode "foo" 1, some 0, [2]⟩
    (.root ⟨validNode "main" 0, none, [1]⟩ rfl) (by decide) rfl

theorem identified_twoRegions (name : String) {region : ℕ} (h : region < 2) :
    Identified twoRegions 0 (validNode name region) := by
  refine ⟨region, rfl, ?_⟩
  interval_cases region <;> decide

/-- The request for the second call of main does not name the first one and the function between. -/
theorem not_rtsTuningRequest_recursive :
    ∃ path, NodesTo recursiveTree 2 path ∧ (∀ data ∈ path, Identified twoRegions 0 data) ∧
      rtsTuningRequest recursiveTree twoRegions 0 none 2 ≠
        .ok (some (requestText paramText twoRegions 0 none (path.filter Rts.isValidRts))) := by
  refine ⟨_, .child 1 2 _ ⟨validNode "main" 0, some 1, []⟩ nodesTo_foo (by decide) rfl, ?_, ?_⟩
  · intro data hdata
    simp only [id, List.cons_append, List.nil_append, List.mem_cons, List.not_mem_nil,
      or_false] at hdata
    rcases hdata with rfl | rfl | rfl <;> exact identified_twoRegions _ (by decide)
  · decide +kernel

/-- The request for the function that main calls. -/
theorem rtsTuningRequest_foo :
    rtsTuningRequest recursiveTree twoRegions 0 none 1 =
      .ok (some (requestText paramText twoRegions 0 none
        ([validNode "main" 0, validNode "foo" 1].filter Rts.isValidRts))) := by
  refine (rtsTuningRequest_eq_iff rooted_recursiveTree nodesTo_foo ?_ rfl none).mpr ⟨?_, by decide⟩
  · intro data hdata
    simp only [List.mem_cons, List.not_mem_nil, or_false] at hdata
    rcases hdata with rfl | rfl <;> exact identified_twoRegions _ (by decide)
  · intro above low below hsplit hlow data hdata
    cases above with
    | nil => exact absurd hdata List.not_mem_nil
    | cons first above =>
      rw [List.cons_append, List.cons.injEq] at hsplit
      have hfoo : low ∈ [validNode "foo" 1] := by
        rw [hsplit.2]
        exact List.mem_append_right _ List.mem_cons_self
      rw [List.mem_singleton.mp hfoo] at hlow
      exact absurd hlow (by decide)

end Requests

end ReadexPtf.Rtstree
