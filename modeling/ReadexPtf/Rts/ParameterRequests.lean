import ReadexPtf.Lib.Formatted
import ReadexPtf.Rts.TuningRequests
import Mathlib

/-! Reading the parameters of a request back: three lists in parentheses, each with commas
between its parameters. -/
namespace ReadexPtf.Rtstree
open ReadexPtf

structure ParamRequest where
  paramType : ParameterNodeType
  paramName : Text
  paramValue : Text
  deriving DecidableEq

def Parameter.request (param : Parameter) : ParamRequest :=
  ⟨param.paramType, param.paramName.toList, param.paramValue.toList⟩

/-- A name in quotes, an equals sign and a value; that of a string is in quotes as well. -/
def readParam (type : ParameterNodeType) (piece : Text) : ParamRequest :=
  let name := (piece.drop 1).takeWhile fun c => c ≠ '"'
  let value := piece.drop (name.length + 3)
  ⟨type, name, if type = .string then (value.drop 1).dropLast else value⟩

def readParams (type : ParameterNodeType) (content : Text) : List ParamRequest :=
  if content = [] then [] else (content.splitOn ',').map (readParam type)

/-- One list after the other. -/
def readLists : List ParameterNodeType → Text → List ParamRequest
  | [], _ => []
  | type :: types, text =>
    let body := (text.dropWhile fun c => c ≠ '(').tail
    readParams type (body.takeWhile fun c => c ≠ ')') ++
      readLists types (body.dropWhile fun c => c ≠ ')')

def readMessage (text : Text) : List ParamRequest :=
  readLists [.integer, .unsignedInt, .string] text

/-- Names and values without the characters at which the message is split. -/
def Parameter.Plain (param : Parameter) : Prop :=
  ∀ c ∈ param.paramName.toList ++ param.paramValue.toList, c ≠ '"' ∧ c ≠ ',' ∧ c ≠ ')'

/-- The requests of a node, list by list. -/
def Rts.paramRequests (rts : Rts) : List ParamRequest :=
  [ParameterNodeType.integer, .unsignedInt, .string].flatMap fun type =>
    (rts.parameter.filter fun param => param.paramType = type).map Parameter.request

theorem toList_nameAndValue_eq (param : Parameter) :
    (nameAndValue param).toList = '"' :: (param.paramName.toList ++ '"' :: '=' ::
      if param.paramType = .string then '"' :: (param.paramValue.toList ++ ['"'])
      else param.paramValue.toList) := by
  rw [nameAndValue]
  cases param.paramType <;> simp [String.toList_append]

theorem readParam_nameAndValue {param : Parameter} (h : param.Plain) :
    readParam param.paramType (nameAndValue param).toList = param.request := by
  have hname : ∀ c ∈ param.paramName.toList, decide (c ≠ '"') = true := by
    intro c hc
    exact decide_eq_true (h c (List.mem_append_left _ hc)).1
  rw [toList_nameAndValue_eq, readParam]
  rw [List.drop_one, List.tail_cons, takeWhile_append_stop hname (by simp)]
  have hdrop : ∀ value : Text, ('"' :: (param.paramName.toList ++ '"' :: '=' :: value)).drop
      (param.paramName.toList.length + 3) = value := by
    intro value
    rw [show param.paramName.toList.length + 3 = (param.paramName.toList.length + 2) + 1 from rfl,
      List.drop_succ_cons, List.drop_append]
    simp
  rw [hdrop, Parameter.request]
  split_ifs with hstring
  · rw [List.drop_one, List.tail_cons, List.dropLast_concat]
  · rfl

/-- A list between a label and what follows. -/
theorem readLists_cons {type : ParameterNodeType} {types : List ParameterNodeType}
    {label content rest : Text} (hlabel : '(' ∉ label) (hcontent : ')' ∉ content) :
    readLists (type :: types) (label ++ '(' :: (content ++ ')' :: rest)) =
      readParams type content ++ readLists types (')' :: rest) := by
  have hlabel' : ∀ c ∈ label, decide (c ≠ '(') = true :=
    fun c hc => decide_eq_true fun hsame => hlabel (hsame ▸ hc)
  have hcontent' : ∀ c ∈ content, decide (c ≠ ')') = true :=
    fun c hc => decide_eq_true fun hsame => hcontent (hsame ▸ hc)
  rw [readLists, dropWhile_append_stop hlabel' (by simp), List.tail_cons,
    takeWhile_append_stop hcontent' (by simp), dropWhile_append_stop hcontent' (by simp)]

section Lists
variable {type : ParameterNodeType} {params : List Parameter}

theorem toList_paramList :
    (paramList type params).toList = [','].intercalate
      ((params.filter fun param => param.paramType = type).map fun param =>
        (nameAndValue param).toList) := by
  rw [paramList, String.toList_intercalate, List.map_map]
  rfl

theorem notMem_nameAndValue {param : Parameter} (h : param.Plain) :
    ',' ∉ (nameAndValue param).toList ∧ ')' ∉ (nameAndValue param).toList := by
  have hname : ∀ c ∈ param.paramName.toList, c ≠ ',' ∧ c ≠ ')' :=
    fun c hc => (h c (List.mem_append_left _ hc)).2
  have hvalue : ∀ c ∈ param.paramValue.toList, c ≠ ',' ∧ c ≠ ')' :=
    fun c hc => (h c (List.mem_append_right _ hc)).2
  rw [toList_nameAndValue_eq]
  constructor
  · intro hmem
    have hin : ',' ∈ param.paramName.toList ∨ ',' ∈ param.paramValue.toList := by
      split_ifs at hmem <;> simpa using hmem
    cases hin with
    | inl hin => exact (hname _ hin).1 rfl
    | inr hin => exact (hvalue _ hin).1 rfl
  · intro hmem
    have hin : ')' ∈ param.paramName.toList ∨ ')' ∈ param.paramValue.toList := by
      split_ifs at hmem <;> simpa using hmem
    cases hin with
    | inl hin => exact (hname _ hin).2 rfl
    | inr hin => exact (hvalue _ hin).2 rfl

theorem notMem_paramList (h : ∀ param ∈ params, param.Plain) :
    ')' ∉ (paramList type params).toList := by
  rw [toList_paramList]
  intro hmem
  cases mem_intercalate hmem with
  | inl hcomma => cases hcomma
  | inr hpiece =>
    obtain ⟨piece, hpiece, hin⟩ := hpiece
    obtain ⟨param, hparam, rfl⟩ := List.mem_map.mp hpiece
    exact (notMem_nameAndValue (h param (List.mem_filter.mp hparam).1)).2 hin

theorem readParams_paramList (h : ∀ param ∈ params, param.Plain) :
    readParams type (paramList type params).toList =
      (params.filter fun param => param.paramType = type).map Parameter.request := by
  rw [toList_paramList, readParams]
  cases hlisted : params.filter fun param => param.paramType = type with
  | nil => rfl
  | cons first rest =>
    have hall : ∀ param ∈ first :: rest, param.paramType = type ∧ param.Plain := by
      intro param hparam
      rw [← hlisted, List.mem_filter] at hparam
      exact ⟨of_decide_eq_true hparam.2, h param hparam.1⟩
    have hsome : [','].intercalate ((first :: rest).map fun param =>
        (nameAndValue param).toList) ≠ [] := by
      rw [List.map_cons, toList_nameAndValue_eq]
      cases rest with
      | nil => simp
      | cons next rest => simp
    rw [if_neg hsome, List.splitOn_intercalate ',' _ (by simp), List.map_map]
    · refine List.map_congr_left fun param hparam => ?_
      obtain ⟨rfl, hplain⟩ := hall param hparam
      exact readParam_nameAndValue hplain
    · intro piece hpiece
      obtain ⟨param, hparam, rfl⟩ := List.mem_map.mp hpiece
      exact (notMem_nameAndValue (hall param hparam).2).1

end Lists

/-- The comma-separated lists are read back as the requests. -/
theorem readMessage_paramText {rts : Rts} (h : ∀ param ∈ rts.parameter, param.Plain) :
    readMessage (paramText rts).toList = rts.paramRequests := by
  have htext : (paramText rts).toList =
      "INTPARAMS=".toList ++ '(' :: ((paramList .integer rts.parameter).toList ++ ')' ::
        (",UINTPARAMS=".toList ++ '(' :: ((paramList .unsignedInt rts.parameter).toList ++ ')' ::
          (",STRINGPARAMS=".toList ++ '(' :: ((paramList .string rts.parameter).toList ++ ')' ::
            []))))) := by
    simp [paramText, String.toList_append]
  have hread := fun type => @readParams_paramList type rts.parameter h
  have hclosed := fun type => @notMem_paramList type rts.parameter h
  rw [htext, readMessage, readLists_cons (by decide) (hclosed _), ← List.cons_append,
    readLists_cons (by decide) (hclosed _), ← List.cons_append,
    readLists_cons (by decide) (hclosed _), hread, hread, hread, readLists, List.append_nil,
    Rts.paramRequests]
  simp

/-- The message is the three lists, which can be read back, unless two parameters are strings. -/
theorem createParamReqStream_readsBack_iff (rts : Rts) :
    (createParamReqStream rts = paramText rts ∧
      ((∀ param ∈ rts.parameter, param.Plain) →
        readMessage (createParamReqStream rts).toList = rts.paramRequests)) ↔
      countStrings rts.parameter ≤ 1 := by
  constructor
  · intro h
    exact (createParamReqStream_eq_iff rts).mp h.1
  · intro h
    have htext := (createParamReqStream_eq_iff rts).mpr h
    exact ⟨htext, fun hplain => htext ▸ readMessage_paramText hplain⟩

/-- The comma between two strings stands among the integers. -/
theorem not_createParamReqStream_readsBack :
    ¬ ∀ rts : Rts, createParamReqStream rts = paramText rts ∧
      ((∀ param ∈ rts.parameter, param.Plain) →
        readMessage (createParamReqStream rts).toList = rts.paramRequests) := by
  intro h
  have htext := (h { validNode "foo" 1 with
    parameter := [⟨1, "a", "x", .string⟩, ⟨1, "b", "y", .string⟩] }).1
  revert htext
  decide

end ReadexPtf.Rtstree
