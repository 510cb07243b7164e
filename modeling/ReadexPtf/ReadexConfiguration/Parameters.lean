import ReadexPtf.Autotune.SearchedValues
import ReadexPtf.Lib.Decimal
import ReadexPtf.ReadexConfiguration.Specifications

/-! The application parameters of the plugin `readex_configuration`: how the configuration file
gives them their values, and how a scenario picks some of these. -/
namespace ReadexPtf.ReadexConfiguration
open ReadexPtf Autotune

/-- Without a step it is 1. -/
inductive TpRange where
  | intRange (first last : ℕ) (step : Option ℕ)
  | stringRange (first : String) (rest : List String)
  deriving DecidableEq

structure ParameterSpecification where
  name : String
  values : TpRange
  deriving DecidableEq

structure FileSpec where
  filename : String
  templateFilename : String
  parameters : List ParameterSpecification
  nonempty : parameters ≠ []

/-- A file that the parser accepts, with the search algorithms that its statements set. -/
structure Specification where
  searchAlgorithms : List String
  files : List FileSpec
  nonempty : files ≠ []

namespace Specification

/-- The last statement counts. -/
def search_algorithm (spec : Specification) : String :=
  spec.searchAlgorithms.getLast?.getD "exhaustive"

/-- The parameters of the file, in its order. -/
def parameters (spec : Specification) : List ParameterSpecification :=
  spec.files.flatMap FileSpec.parameters

end Specification

structure AppConfigParameter extends TuningParameter where
  id : ℕ
  name : String
  filePath : String
  valueStrings : List String
  deriving DecidableEq

namespace AppConfigParameter

def setRange (tp : AppConfigParameter) (start stop incr : ℤ) : AppConfigParameter :=
  { tp with rangeFrom := start, rangeTo := stop, rangeStep := incr }

def addValueString (tp : AppConfigParameter) (str : String) : AppConfigParameter :=
  { tp with valueStrings := tp.valueStrings ++ [str] }

/-- An index below zero is beyond the size, which is unsigned. -/
def getValueString (tp : AppConfigParameter) (i : ℤ) : Option String :=
  let i := i - 1
  if 0 ≤ i then tp.valueStrings[i.toNat]? else none

/-- `trim_copy( str ).empty()`. -/
def isBlank (str : String) : Bool := str.toList.all isSpace

/-- The range ends earlier by one for each value that is erased. -/
def removeEmptyValues (tp : AppConfigParameter) : AppConfigParameter :=
  { tp with
    valueStrings := tp.valueStrings.filter fun str => !isBlank str
    rangeTo := tp.rangeTo - tp.valueStrings.countP isBlank }

/-- The actions of `TpRange`. -/
def setValues (tp : AppConfigParameter) : TpRange → AppConfigParameter
  | .intRange first last step => tp.setRange first last (step.getD 1 : ℕ)
  | .stringRange first rest =>
    ((first :: rest).foldl addValueString tp).setRange 1 (first :: rest).length 1

end AppConfigParameter

structure TuningPlugin where
  tuningParameters : List AppConfigParameter
  /-- The input files, by their templates. -/
  inputFile : OrdMap String String
  tpID : ℕ

namespace TuningPlugin

def addTP (p : TuningPlugin) (tp : AppConfigParameter) : TuningPlugin :=
  { p with tuningParameters := p.tuningParameters ++ [{ tp with id := p.tpID }]
           tpID := p.tpID + 1 }

def addTemplateAndInputFile (p : TuningPlugin) (templateStr fileStr : String) : TuningPlugin :=
  { p with inputFile := p.inputFile.set templateStr fileStr }

section Parser
variable (new : ℕ ↪ ℕ)

/-- The actions of one parameter. The objects have addresses of their own. -/
def parameterSpecification (filename : String) (p : TuningPlugin) (spec : ParameterSpecification) :
    TuningPlugin :=
  p.addTP (.setValues ⟨⟨new p.tpID, 0, 0, 0, none⟩, 0, spec.name, filename, []⟩ spec.values)

def fileSpec (p : TuningPlugin) (file : FileSpec) : TuningPlugin :=
  file.parameters.foldl (parameterSpecification new file.filename)
    (p.addTemplateAndInputFile file.templateFilename file.filename)

def parseConfig (spec : Specification) : TuningPlugin :=
  spec.files.foldl (fileSpec new) ⟨[], .empty, 0⟩

/-- The plugin once it has been set up with the file. -/
def initialized (spec : Specification) : TuningPlugin :=
  let p := parseConfig new spec
  if spec.search_algorithm = "individual" then
    { p with tuningParameters := p.tuningParameters.map .removeEmptyValues }
  else p

end Parser

/-- A pointer of the variant that is one to a parameter of the plugin. -/
def parameter (p : TuningPlugin) (addr : ℕ) : Option AppConfigParameter :=
  p.tuningParameters.find? fun tp => tp.addr = addr

section Loops
variable {σ : Type} (p : TuningPlugin)

/-- The loop over the variant. -/
def eachGiven (given : σ → AppConfigParameter → ℤ → Outcome σ) (values : List (ℕ × ℤ))
    (state : List Bool × σ) : Outcome (List Bool × σ) :=
  values.foldlM (fun state value =>
    match p.parameter value.1 with
    | none => .ok state
    | some tp => do
      let doneTP ← writeAt state.1 tp.id true
      let s ← given state.2 tp value.2
      return (doneTP, s)) state

/-- The loop over the parameters that are not done. -/
def eachMissing (missing : σ → AppConfigParameter → ℕ → Outcome σ) (doneTP : List Bool) (s : σ) :
    Outcome σ :=
  p.tuningParameters.zipIdx.foldlM (fun s tp => do
    let done ← Outcome.elementAt doneTP tp.2
    if done then return s else missing s tp.1 tp.2) s

/-- Both loops of `prepareScenarios`, and of `getAdvice`. -/
def eachParameter (given : σ → AppConfigParameter → ℤ → Outcome σ)
    (missing : σ → AppConfigParameter → ℕ → Outcome σ) (values : Variant) (s : σ) : Outcome σ := do
  let (doneTP, s) ← p.eachGiven given values.entries (p.tuningParameters.map fun _ => false, s)
  p.eachMissing missing doneTP s

end Loops
end TuningPlugin

/-- The values as texts: those of a range are its numbers. -/
def TpRange.Declares : TpRange → String → Prop
  | .intRange first last step, value =>
    ∃ x ∈ gridValues first last (step.getD 1 : ℕ), value = toString x
  | .stringRange first rest, value => value ∈ first :: rest

/-- The values that are given as texts. -/
def TpRange.strings : TpRange → List String
  | .intRange .. => []
  | .stringRange first rest => first :: rest

/-- The texts that the plugin keeps. -/
def Specification.keptStrings (spec : Specification) (values : TpRange) : List String :=
  if spec.search_algorithm = "individual" then
    values.strings.filter fun str => !AppConfigParameter.isBlank str
  else values.strings

/-- A parameter at its place, with the value strings that are kept. Its range counts these. -/
structure AppConfigParameter.Follows (new : ℕ ↪ ℕ) (kept : TpRange → List String) (i : ℕ)
    (declared : ParameterSpecification) (tp : AppConfigParameter) : Prop where
  id : tp.id = i
  addr : tp.addr = new i
  strings : tp.valueStrings = kept declared.values
  range : tp.valueStrings ≠ [] →
    tp.rangeFrom = 1 ∧ tp.rangeTo = tp.valueStrings.length ∧ tp.rangeStep = 1
  unrestricted : tp.restriction = none

/-- The parameters that come from those of the file. -/
structure TuningPlugin.Follows (new : ℕ ↪ ℕ) (kept : TpRange → List String)
    (declared : List ParameterSpecification) (p : TuningPlugin) : Prop where
  tpID : p.tpID = declared.length
  length : p.tuningParameters.length = declared.length
  follows : ∀ i (h : i < declared.length), p.tuningParameters[i].Follows new kept i declared[i]

section Parsed
variable {new : ℕ ↪ ℕ}

theorem AppConfigParameter.foldl_addValueString (strs : List String) (tp : AppConfigParameter) :
    strs.foldl addValueString tp = { tp with valueStrings := tp.valueStrings ++ strs } := by
  induction strs generalizing tp with
  | nil => simp
  | cons str strs ih => simp [ih, addValueString]

theorem AppConfigParameter.follows_setValues (i : ℕ) (filename : String)
    (declared : ParameterSpecification) :
    { setValues ⟨⟨new i, 0, 0, 0, none⟩, 0, declared.name, filename, []⟩ declared.values with
      id := i : AppConfigParameter }.Follows new TpRange.strings i declared := by
  cases hvalues : declared.values with
  | intRange first last step =>
    exact ⟨rfl, rfl, by rw [hvalues]; rfl, fun h => absurd rfl h, rfl⟩
  | stringRange first rest =>
    simp only [setValues, foldl_addValueString, setRange, List.nil_append]
    exact ⟨rfl, rfl, by rw [hvalues]; rfl, fun _ => ⟨rfl, rfl, rfl⟩, rfl⟩

theorem AppConfigParameter.Follows.removeEmptyValues {i : ℕ} {declared : ParameterSpecification}
    {tp : AppConfigParameter} (h : tp.Follows new TpRange.strings i declared) :
    tp.removeEmptyValues.Follows new
      (fun values => values.strings.filter fun str => !isBlank str) i declared := by
  refine ⟨h.id, h.addr, by rw [AppConfigParameter.removeEmptyValues, h.strings], fun hne => ?_,
    h.unrestricted⟩
  have hstrs : tp.valueStrings ≠ [] := fun heq => hne (by
    simp [AppConfigParameter.removeEmptyValues, heq])
  obtain ⟨hfrom, hto, hstep⟩ := h.range hstrs
  refine ⟨hfrom, ?_, hstep⟩
  have hcount := List.length_eq_countP_add_countP AppConfigParameter.isBlank (l := tp.valueStrings)
  simp only [AppConfigParameter.removeEmptyValues, ← List.countP_eq_length_filter, hto]
  have hnot : tp.valueStrings.countP (fun str => !AppConfigParameter.isBlank str) =
      tp.valueStrings.countP (fun str => ¬ AppConfigParameter.isBlank str) := by
    simp
  omega

namespace TuningPlugin

theorem Follows.parameterSpecification {done : List ParameterSpecification} {p : TuningPlugin}
    (h : p.Follows new TpRange.strings done) (filename : String)
    (declared : ParameterSpecification) :
    (p.parameterSpecification new filename declared).Follows new TpRange.strings
      (done ++ [declared]) := by
  refine ⟨?_, ?_, fun i hi => ?_⟩
  · simp [TuningPlugin.parameterSpecification, addTP, h.tpID]
  · simp [TuningPlugin.parameterSpecification, addTP, h.length]
  · simp only [TuningPlugin.parameterSpecification, addTP, List.getElem_append, h.length]
    split_ifs with hlt
    · exact h.follows i hlt
    · have heq : i = done.length := by
        rw [List.length_append, List.length_singleton] at hi
        omega
      subst heq
      simp only [Nat.sub_self, List.getElem_singleton, h.tpID]
      exact AppConfigParameter.follows_setValues _ _ _

theorem Follows.foldl {declared done : List ParameterSpecification} {p : TuningPlugin}
    (h : p.Follows new TpRange.strings done) (filename : String) :
    (declared.foldl (TuningPlugin.parameterSpecification new filename) p).Follows new
      TpRange.strings (done ++ declared) := by
  induction declared generalizing done p with
  | nil => simpa using h
  | cons next declared ih =>
    rw [List.foldl_cons, ← List.singleton_append, ← List.append_assoc]
    exact ih (h.parameterSpecification filename next)

theorem follows_parseConfig (spec : Specification) :
    (parseConfig new spec).Follows new TpRange.strings spec.parameters := by
  have hfiles : ∀ (files : List FileSpec) (done : List ParameterSpecification) (p : TuningPlugin),
      p.Follows new TpRange.strings done → (files.foldl (fileSpec new) p).Follows new
        TpRange.strings (done ++ files.flatMap FileSpec.parameters) := by
    intro files
    induction files with
    | nil => exact fun done p h => by simpa using h
    | cons file files ih =>
      intro done p h
      rw [List.foldl_cons, List.flatMap_cons, ← List.append_assoc]
      have hset : (p.addTemplateAndInputFile file.templateFilename file.filename).Follows new
          TpRange.strings done := ⟨h.tpID, h.length, h.follows⟩
      exact ih _ _ (hset.foldl file.filename)
  exact hfiles spec.files [] _ ⟨rfl, rfl, fun _ h => absurd h (Nat.not_lt_zero _)⟩

theorem follows_initialized (spec : Specification) :
    (initialized new spec).Follows new spec.keptStrings spec.parameters := by
  have h := @follows_parseConfig new spec
  have hkept : spec.keptStrings = if spec.search_algorithm = "individual" then
      fun values => values.strings.filter fun str => !AppConfigParameter.isBlank str
    else TpRange.strings := by
    funext values
    rw [Specification.keptStrings]
    split_ifs <;> rfl
  rw [initialized, hkept]
  split_ifs
  · refine ⟨h.tpID, by simpa using h.length, fun i hi => ?_⟩
    simp only [List.getElem_map]
    exact (h.follows i hi).removeEmptyValues
  · exact h

end TuningPlugin
end Parsed

section Loops
variable {σ : Type} {new : ℕ ↪ ℕ} {kept : TpRange → List String}
  {declared : List ParameterSpecification} {p : TuningPlugin}

namespace TuningPlugin

/-- The values of the variant, with their parameters. -/
def given (p : TuningPlugin) (values : Variant) : List (AppConfigParameter × ℤ) :=
  values.entries.filterMap fun value => (p.parameter value.1).map fun tp => (tp, value.2)

/-- The parameters that the variant leaves out. -/
def leftOut (p : TuningPlugin) (values : Variant) : List AppConfigParameter :=
  p.tuningParameters.filter fun tp => tp.addr ∉ values.keys

theorem Follows.id_eq (h : p.Follows new kept declared) {i : ℕ}
    (hi : i < p.tuningParameters.length) :
    p.tuningParameters[i].id = i ∧ p.tuningParameters[i].addr = new i :=
  ⟨(h.follows i (h.length ▸ hi)).id, (h.follows i (h.length ▸ hi)).addr⟩

theorem mem_of_parameter {addr : ℕ} {tp : AppConfigParameter} (h : p.parameter addr = some tp) :
    tp ∈ p.tuningParameters ∧ tp.addr = addr :=
  ⟨List.mem_of_find?_eq_some h, by simpa using List.find?_some h⟩

theorem Follows.id_lt (h : p.Follows new kept declared) {tp : AppConfigParameter}
    (htp : tp ∈ p.tuningParameters) : tp.id < p.tuningParameters.length ∧
      p.tuningParameters[tp.id]? = some tp ∧ tp.addr = new tp.id := by
  obtain ⟨i, hi, rfl⟩ := List.getElem_of_mem htp
  obtain ⟨hid, haddr⟩ := h.id_eq hi
  rw [hid]
  exact ⟨hi, List.getElem?_eq_getElem hi, haddr⟩

/-- A parameter is found by its address. -/
theorem Follows.parameter_addr (h : p.Follows new kept declared) {tp : AppConfigParameter}
    (htp : tp ∈ p.tuningParameters) : p.parameter tp.addr = some tp := by
  cases hfind : p.parameter tp.addr with
  | none =>
    have hnone := List.find?_eq_none.mp hfind tp htp
    simp at hnone
  | some found =>
    obtain ⟨hmem, haddr⟩ := mem_of_parameter hfind
    obtain ⟨-, hfound, hnew⟩ := h.id_lt hmem
    obtain ⟨-, hself, hnew'⟩ := h.id_lt htp
    have hid : found.id = tp.id := new.injective (by rw [← hnew, ← hnew', haddr])
    rw [hid, hself] at hfound
    exact hfound.symm

/-- `doneTP` when the parameters at these addresses are done. -/
def marks (p : TuningPlugin) (addrs : List ℕ) : List Bool :=
  p.tuningParameters.map fun tp => decide (tp.addr ∈ addrs)

theorem Follows.marks_concat (h : p.Follows new kept declared) (addrs : List ℕ) (addr : ℕ) :
    p.marks (addrs ++ [addr]) = match p.parameter addr with
      | none => p.marks addrs
      | some tp => (p.marks addrs).set tp.id true := by
  cases hfind : p.parameter addr with
  | none =>
    refine List.map_congr_left fun tp htp => decide_eq_decide.mpr ?_
    have hne : tp.addr ≠ addr := by
      rintro rfl
      rw [h.parameter_addr htp] at hfind
      cases hfind
    simp [hne]
  | some found =>
    obtain ⟨hmem, rfl⟩ := mem_of_parameter hfind
    obtain ⟨hlt, hself, hnew⟩ := h.id_lt hmem
    refine List.ext_getElem (by simp [marks]) fun i hi _ => ?_
    have hi' : i < p.tuningParameters.length := by simpa [marks] using hi
    obtain ⟨hid, haddr⟩ := h.id_eq hi'
    have hiff : p.tuningParameters[i].addr = found.addr ↔ found.id = i := by
      rw [haddr, hnew, new.injective.eq_iff, eq_comm]
    by_cases heq : found.id = i
    · simp [marks, hiff, heq]
    · simp [marks, hiff, heq]

/-- The first loop: the parameters of the variant are done. -/
theorem Follows.eachGiven_eq (h : p.Follows new kept declared)
    (set : σ → AppConfigParameter → ℤ → Outcome σ) (values : List (ℕ × ℤ)) (addrs : List ℕ)
    (s : σ) : p.eachGiven set values (p.marks addrs, s) = do
      let s ← (values.filterMap fun value =>
        (p.parameter value.1).map fun tp => (tp, value.2)).foldlM (fun s x => set s x.1 x.2) s
      return (p.marks (addrs ++ values.map Prod.fst), s) := by
  induction values generalizing addrs s with
  | nil => simp [eachGiven]
  | cons value values ih =>
    rw [List.map_cons, List.append_cons, eachGiven, List.foldlM_cons, List.filterMap_cons]
    cases hfind : p.parameter value.1 with
    | none =>
      have hmarks : p.marks (addrs ++ [value.1]) = p.marks addrs := by
        rw [h.marks_concat, hfind]
      have hrest := ih (addrs ++ [value.1]) s
      rw [hmarks] at hrest
      exact hrest
    | some tp =>
      have hlt : tp.id < (p.marks addrs).length := by
        rw [marks, List.length_map]
        exact (h.id_lt (mem_of_parameter hfind).1).1
      have hwrite : writeAt (p.marks addrs) tp.id true =
          .ok (p.marks (addrs ++ [value.1])) := by
        rw [writeAt, if_pos ⟨Int.natCast_nonneg _, by omega⟩, Int.toNat_natCast, h.marks_concat,
          hfind]
      simp only [Option.map_some, List.foldlM_cons, hwrite, Outcome.ok_bind, bind_assoc]
      exact bind_congr fun s' => ih _ _

/-- The second loop: the parameters that are not done. -/
theorem Follows.eachMissing_eq (h : p.Follows new kept declared)
    (set : σ → AppConfigParameter → ℕ → Outcome σ) (addrs : List ℕ) (s : σ) :
    p.eachMissing set (p.marks addrs) s = (p.tuningParameters.filter fun tp =>
      tp.addr ∉ addrs).foldlM (fun s tp => set s tp tp.id) s := by
  have hloop : ∀ (tps : List (AppConfigParameter × ℕ)),
      (∀ tp ∈ tps, p.tuningParameters[tp.2]? = some tp.1) → ∀ s : σ,
        tps.foldlM (fun s tp => do
          let done ← Outcome.elementAt (p.marks addrs) tp.2
          if done then return s else set s tp.1 tp.2) s =
        ((tps.map Prod.fst).filter fun tp => tp.addr ∉ addrs).foldlM
          (fun s tp => set s tp tp.id) s := by
    intro tps
    induction tps with
    | nil => exact fun _ _ => rfl
    | cons tp tps ih =>
      intro htps s
      obtain ⟨htp, hrest⟩ := List.forall_mem_cons.mp htps
      obtain ⟨hlt, hget⟩ := List.getElem?_eq_some_iff.mp htp
      have hread : Outcome.elementAt (p.marks addrs) tp.2 =
          .ok (decide (tp.1.addr ∈ addrs)) := by
        rw [Outcome.elementAt_eq_ok, Int.toNat_natCast, marks, List.getElem?_map, htp]
        exact ⟨Int.natCast_nonneg _, rfl⟩
      rw [List.foldlM_cons, hread, Outcome.ok_bind, List.map_cons, List.filter_cons]
      by_cases hdone : tp.1.addr ∈ addrs
      · simp only [hdone, decide_true, if_true, not_true, decide_false, Bool.false_eq_true,
          if_false, Outcome.pure_eq, Outcome.ok_bind]
        exact ih hrest s
      · have hid : tp.1.id = tp.2 := by
          rw [← hget]
          exact (h.id_eq hlt).1
        simp only [hdone, decide_false, Bool.false_eq_true, if_false, not_false_eq_true,
          decide_true, if_true, List.foldlM_cons, hid]
        exact bind_congr fun s' => ih hrest s'
  have hpairs : ∀ tp ∈ p.tuningParameters.zipIdx, p.tuningParameters[tp.2]? = some tp.1 :=
    fun tp htp => List.mem_zipIdx_iff_getElem?.mp htp
  rw [eachMissing, hloop _ hpairs, List.zipIdx_map_fst]

theorem Follows.eachParameter_eq (h : p.Follows new kept declared)
    (set : σ → AppConfigParameter → ℤ → Outcome σ)
    (missing : σ → AppConfigParameter → ℕ → Outcome σ) (values : Variant) (s : σ) :
    p.eachParameter set missing values s =
      (p.given values).foldlM (fun s x => set s x.1 x.2) s >>= fun s =>
        (p.leftOut values).foldlM (fun s tp => missing s tp tp.id) s := by
  have hnone : (p.tuningParameters.map fun _ => false) = p.marks [] := by simp [marks]
  rw [eachParameter, hnone, h.eachGiven_eq, List.nil_append, bind_assoc]
  refine bind_congr fun s' => ?_
  rw [Outcome.pure_eq, Outcome.ok_bind]
  exact h.eachMissing_eq missing _ s'

end TuningPlugin
end Loops

def frontVariant (scenario : Scenario) : Variant :=
  (scenario.ts.head?.map TuningSpecification.variant).getD .empty

/-- A scenario that picks values from the ranges of the parameters. -/
structure Feasible (p : TuningPlugin) (scenario : Scenario) : Prop where
  specified : scenario.ts ≠ []
  inRange : ∀ value ∈ (frontVariant scenario).entries, ∃ tp ∈ p.tuningParameters,
    tp.addr = value.1 ∧ value.2 ∈ gridValues tp.rangeFrom tp.rangeTo tp.rangeStep

/-- The space that is searched. -/
def TuningPlugin.searchSpace (p : TuningPlugin) (rtsVector : List String) : SearchSpace :=
  ⟨[], rtsVector, p.tuningParameters.map AppConfigParameter.toTuningParameter⟩

section Scenarios
variable {new : ℕ ↪ ℕ} {kept : TpRange → List String} {declared : List ParameterSpecification}
  {p : TuningPlugin} {scenario : Scenario}

theorem frontVariant_eq {front : TuningSpecification} (h : scenario.ts.head? = some front) :
    frontVariant scenario = front.variant := by
  rw [frontVariant, h]
  rfl

theorem Feasible.front (h : Feasible p scenario) :
    ∃ front, scenario.ts.head? = some front ∧ frontVariant scenario = front.variant := by
  obtain ⟨front, rest, hts⟩ := List.exists_cons_of_ne_nil h.specified
  have hhead : scenario.ts.head? = some front := by rw [hts]; rfl
  exact ⟨front, hhead, frontVariant_eq hhead⟩

/-- What a search creates in this space is feasible. -/
theorem TuningPlugin.Follows.feasible (h : p.Follows new kept declared) {rtsVector : List String}
    (hwithin : scenario.Within (p.searchSpace rtsVector).variantSpace) : Feasible p scenario := by
  obtain ⟨front, rest, hts, hvalues⟩ := hwithin
  have hfront : frontVariant scenario = front.variant := frontVariant_eq (by rw [hts]; rfl)
  refine ⟨by rw [hts]; exact List.cons_ne_nil _ _, fun value hvalue => ?_⟩
  rw [hfront] at hvalue
  obtain ⟨tp, htp, haddr, hmem⟩ := hvalues value hvalue
  obtain ⟨param, hparam, rfl⟩ := List.mem_map.mp htp
  obtain ⟨i, hi, rfl⟩ := List.getElem_of_mem hparam
  have hnone := (h.follows i (h.length ▸ hi)).unrestricted
  refine ⟨_, hparam, haddr, ?_⟩
  simpa [TuningParameter.values, TuningParameter.elementWise, hnone] using hmem

/-- In every step of the individual search, whatever number of scenarios it keeps. -/
theorem everyStep_feasible {Srp V : Type} [LT V] [DecidableLT V] (sort : Traversal (ℕ × V))
    (ptfMinObjective : ℕ → Srp → V) (dblMax dblMin unset : V) (k : ℤ) (objs : List (ℕ → Srp → V))
    (spec : Specification) (rtsVector : List String) (pools : ScenarioPools)
    (rs : List (IndividualSearch.Round Srp)) :
    ∃ s, IndividualSearch.keeping dblMax dblMin unset k objs
        ((TuningPlugin.initialized new spec).searchSpace rtsVector) = .ok s ∧
      IndividualSearch.EveryStep sort true ptfMinObjective dblMax dblMin
        (fun _ pools _ => ∀ scenario ∈ pools.createdSince 0,
          Feasible (.initialized new spec) scenario) rs (s, pools) := by
  obtain ⟨s, hs, hsteps⟩ := @IndividualSearch.everyStep_within Srp V _ _ sort true ptfMinObjective
    dblMax dblMin unset k objs ((TuningPlugin.initialized new spec).searchSpace rtsVector) pools rs
  have hp := @TuningPlugin.follows_initialized new spec
  exact ⟨s, hs, hsteps.imp fun _ _ hstep search pools' hcreate scenario hscenario =>
    hp.feasible (hstep search pools' hcreate scenario hscenario)⟩

end Scenarios

end ReadexPtf.ReadexConfiguration
