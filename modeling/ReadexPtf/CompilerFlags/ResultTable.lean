import ReadexPtf.Lib.Segments
import ReadexPtf.Lib.Strings
import ReadexPtf.Lib.Decimal
import Mathlib

/-! The table of the results that the compiler flags plugin writes: a header and a row for
each scenario, with semicolons between the columns. -/
namespace ReadexPtf.CompilerFlags
open ReadexPtf

abbrev Text := List Char

structure CFSTuningParameter where
  id : ℕ
  name : Text
  flagString : Text
  valueStrings : List Text

/-- An index below zero is beyond the size, which is unsigned. -/
def CFSTuningParameter.getValueString (tp : CFSTuningParameter) (i : ℤ) : Option Text :=
  let i := i - 1
  if 0 ≤ i then tp.valueStrings[i.toNat]? else none

def CFSTuningParameter.getFlagWithValue (tp : CFSTuningParameter) (i : ℤ) : Text :=
  tp.flagString ++ (tp.getValueString i).getD (toString i).toList

/-- `addTP`, on the parameters and `tpID`. -/
def addTP (state : List CFSTuningParameter × ℕ) (tp : CFSTuningParameter) :
    List CFSTuningParameter × ℕ :=
  (state.1 ++ [{ tp with id := state.2 }], state.2 + 1)

/-- The plugin after `initialize`. -/
structure CompilerFlagsPlugin where
  tuningParameters : List CFSTuningParameter
  required_flags : Text
  results_file : Text
  ids : tuningParameters.map CFSTuningParameter.id = List.range tuningParameters.length
  nonempty : tuningParameters ≠ []

theorem addTP_ids (parsed : List CFSTuningParameter) :
    let state := parsed.foldl addTP ([], 0)
    state.1.map CFSTuningParameter.id = List.range state.1.length ∧ state.2 = state.1.length := by
  induction parsed using List.reverseRecOn with
  | nil => exact ⟨rfl, rfl⟩
  | append_singleton parsed tp ih =>
    obtain ⟨hids, hcount⟩ := ih
    rw [List.foldl_append]
    simp only [List.foldl_cons, List.foldl_nil, addTP, List.map_append, List.map_cons,
      List.map_nil, List.length_append, List.length_singleton, List.range_succ, hids, hcount,
      and_self]

/-- The parameters that the configuration file has; without any there is no plugin. -/
def parseConfig (parsed : List CFSTuningParameter) (required_flags results_file : Text) :
    Option CompilerFlagsPlugin :=
  let tuningParameters := (parsed.foldl addTP ([], 0)).1
  if h : tuningParameters = [] then none
  else some ⟨tuningParameters, required_flags, results_file, (addTP_ids parsed).1, h⟩

/-- The order in which a map with all the parameters as its keys runs through them. -/
structure Addresses (p : CompilerFlagsPlugin) where
  order : List CFSTuningParameter
  perm : order.Perm p.tuningParameters

/-- The values of some of the parameters, by their ids. -/
abbrev Variant := ℕ → Option ℤ

structure Scenario where
  variant : Variant
  results : List (Text × ℚ)

/-- How a stream writes a number. -/
structure NumberFormat where
  text : ℚ → Text
  plain : ∀ x, ';' ∉ text x

/-- `while( target > pos )`: separators up to a column. -/
def fill (flag : Text) (pos target : ℕ) : Text × ℕ :=
  if target > pos then fill (flag ++ [';']) (pos + 1) target else (flag, pos)
termination_by target - pos

/-- The body of the loop of `getAFLAGS`, on `flag` and `pos`. -/
def addFlag (withSemicolons : Bool) (state : Text × ℕ) (entry : CFSTuningParameter × ℤ) :
    Text × ℕ :=
  let (flag, pos) := if withSemicolons then fill state.1 state.2 entry.1.id else state
  (flag ++ entry.1.getFlagWithValue entry.2 ++ [' '], pos)

section Writing
variable (p : CompilerFlagsPlugin)

/-- `getValue`: the map of the variant, in the order of its keys. -/
def Addresses.getValue {p : CompilerFlagsPlugin} (addresses : Addresses p) (variant : Variant) :
    List (CFSTuningParameter × ℤ) :=
  addresses.order.filterMap fun tp => (variant tp.id).map fun i => (tp, i)

def getAFLAGS (values : List (CFSTuningParameter × ℤ))
    (withQuotes withEscape withSemicolons : Bool) : Text :=
  let quote :=
    if withQuotes && withEscape then "\\\"".toList else if withQuotes then "\"".toList else []
  let (flag, pos) := values.foldl (addFlag withSemicolons) (quote, 0)
  let flag :=
    if withSemicolons then
      (fill flag pos (p.tuningParameters.length - 1)).1 ++
        if p.required_flags ≠ [] then [';'] else []
    else flag
  flag ++ p.required_flags ++ quote

variable (addresses : Addresses p) (format : NumberFormat)

/-- The first line, by the results of scenario 0. -/
def header (results : List (Text × ℚ)) : Text :=
  "Scenario ID; Flags;".toList ++ (p.tuningParameters.flatMap fun tp => tp.name ++ [';']) ++
    results.flatMap fun r => r.1 ++ [';']

def row (scenario_id : ℕ) (scenario : Scenario) : Text :=
  let values := addresses.getValue scenario.variant
  (toString scenario_id).toList ++ "; ".toList ++ getAFLAGS p values false false false ++ [';'] ++
    getAFLAGS p values false false true ++ [';'] ++
      scenario.results.flatMap fun r => format.text r.2 ++ [';']

/-- What is written to the file, if there is one, for scenario 0 and those after it. -/
def writeCFSresults (scenario : Scenario) (scenarios : List Scenario) (str : Text) : Option Text :=
  if p.results_file ≠ [] then
    some (header p scenario.results ++ ['\n'] ++
      ((scenario :: scenarios).zipIdx.flatMap fun s => row p addresses format s.2 s.1 ++ ['\n']) ++
        "\n\n".toList ++ str)
  else none

def columns (line : Text) : List Text := line.splitOn ';'

/-- A row has the columns of the header, and its values stand below the names of their
parameters. -/
structure RowAligned (results : List (Text × ℚ)) (scenario_id : ℕ) (scenario : Scenario) :
    Prop where
  length : (columns (row p addresses format scenario_id scenario)).length =
    (columns (header p results)).length
  values : ∀ tp ∈ p.tuningParameters, ∀ i, scenario.variant tp.id = some i →
    (columns (header p results))[2 + tp.id]? = some tp.name ∧
      (columns (row p addresses format scenario_id scenario))[2 + tp.id]? =
        some (tp.getFlagWithValue i ++ [' '])

/-- Every variant whose scenario has the second list of results is aligned. -/
def Aligns (results results' : List (Text × ℚ)) : Prop :=
  ∀ scenario_id variant, RowAligned p addresses format results scenario_id ⟨variant, results'⟩

/-- Nothing of the parameters or the required flags looks like a separator. -/
structure Plain : Prop where
  name : ∀ tp ∈ p.tuningParameters, ';' ∉ tp.name
  flagString : ∀ tp ∈ p.tuningParameters, ';' ∉ tp.flagString
  valueStrings : ∀ tp ∈ p.tuningParameters, ∀ str ∈ tp.valueStrings, ';' ∉ str
  required_flags : ';' ∉ p.required_flags

end Writing

section Columns

theorem columns_append (a b : Text) : columns (a ++ ';' :: b) = columns a ++ columns b :=
  List.splitOn_append_cons_self a b

theorem columns_plain {a : Text} (h : ';' ∉ a) : columns a = [a] := List.splitOn_eq_singleton h

theorem columns_cons {a : Text} (h : ';' ∉ a) (b : Text) :
    columns (a ++ ';' :: b) = a :: columns b := by
  rw [columns_append, columns_plain h, List.singleton_append]

theorem columns_two {start a b : Text} (hstart : start = a ++ ';' :: (b ++ [';']))
    (ha : ';' ∉ a) (hb : ';' ∉ b) (rest : Text) :
    columns (start ++ rest) = a :: b :: columns rest := by
  rw [hstart, List.append_assoc, List.cons_append, columns_cons ha, List.append_assoc,
    List.singleton_append, columns_cons hb]

theorem columns_cells {α : Type} {text : α → Text} {cells : List α}
    (h : ∀ a ∈ cells, ';' ∉ text a) (rest : Text) :
    columns ((cells.flatMap fun a => text a ++ [';']) ++ rest) =
      cells.map text ++ columns rest := by
  induction cells with
  | nil => rfl
  | cons a cells ih =>
    rw [List.forall_mem_cons] at h
    rw [List.flatMap_cons, List.append_assoc, List.append_assoc, List.singleton_append,
      columns_cons h.1, ih h.2, List.map_cons, List.cons_append]

theorem length_columns (a : Text) : (columns a).length = a.count ';' + 1 := by
  induction a with
  | nil => rfl
  | cons c cs ih =>
    rw [columns, splitOn_cons]
    split_ifs with hc
    · rw [List.length_cons, ← columns, ih, hc, List.count_cons_self]
    · rw [List.length_modifyHead, ← columns, ih, List.count_cons_of_ne hc]

theorem notMem_of_column {line cell : Text} {j : ℕ} (h : (columns line)[j]? = some cell) :
    ';' ∉ cell :=
  notMem_of_mem_splitOn (List.mem_of_getElem? h)

theorem fill_eq (flag : Text) (pos target : ℕ) :
    fill flag pos target = (flag ++ List.replicate (target - pos) ';', max pos target) := by
  induction h : target - pos generalizing flag pos with
  | zero =>
    rw [fill, if_neg (by omega), List.replicate_zero, List.append_nil]
    congr
    omega
  | succ n ih =>
    rw [fill, if_pos (by omega), ih _ _ (by omega), List.replicate_succ, List.append_assoc,
      List.singleton_append]
    congr 1
    omega

theorem nat_plain (n : ℕ) : ';' ∉ (toString n).toList := by
  intro hmem
  have hdigits : ';' ∈ Nat.toDigits 10 n := by simpa [Nat.toString_eq_repr] using hmem
  have hdigit := isDigit_of_mem_toDigits ';' hdigits
  exact absurd hdigit (by decide)

theorem int_plain (i : ℤ) : ';' ∉ (toString i).toList := by
  rw [Int.toString_eq_repr, Int.repr_eq_if]
  split_ifs
  · exact nat_plain i.toNat
  · have hnat := nat_plain (-i).toNat
    rw [String.toList_append, List.mem_append]
    rintro (hsign | hnumber)
    · exact absurd hsign (by decide)
    · exact hnat hnumber

end Columns

section Lines
variable {p : CompilerFlagsPlugin} {addresses : Addresses p} {format : NumberFormat}

theorem getElem?_id {tp : CFSTuningParameter} (h : tp ∈ p.tuningParameters) :
    p.tuningParameters[tp.id]? = some tp := by
  obtain ⟨i, hi⟩ := List.mem_iff_getElem?.mp h
  have hid : (p.tuningParameters.map CFSTuningParameter.id)[i]? = some tp.id := by
    rw [List.getElem?_map, hi, Option.map_some]
  rw [p.ids] at hid
  obtain ⟨hlt, hself⟩ := List.getElem?_eq_some_iff.mp hid
  rw [List.getElem_range] at hself
  rwa [← hself]

theorem header_start : "Scenario ID; Flags;".toList =
    "Scenario ID".toList ++ ';' :: (" Flags".toList ++ [';']) := rfl

theorem header_plain : ';' ∉ "Scenario ID".toList ∧ ';' ∉ " Flags".toList := by decide

theorem columns_header (results : List (Text × ℚ)) : columns (header p results) =
    "Scenario ID".toList :: " Flags".toList :: columns
      ((p.tuningParameters.flatMap fun tp => tp.name ++ [';']) ++
        results.flatMap fun r => r.1 ++ [';']) := by
  unfold header
  rw [List.append_assoc]
  exact columns_two header_start header_plain.1 header_plain.2 _

theorem columns_row (scenario_id : ℕ) (variant : Variant) (results' : List (Text × ℚ)) :
    columns (row p addresses format scenario_id ⟨variant, results'⟩) =
      (toString scenario_id).toList ::
        (columns (' ' :: getAFLAGS p (addresses.getValue variant) false false false) ++
          columns (getAFLAGS p (addresses.getValue variant) false false true ++
            ';' :: results'.flatMap fun r => format.text r.2 ++ [';'])) := by
  have hstart : "; ".toList = [';', ' '] := rfl
  rw [← columns_append, ← columns_cons (nat_plain scenario_id), row, hstart]
  simp only [List.append_assoc, List.cons_append, List.nil_append]

theorem foldl_addFlag (values : List (CFSTuningParameter × ℤ)) (flag : Text) (pos : ℕ) :
    values.foldl (addFlag false) (flag, pos) =
      (flag ++ values.flatMap fun e => e.1.getFlagWithValue e.2 ++ [' '], pos) := by
  induction values generalizing flag with
  | nil => simp
  | cons e values ih =>
    rw [List.foldl_cons, addFlag]
    simp only [Bool.false_eq_true, if_false]
    rw [ih, List.flatMap_cons, List.append_assoc, List.append_assoc, List.append_assoc]

theorem foldl_addFlag_prefix (values : List (CFSTuningParameter × ℤ)) (state : Text × ℕ) :
    state.1 <+: (values.foldl (addFlag true) state).1 := by
  induction values generalizing state with
  | nil => exact List.prefix_rfl
  | cons e values ih =>
    refine List.IsPrefix.trans ?_ (ih (addFlag true state e))
    simp only [addFlag, if_true, fill_eq, List.append_assoc]
    exact List.prefix_append _ _

theorem getAFLAGS_plain (values : List (CFSTuningParameter × ℤ)) :
    getAFLAGS p values false false false =
      (values.flatMap fun e => e.1.getFlagWithValue e.2 ++ [' ']) ++ p.required_flags := by
  simp only [getAFLAGS, foldl_addFlag, Bool.false_and, Bool.false_eq_true, if_false,
    List.nil_append, List.append_nil]

theorem getAFLAGS_separated (values : List (CFSTuningParameter × ℤ)) :
    getAFLAGS p values false false true =
      let state := values.foldl (addFlag true) ([], 0)
      state.1 ++ List.replicate (p.tuningParameters.length - 1 - state.2) ';' ++
        ((if p.required_flags ≠ [] then [';'] else []) ++ p.required_flags) := by
  simp only [getAFLAGS, fill_eq, Bool.false_and, Bool.false_eq_true, if_false, if_true,
    List.append_nil, List.append_assoc]

/-- What is to stand below the name of a parameter. -/
def cell (variant : Variant) (tp : CFSTuningParameter) : Text :=
  ((variant tp.id).map fun i => tp.getFlagWithValue i ++ [' ']).getD []

/-- The loop over parameters that come in the order of their ids. -/
theorem foldl_addFlag_sorted (variant : Variant) (tps : List CFSTuningParameter)
    (hids : tps.map CFSTuningParameter.id = List.range tps.length) :
    let state := (tps.filterMap fun tp => (variant tp.id).map fun i => (tp, i)).foldl
      (addFlag true) ([], 0)
    state.1 ++ List.replicate (tps.length - state.2) ';' =
      (tps.flatMap fun tp => cell variant tp ++ [';']) ∧ state.2 ≤ tps.length - 1 := by
  induction tps using List.reverseRecOn with
  | nil => exact ⟨rfl, le_rfl⟩
  | append_singleton tps tp ih =>
    rw [List.map_append, List.length_append, List.length_singleton, List.range_succ] at hids
    obtain ⟨hinit, hlast⟩ := List.append_inj' hids rfl
    have hid : tp.id = tps.length := List.singleton_inj.mp hlast
    obtain ⟨htext, hpos⟩ := ih hinit
    rw [List.filterMap_append, List.foldl_append, List.flatMap_append, List.length_append,
      List.length_singleton, ← htext]
    generalize (tps.filterMap fun tp => (variant tp.id).map fun i => (tp, i)).foldl
      (addFlag true) ([], 0) = state at hpos ⊢
    have hmore : tps.length + 1 - state.2 = tps.length - state.2 + 1 := by omega
    cases hvalue : variant tp.id with
    | none =>
      have hcell : cell variant tp = [] := by rw [cell, hvalue]; rfl
      rw [List.filterMap_cons_none (by rw [hvalue]; rfl), List.filterMap_nil, List.foldl_nil]
      dsimp only
      rw [hmore, List.replicate_succ', ← List.append_assoc, List.flatMap_singleton, hcell,
        List.nil_append]
      exact ⟨rfl, by omega⟩
    | some i =>
      have hcell : cell variant tp = tp.getFlagWithValue i ++ [' '] := by rw [cell, hvalue]; rfl
      have hmax : max state.2 tps.length = tps.length := max_eq_right (by omega)
      have hone : tps.length + 1 - tps.length = 1 := by omega
      rw [List.filterMap_cons_some (by rw [hvalue]; rfl), List.filterMap_nil, List.foldl_cons,
        List.foldl_nil, List.flatMap_singleton, hcell]
      simp only [addFlag, if_true, fill_eq, hid, hmax, hone, List.replicate_one,
        List.append_assoc, true_and]
      omega

theorem getFlagWithValue_plain (h : Plain p) {tp : CFSTuningParameter}
    (htp : tp ∈ p.tuningParameters) (i : ℤ) : ';' ∉ tp.getFlagWithValue i := by
  rw [CFSTuningParameter.getFlagWithValue, List.mem_append]
  rintro (hflag | hvalue)
  · exact h.flagString tp htp hflag
  · cases hstr : tp.getValueString i with
    | none =>
      rw [hstr, Option.getD_none] at hvalue
      exact int_plain i hvalue
    | some str =>
      rw [hstr, Option.getD_some] at hvalue
      rw [CFSTuningParameter.getValueString] at hstr
      split_ifs at hstr
      exact h.valueStrings tp htp str (List.mem_of_getElem? hstr) hvalue

theorem cell_plain (h : Plain p) (variant : Variant) {tp : CFSTuningParameter}
    (htp : tp ∈ p.tuningParameters) : ';' ∉ cell variant tp := by
  rw [cell]
  cases variant tp.id with
  | none => exact List.not_mem_nil
  | some i =>
    rw [Option.map_some, Option.getD_some, List.mem_append, List.mem_singleton]
    rintro (hflag | hblank)
    · exact getFlagWithValue_plain h htp i hflag
    · exact absurd hblank (by decide)

theorem values_plain (h : ∀ tp ∈ p.tuningParameters, ∀ i, ';' ∉ tp.getFlagWithValue i)
    (variant : Variant) : ';' ∉ (addresses.getValue variant).flatMap fun e =>
      e.1.getFlagWithValue e.2 ++ [' '] := by
  rw [List.mem_flatMap]
  rintro ⟨e, he, hmem⟩
  obtain ⟨tp, htp, hvalue⟩ := List.mem_filterMap.mp he
  obtain ⟨i, -, rfl⟩ := Option.map_eq_some_iff.mp hvalue
  rw [List.mem_append, List.mem_singleton] at hmem
  cases hmem with
  | inl hflag => exact h tp (addresses.perm.mem_iff.mp htp) i hflag
  | inr hblank => exact absurd hblank (by decide)

theorem flags_plain (h : Plain p) (variant : Variant) :
    ';' ∉ ' ' :: getAFLAGS p (addresses.getValue variant) false false false := by
  have hvalues := @values_plain p addresses (fun _ htp => getFlagWithValue_plain h htp) variant
  rw [getAFLAGS_plain, List.mem_cons, List.mem_append]
  rintro (hblank | hmem | hrequired)
  · exact absurd hblank (by decide)
  · exact hvalues hmem
  · exact h.required_flags hrequired

/-- The columns of a row where the map is in the order of the ids. -/
theorem columns_row_sorted (h : Plain p) (horder : addresses.order = p.tuningParameters)
    (scenario_id : ℕ) (variant : Variant) (results' : List (Text × ℚ)) :
    columns (row p addresses format scenario_id ⟨variant, results'⟩) =
      (toString scenario_id).toList ::
        (' ' :: getAFLAGS p (addresses.getValue variant) false false false) ::
          (p.tuningParameters.map (cell variant) ++
            columns ((if p.required_flags = [] then [] else p.required_flags ++ [';']) ++
              results'.flatMap fun r => format.text r.2 ++ [';'])) := by
  obtain ⟨htext, hpos⟩ := foldl_addFlag_sorted variant p.tuningParameters p.ids
  have hpositive : 0 < p.tuningParameters.length := List.length_pos_iff.mpr p.nonempty
  have hvalue : addresses.getValue variant =
      p.tuningParameters.filterMap fun tp => (variant tp.id).map fun i => (tp, i) := by
    rw [Addresses.getValue, horder]
  rw [columns_row, columns_plain (flags_plain h variant), getAFLAGS_separated, hvalue]
  generalize (p.tuningParameters.filterMap fun tp => (variant tp.id).map fun i => (tp, i)).foldl
    (addFlag true) ([], 0) = state at htext hpos ⊢
  have hlast : p.tuningParameters.length - state.2 =
      p.tuningParameters.length - 1 - state.2 + 1 := by
    omega
  rw [hlast, List.replicate_succ', ← List.append_assoc] at htext
  rw [← columns_cells fun tp htp => cell_plain h variant htp, ← htext, List.singleton_append]
  congr 3
  by_cases hrequired : p.required_flags = []
  · simp [hrequired]
  · simp [hrequired]

theorem length_header (h : ∀ tp ∈ p.tuningParameters, ';' ∉ tp.name)
    (results : List (Text × ℚ)) : (columns (header p results)).length =
      p.tuningParameters.length + (results.map fun r => 1 + r.1.count ';').sum + 3 := by
  have hcount : (results.flatMap fun r => r.1 ++ [';']).count ';' =
      (results.map fun r => 1 + r.1.count ';').sum := by
    rw [List.count_flatMap]
    congr 2
    funext r
    rw [Function.comp_apply, List.count_append, List.count_singleton_self, Nat.add_comm]
  rw [columns_header, columns_cells h, List.length_cons,
    List.length_cons, List.length_append, List.length_map, length_columns, hcount]
  omega

theorem length_row_sorted (h : Plain p) (horder : addresses.order = p.tuningParameters)
    (scenario_id : ℕ) (variant : Variant) (results' : List (Text × ℚ)) :
    (columns (row p addresses format scenario_id ⟨variant, results'⟩)).length =
      p.tuningParameters.length +
        ((if p.required_flags = [] then 0 else 1) + results'.length) + 3 := by
  have hcount : (results'.flatMap fun r => format.text r.2 ++ [';']).count ';' =
      results'.length := by
    induction results' with
    | nil => rfl
    | cons r results' ih =>
      rw [List.flatMap_cons, List.count_append, ih, List.count_append, List.count_singleton_self,
        List.count_eq_zero.mpr (format.plain r.2), List.length_cons]
      omega
  have hrequired : (if p.required_flags = [] then [] else p.required_flags ++ [';']).count ';' =
      if p.required_flags = [] then 0 else 1 := by
    split_ifs
    · rfl
    · rw [List.count_append, List.count_singleton_self, List.count_eq_zero.mpr h.required_flags]
  rw [columns_row_sorted h horder, List.length_cons, List.length_cons, List.length_append,
    List.length_map, length_columns, List.count_append, hcount, hrequired]
  omega

end Lines

section Alignment
variable {p : CompilerFlagsPlugin} {addresses : Addresses p} {format : NumberFormat}
  {results results' : List (Text × ℚ)}

/-- The variant with one parameter only. -/
def single (id : ℕ) (i : ℤ) : Variant := fun id' => if id' = id then some i else none

theorem Aligns.single (h : Aligns p addresses format results results') {tp : CFSTuningParameter}
    (htp : tp ∈ p.tuningParameters) (i : ℤ) :
    (columns (header p results))[2 + tp.id]? = some tp.name ∧
      (columns (row p addresses format 0 ⟨single tp.id i, results'⟩))[2 + tp.id]? =
        some (tp.getFlagWithValue i ++ [' ']) :=
  (h 0 (CompilerFlags.single tp.id i)).values tp htp i (if_pos rfl)

theorem Aligns.getFlagWithValue_plain (h : Aligns p addresses format results results')
    {tp : CFSTuningParameter} (htp : tp ∈ p.tuningParameters) (i : ℤ) :
    ';' ∉ tp.getFlagWithValue i := fun hmem =>
  notMem_of_column (h.single htp i).2 (List.mem_append_left _ hmem)

/-- A semicolon in the required flags would move a part of them below the first name, the
same for all values of the first parameter. -/
theorem Aligns.required_plain (h : Aligns p addresses format results results') :
    ';' ∉ p.required_flags := by
  intro hmem
  obtain ⟨front, back, hrequired, hfront⟩ := List.eq_append_cons_of_mem hmem
  obtain ⟨first, more, hback⟩ := List.exists_cons_of_ne_nil (List.splitOn_ne_nil ';' back)
  obtain ⟨tp, tps, hparams⟩ := List.exists_cons_of_ne_nil p.nonempty
  have htp : tp ∈ p.tuningParameters := hparams ▸ List.mem_cons_self
  have hid : tp.id = 0 := by
    have hids := p.ids
    rw [hparams, List.map_cons, List.length_cons, List.range_succ_eq_map] at hids
    exact (List.cons.inj hids).1
  have hcell : ∀ i, first = tp.getFlagWithValue i ++ [' '] := by
    intro i
    have hvalue := (h.single htp i).2
    have hvalues := @values_plain p addresses (fun _ htp => h.getFlagWithValue_plain htp)
      (CompilerFlags.single tp.id i)
    have hplain : ';' ∉ ' ' :: ((addresses.getValue (CompilerFlags.single tp.id i)).flatMap
        (fun e => e.1.getFlagWithValue e.2 ++ [' ']) ++ front) := by
      rw [List.mem_cons, List.mem_append]
      rintro (hblank | hflags | hstart)
      · exact absurd hblank (by decide)
      · exact hvalues hflags
      · exact hfront hstart
    have hflags : ' ' :: getAFLAGS p (addresses.getValue (CompilerFlags.single tp.id i))
        false false false = (' ' :: ((addresses.getValue (CompilerFlags.single tp.id i)).flatMap
          (fun e => e.1.getFlagWithValue e.2 ++ [' ']) ++ front)) ++ ';' :: back := by
      rw [getAFLAGS_plain, hrequired, List.cons_append, List.append_assoc]
    rw [columns_row, hflags, columns_cons hplain, columns, hback, hid] at hvalue
    simpa using hvalue
  have hnumber : ∀ i : ℤ, i < 0 → tp.getFlagWithValue i = tp.flagString ++ (toString i).toList := by
    intro i hi
    rw [CFSTuningParameter.getFlagWithValue, CFSTuningParameter.getValueString,
      if_neg (by omega), Option.getD_none]
  have hsame := (hcell (-1)).symm.trans (hcell (-2))
  rw [hnumber (-1) (by decide), hnumber (-2) (by decide)] at hsame
  have hnumbers := List.append_cancel_left (List.append_cancel_right hsame)
  exact absurd hnumbers (by decide)

theorem Aligns.plain (h : Aligns p addresses format results results') : Plain p where
  name tp htp := notMem_of_column (h.single htp 0).1
  flagString tp htp hmem := h.getFlagWithValue_plain htp 0 (List.mem_append_left _ hmem)
  valueStrings tp htp str hstr hmem := by
    obtain ⟨k, hk⟩ := List.mem_iff_getElem?.mp hstr
    have hvalue : tp.getValueString (k + 1) = some str := by
      rw [CFSTuningParameter.getValueString, add_sub_cancel_right, if_pos (Int.natCast_nonneg k),
        Int.toNat_natCast, hk]
    refine h.getFlagWithValue_plain htp (k + 1) ?_
    rw [CFSTuningParameter.getFlagWithValue, hvalue]
    exact List.mem_append_right _ hmem
  required_flags := h.required_plain

theorem columns_replicate (k : ℕ) (rest : Text) :
    columns (List.replicate k ';' ++ rest) = List.replicate k [] ++ columns rest := by
  induction k with
  | zero => rfl
  | succ k ih =>
    rw [List.replicate_succ, List.cons_append, ← List.nil_append (';' :: _),
      columns_cons List.not_mem_nil, ih, List.replicate_succ, List.cons_append]

/-- The value of a parameter after one with a greater id would stand in the column of that
one. -/
theorem Aligns.order_eq (h : Aligns p addresses format results results') :
    addresses.order = p.tuningParameters := by
  have hsorted : p.tuningParameters.Pairwise fun tp tp' => tp.id < tp'.id := by
    rw [← List.pairwise_map, p.ids]
    exact List.pairwise_lt_range
  refine addresses.perm.eq_of_pairwise (fun tp tp' _ _ hlt hgt => ?_) ?_ hsorted
  · omega
  have hdistinct : addresses.order.Pairwise fun tp tp' => tp.id ≠ tp'.id := by
    refine (addresses.perm.pairwise_iff fun hne heq => hne heq.symm).mpr ?_
    exact hsorted.imp fun hlt => hlt.ne
  rw [List.pairwise_iff_forall_sublist]
  intro a b hsub
  by_contra hnot
  have hne := List.pairwise_iff_forall_sublist.mp hdistinct hsub
  obtain ⟨front, rest, hsplit, ha, hb⟩ := List.cons_sublist_iff.mp hsub
  rw [List.singleton_sublist] at hb
  obtain ⟨before, between, rfl⟩ := List.append_of_mem ha
  rw [List.append_assoc, List.cons_append] at hsplit
  have hbmem : b ∈ p.tuningParameters := by
    rw [← addresses.perm.mem_iff, hsplit]
    simp [hb]
  let variant : Variant := fun id => if id = a.id ∨ id = b.id then some 0 else none
  have hnone : (before.filterMap fun tp => (variant tp.id).map fun i => (tp, i)) = [] := by
    rw [hsplit, List.pairwise_append] at hdistinct
    rw [List.filterMap_eq_nil_iff]
    intro tp htp
    have hothers := hdistinct.2.2 tp htp
    have hnota := hothers a List.mem_cons_self
    have hnotb := hothers b (by simp [hb])
    rw [Option.map_eq_none_iff]
    exact if_neg (by simp [hnota, hnotb])
  obtain ⟨values, hvalues⟩ : ∃ values, addresses.getValue variant = (a, 0) :: values := by
    rw [Addresses.getValue, hsplit, List.filterMap_append, hnone, List.nil_append,
      List.filterMap_cons_some (by rw [show variant a.id = some 0 from if_pos (.inl rfl)]; rfl)]
    exact ⟨_, rfl⟩
  obtain ⟨more, hmore⟩ : ∃ more, getAFLAGS p (addresses.getValue variant) false false true =
      List.replicate a.id ';' ++ more := by
    obtain ⟨others, hothers⟩ := foldl_addFlag_prefix values (addFlag true ([], 0) (a, 0))
    rw [getAFLAGS_separated, hvalues, List.foldl_cons]
    dsimp only
    rw [← hothers]
    simp only [addFlag, if_true, fill_eq, Nat.sub_zero, List.nil_append, List.append_assoc]
    exact ⟨_, rfl⟩
  have hvalue := ((h 0 variant).values b hbmem 0 (if_pos (.inr rfl))).2
  have hlt : b.id < a.id := by omega
  rw [columns_row, columns_plain (flags_plain h.plain variant), hmore, List.append_assoc,
    columns_replicate, List.singleton_append, Nat.add_comm, List.getElem?_cons_succ,
    List.getElem?_cons_succ, List.getElem?_append_left (by simpa using hlt),
    List.getElem?_replicate_of_lt hlt] at hvalue
  exact absurd (Option.some.inj hvalue).symm (by simp)

/-- The table is right exactly where the parameters lie in memory in the order of their ids,
no text holds a semicolon, and the row has a result for each column that is left. -/
theorem aligns_iff : Aligns p addresses format results results' ↔
    addresses.order = p.tuningParameters ∧ Plain p ∧
      (results.map fun r => 1 + r.1.count ';').sum =
        (if p.required_flags = [] then 0 else 1) + results'.length := by
  constructor
  · intro h
    refine ⟨h.order_eq, h.plain, ?_⟩
    have hlength := (h 0 fun _ => none).length
    rw [length_row_sorted h.plain h.order_eq, length_header h.plain.name] at hlength
    omega
  · rintro ⟨horder, hplain, hcount⟩ scenario_id variant
    refine ⟨?_, fun tp htp i hvalue => ⟨?_, ?_⟩⟩
    · rw [length_row_sorted hplain horder, length_header hplain.name]
      omega
    · have hname : (p.tuningParameters.map CFSTuningParameter.name)[tp.id]? = some tp.name := by
        rw [List.getElem?_map, getElem?_id htp, Option.map_some]
      rw [columns_header, columns_cells hplain.name, Nat.add_comm,
        List.getElem?_cons_succ, List.getElem?_cons_succ]
      exact (List.getElem?_append_left (List.getElem?_eq_some_iff.mp hname).1).trans hname
    · change variant tp.id = some i at hvalue
      have hcell : (p.tuningParameters.map (cell variant))[tp.id]? =
          some (tp.getFlagWithValue i ++ [' ']) := by
        rw [List.getElem?_map, getElem?_id htp, Option.map_some, cell, hvalue]
        rfl
      rw [columns_row_sorted hplain horder, Nat.add_comm, List.getElem?_cons_succ,
        List.getElem?_cons_succ]
      exact (List.getElem?_append_left (List.getElem?_eq_some_iff.mp hcell).1).trans hcell

/-- The later of two parameters at the lower address. -/
theorem not_aligns : ¬ ∀ (p : CompilerFlagsPlugin) (addresses : Addresses p)
    (format : NumberFormat) (results : List (Text × ℚ)),
    Aligns p addresses format results results := by
  intro h
  let opt : CFSTuningParameter := ⟨0, "TP_ICC_OPT".toList, "-".toList, ["O2".toList, "O3".toList]⟩
  let unroll : CFSTuningParameter := ⟨1, "TP_ICC_UNROLL".toList, [], ["-unroll".toList]⟩
  have horder := (h ⟨[opt, unroll], [], "results".toList, rfl, by simp⟩
    ⟨[unroll, opt], List.Perm.swap opt unroll []⟩ ⟨fun _ => [], by simp⟩ []).order_eq
  have hids := congrArg (List.map CFSTuningParameter.id) horder
  exact absurd hids (by decide)

end Alignment

end ReadexPtf.CompilerFlags
