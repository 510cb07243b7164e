import ReadexPtf.Lib.IntLoop
import ReadexPtf.Lib.Unordered
import Mathlib

/-! The entities of a tuning model: identifiers, regions, call paths, tuning parameters,
configurations and runtime situations, with their `operator==` and debug strings. -/
namespace ReadexPtf.TuningModel
open ReadexPtf

structure Identifier (T : Type) where
  value : T
  name : String
  deriving DecidableEq

def Identifier.debug_string {T : Type} [ToString T] (id : Identifier T) : String :=
  "<" ++ id.name ++ ", " ++ toString id.value ++ ">"

structure Identifiers where
  ints : UnorderedSet (Identifier Int64)
  uints : UnorderedSet (Identifier UInt64)
  strings : UnorderedSet (Identifier String)
  deriving DecidableEq

namespace Identifiers

def empty : Identifiers := ⟨.empty, .empty, .empty⟩

def equal (ids other : Identifiers) : Bool :=
  ids.ints.equal other.ints && ids.uints.equal other.uints && ids.strings.equal other.strings

def debug_string (ids : Identifiers) : String :=
  let s := ids.ints.elems.foldl (fun s id => s ++ (id.debug_string ++ ",")) "("
  let s := ids.uints.elems.foldl (fun s id => s ++ (id.debug_string ++ ", ")) s
  let s := ids.strings.elems.foldl (fun s id => s ++ (id.debug_string ++ ", ")) s
  s ++ ")"

end Identifiers

structure RegionId where
  line : UInt64
  file : String
  name : String
  deriving DecidableEq

def RegionId.debug_string (rid : RegionId) : String :=
  rid.file ++ ":" ++ toString rid.line ++ ":" ++ rid.name

structure CallpathElement where
  region_id : RegionId
  identifiers : Identifiers

namespace CallpathElement

def equal (cpe other : CallpathElement) : Bool :=
  cpe.region_id = other.region_id && cpe.identifiers.equal other.identifiers

def debug_string (cpe : CallpathElement) : String :=
  cpe.region_id.debug_string ++ ":" ++ cpe.identifiers.debug_string

end CallpathElement

abbrev Callpath := List CallpathElement

namespace Callpath

/-- `operator==` of the vectors. -/
def equal : Callpath → Callpath → Bool
  | [], [] => true
  | e :: es, e' :: es' => e.equal e' && equal es es'
  | _, _ => false

def debug_string (cp : Callpath) : String :=
  cp.foldl (fun s e => s ++ (e.debug_string ++ "/")) ""

end Callpath

/-- A tuning parameter as its constructor leaves it. -/
@[ext] structure TuningParameter where
  name : String
  start : Int
  step : Int
  end_ : Int
  ordered : start ≤ end_
  step_pos : 0 < step
  aligned : step ∣ end_ - start
  start_fits : FitsInt start
  step_fits : FitsInt step
  end_fits : FitsInt end_
  range_fits : FitsInt (end_ - start)

instance : Inhabited TuningParameter :=
  ⟨⟨"", 0, 1, 0, by decide, by decide, by decide, by decide, by decide, by decide, by decide⟩⟩

theorem fits_zero : FitsInt 0 := by decide
theorem fits_one : FitsInt 1 := by decide
theorem fits_five : FitsInt 5 := by decide
theorem fits_ten : FitsInt 10 := by decide
theorem fits_twenty : FitsInt 20 := by decide
theorem zero_le_ten : (0 : Int) ≤ 10 := by decide
theorem one_pos : (0 : Int) < 1 := by decide
theorem one_dvd_ten : (1 : Int) ∣ 10 - 0 := by decide
theorem range_fits_ten : FitsInt (10 - 0) := by decide

/-- A parameter from 0 to 10. -/
def tenSteps (name : String) : TuningParameter :=
  ⟨name, 0, 1, 10, zero_le_ten, one_pos, one_dvd_ten, fits_zero, fits_one, fits_ten,
    range_fits_ten⟩

/-- A value whose distance from the start of its parameter the constructor could compute. -/
structure TuningValue where
  parameter : TuningParameter
  value : Int
  value_fits : FitsInt value
  distance_fits : FitsInt (value - parameter.start)

/-- The tuning values by the names of their parameters, in the iteration order of the map. -/
structure Configuration where
  tvs : List TuningValue
  nodup : (tvs.map fun tv => tv.parameter.name).Nodup

namespace Configuration

theorem distinct_nil : (([] : List TuningValue).map fun tv => tv.parameter.name).Nodup := .nil

def nvalues (c : Configuration) : Nat := c.tvs.length

def tuning_value (c : Configuration) (id : String) : Option TuningValue :=
  c.tvs.find? fun tv => tv.parameter.name = id

/-- `operator==` compares the values by name, not the parameters. -/
def equal (c other : Configuration) : Bool :=
  c.nvalues = other.nvalues && other.tvs.all fun tv =>
    match c.tuning_value tv.parameter.name with
    | none => false
    | some it => it.value = tv.value

/-- What the iteration over a configuration yields. -/
def iterated (c : Configuration) : List (String × Int) :=
  c.tvs.map fun tv => (tv.parameter.name, tv.value)

theorem names_nodup (c : Configuration) : (c.iterated.map Prod.fst).Nodup := by
  have hnames : c.iterated.map Prod.fst = c.tvs.map fun tv => tv.parameter.name := by
    rw [iterated, List.map_map]
    rfl
  exact hnames ▸ c.nodup

theorem tuning_value_eq_some {c : Configuration} {id : String} {tv : TuningValue} :
    c.tuning_value id = some tv ↔ tv ∈ c.tvs ∧ tv.parameter.name = id :=
  find?_key_eq_some c.nodup

/-- The iteration order does not matter for lookups. -/
theorem tuning_value_congr {c c' : Configuration} (h : c.tvs.Perm c'.tvs) (id : String) :
    c.tuning_value id = c'.tuning_value id := by
  ext tv
  rw [tuning_value_eq_some, tuning_value_eq_some, h.mem_iff]

theorem mem_iterated {c : Configuration} {id : String} {v : Int} :
    (id, v) ∈ c.iterated ↔ ∃ tv, c.tuning_value id = some tv ∧ tv.value = v := by
  simp only [iterated, List.mem_map, Prod.mk.injEq, tuning_value_eq_some]
  constructor
  · exact fun ⟨tv, htv, hid, hv⟩ => ⟨tv, ⟨htv, hid⟩, hv⟩
  · exact fun ⟨tv, ⟨htv, hid⟩, hv⟩ => ⟨tv, htv, hid, hv⟩

/-- Equal configurations iterate over the same values. -/
theorem equal_iff_perm {c other : Configuration} :
    c.equal other = true ↔ c.iterated.Perm other.iterated := by
  have hfound : (other.tvs.all fun tv =>
      match c.tuning_value tv.parameter.name with
      | none => false
      | some it => it.value = tv.value) = true ↔ other.iterated ⊆ c.iterated := by
    rw [List.all_eq_true, List.subset_def, iterated, List.forall_mem_map]
    refine forall₂_congr fun tv _ => ?_
    rw [mem_iterated]
    cases c.tuning_value tv.parameter.name <;> simp
  have hlen : ∀ c : Configuration, c.iterated.length = c.nvalues := fun c => List.length_map _
  rw [equal, Bool.and_eq_true, hfound, decide_eq_true_eq, ← hlen, ← hlen]
  constructor
  · intro ⟨hsize, hsub⟩
    have hnodup : other.iterated.Nodup := List.Nodup.of_map _ other.names_nodup
    exact ((List.subperm_of_subset hnodup hsub).perm_of_length_le hsize.le).symm
  · exact fun h => ⟨h.length_eq, h.symm.subset⟩

end Configuration

structure Rtsid where
  callpath : Callpath
  iid : Identifiers
  region : RegionId

def Rtsid.equal (id other : Rtsid) : Bool :=
  id.iid.equal other.iid && id.region = other.region && id.callpath.equal other.callpath

end ReadexPtf.TuningModel
