import ReadexPtf.Lib.Dbl
import ReadexPtf.Lib.Decimal
import ReadexPtf.Lib.OrdMap
import ReadexPtf.TuningModel.Entities
import Mathlib

/-! The archive of a tuning model, record by record, and what is saved to and loaded from
each record. Objects are identified by their addresses. -/
namespace ReadexPtf.TuningModel
open ReadexPtf

/-- The iteration orders of the unordered containers. -/
abbrev Iteration := ∀ α : Type, Traversal α

/-- `uint64_t` made of a pointer. -/
abbrev Address := Nat
/-- `int`. -/
abbrev CInt := { z : Int // FitsInt z }

structure IdentifierRecord where
  type : String
  name : String
  value : String
  deriving DecidableEq

structure IidRecord where
  id : Address
  identifiers : List IdentifierRecord

structure RegionRecord where
  id : Address
  region : RegionId

structure ElementRecord where
  region : RegionId
  identifiers : List IdentifierRecord

structure RtsRecord where
  region : Address
  scenario : Address
  exectime : Dbl Rat
  iid : Address
  callpath : List ElementRecord

structure ValueRecord where
  id : String
  start : CInt
  step : CInt
  end_ : CInt
  value : CInt

structure ScenarioRecord where
  id : Address
  configuration : List ValueRecord

/-- What the JSON document holds, less the clusters, which are written but never read. -/
structure Archive where
  iids : List IidRecord
  regions : List RegionRecord
  rtss : List RtsRecord
  scenarios : List ScenarioRecord

section Identifiers
variable (π : Iteration)

def saveIdentifier {T : Type} [ToString T] (type : String) (id : Identifier T) : IdentifierRecord :=
  ⟨type, id.name, toString id.value⟩

def saveIdentifiers (ids : Identifiers) : List IdentifierRecord :=
  ids.ints.elems.map (saveIdentifier "int") ++ ids.uints.elems.map (saveIdentifier "uint") ++
    ids.strings.elems.map (saveIdentifier "string")

def Identifiers.add_int (ids : Identifiers) (id : Identifier Int64) : Identifiers :=
  { ids with ints := ids.ints.insert (π _) id }

def Identifiers.add_uint (ids : Identifiers) (id : Identifier UInt64) : Identifiers :=
  { ids with uints := ids.uints.insert (π _) id }

def Identifiers.add_string (ids : Identifiers) (id : Identifier String) : Identifiers :=
  { ids with strings := ids.strings.insert (π _) id }

def loadIdentifier (ids : Identifiers) (record : IdentifierRecord) : Outcome Identifiers :=
  if record.type = "int" then do
    let value ← stoll record.value
    .ok (ids.add_int π ⟨value, record.name⟩)
  else if record.type = "uint" then do
    let value ← stoull record.value
    .ok (ids.add_uint π ⟨value, record.name⟩)
  else if record.type = "string" then
    .ok (ids.add_string π ⟨record.value, record.name⟩)
  else .throws "Unsupported identifier type."

def loadIdentifiers (records : List IdentifierRecord) : Outcome Identifiers :=
  records.foldlM (loadIdentifier π) .empty

def saveElement (cpe : CallpathElement) : ElementRecord :=
  ⟨cpe.region_id, saveIdentifiers cpe.identifiers⟩

def loadElement (record : ElementRecord) : Outcome CallpathElement := do
  let ids ← loadIdentifiers π record.identifiers
  .ok ⟨record.region, ids⟩

def loadCallpath (records : List ElementRecord) : Outcome Callpath := records.mapM (loadElement π)

variable {π}

theorem loadIdentifier_int (ids : Identifiers) (id : Identifier Int64) :
    loadIdentifier π ids (saveIdentifier "int" id) = .ok (ids.add_int π id) := by
  rw [loadIdentifier, saveIdentifier, if_pos rfl, stoll_toString]
  rfl

theorem loadIdentifier_uint (ids : Identifiers) (id : Identifier UInt64) :
    loadIdentifier π ids (saveIdentifier "uint" id) = .ok (ids.add_uint π id) := by
  have hint : ¬ "uint" = "int" := by decide
  rw [loadIdentifier, saveIdentifier, if_neg hint, if_pos rfl, stoull_toString]
  rfl

theorem loadIdentifier_string (ids : Identifiers) (id : Identifier String) :
    loadIdentifier π ids (saveIdentifier "string" id) = .ok (ids.add_string π id) := by
  have hint : ¬ "string" = "int" := by decide
  have huint : ¬ "string" = "uint" := by decide
  rw [loadIdentifier, saveIdentifier, if_neg hint, if_neg huint, if_pos rfl]
  rfl

theorem foldl_add_int (l : List (Identifier Int64)) : ∀ ids : Identifiers,
    l.foldl (fun ids id => ids.add_int π id) ids =
      { ids with ints := ids.ints.insertAll (π _) l } := by
  induction l with
  | nil => exact fun _ => rfl
  | cons id l ih => exact fun ids => ih (ids.add_int π id)

theorem foldl_add_uint (l : List (Identifier UInt64)) : ∀ ids : Identifiers,
    l.foldl (fun ids id => ids.add_uint π id) ids =
      { ids with uints := ids.uints.insertAll (π _) l } := by
  induction l with
  | nil => exact fun _ => rfl
  | cons id l ih => exact fun ids => ih (ids.add_uint π id)

theorem foldl_add_string (l : List (Identifier String)) : ∀ ids : Identifiers,
    l.foldl (fun ids id => ids.add_string π id) ids =
      { ids with strings := ids.strings.insertAll (π _) l } := by
  induction l with
  | nil => exact fun _ => rfl
  | cons id l ih => exact fun ids => ih (ids.add_string π id)

/-- Identifiers come back equal, whatever their order. -/
theorem loadIdentifiers_save (ids : Identifiers) :
    ∃ ids', loadIdentifiers π (saveIdentifiers ids) = .ok ids' ∧ ids'.equal ids = true := by
  refine ⟨⟨UnorderedSet.empty.insertAll (π _) ids.ints.elems,
    UnorderedSet.empty.insertAll (π _) ids.uints.elems,
    UnorderedSet.empty.insertAll (π _) ids.strings.elems⟩, ?_, ?_⟩
  · rw [loadIdentifiers, saveIdentifiers, List.foldlM_append, List.foldlM_append,
      List.foldlM_map, Outcome.foldlM_eq_foldl (fun ids id _ => loadIdentifier_int ids id),
      Outcome.ok_bind, List.foldlM_map,
      Outcome.foldlM_eq_foldl (fun ids id _ => loadIdentifier_uint ids id), Outcome.ok_bind,
      List.foldlM_map, Outcome.foldlM_eq_foldl (fun ids id _ => loadIdentifier_string ids id),
      foldl_add_int, foldl_add_uint, foldl_add_string]
    rfl
  · simp [Identifiers.equal, UnorderedSet.equal_insertAll]

/-- A call path comes back equal. -/
theorem loadCallpath_save (cp : Callpath) :
    ∃ cp', loadCallpath π (cp.map saveElement) = .ok cp' ∧ Callpath.equal cp' cp = true := by
  induction cp with
  | nil => exact ⟨[], rfl, rfl⟩
  | cons cpe cp ih =>
    obtain ⟨ids, hids, hequal⟩ := loadIdentifiers_save (π := π) cpe.identifiers
    obtain ⟨cp', hcp, hrest⟩ := ih
    refine ⟨⟨cpe.region_id, ids⟩ :: cp', ?_, ?_⟩
    · rw [loadCallpath] at hcp ⊢
      rw [List.map_cons, List.mapM_cons, loadElement, saveElement, hids, Outcome.ok_bind,
        Outcome.ok_bind, hcp]
      rfl
    · simp [Callpath.equal, CallpathElement.equal, hequal, hrest]

end Identifiers

end ReadexPtf.TuningModel
