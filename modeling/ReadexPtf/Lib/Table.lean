import ReadexPtf.Lib.Traversal
import Mathlib

/-! Sparse tables: a map of rows, each a map of its columns, without an order of their keys. -/
namespace ReadexPtf
variable {κ V : Type*}

abbrev TableRow (κ V : Type*) := AList fun _ : κ => V

structure Table (κ V : Type*) where
  rows : AList fun _ : κ => TableRow κ V

namespace Table
variable [DecidableEq κ]

def empty : Table κ V := ⟨∅⟩

def cell (t : Table κ V) (row clm : κ) : Option V :=
  (t.rows.lookup row).bind fun columns => columns.lookup clm

/-- `t[ row ][ clm ] = v`: a row that is not there is made. -/
def write (t : Table κ V) (row clm : κ) (v : V) : Table κ V :=
  ⟨t.rows.insert row (((t.rows.lookup row).getD ∅).insert clm v)⟩

def eraseRow (t : Table κ V) (row : κ) : Table κ V := ⟨t.rows.erase row⟩

def eraseColumn (t : Table κ V) (clm : κ) : Table κ V where
  rows := {
    entries := t.rows.entries.map fun p => ⟨p.1, p.2.erase clm⟩
    nodupKeys := by
      rw [List.NodupKeys, List.keys, List.map_map]
      exact t.rows.nodupKeys }

@[simp] theorem cell_empty (row clm : κ) : (empty : Table κ V).cell row clm = none := rfl

theorem cell_write (t : Table κ V) (row clm row' clm' : κ) (v : V) :
    (t.write row clm v).cell row' clm' =
      if row' = row ∧ clm' = clm then some v else t.cell row' clm' := by
  rw [cell, write]
  by_cases hrow : row' = row
  · subst hrow
    rw [AList.lookup_insert, Option.bind_some]
    by_cases hclm : clm' = clm
    · rw [if_pos ⟨rfl, hclm⟩, hclm, AList.lookup_insert]
    · rw [if_neg fun h => hclm h.2, AList.lookup_insert_ne hclm, cell]
      cases t.rows.lookup row' with
      | none => exact AList.lookup_empty clm'
      | some columns => rfl
  · rw [if_neg fun h => hrow h.1, AList.lookup_insert_ne hrow]
    rfl

theorem cell_eraseRow (t : Table κ V) (row row' clm : κ) :
    (t.eraseRow row).cell row' clm = if row' = row then none else t.cell row' clm := by
  rw [cell, eraseRow]
  by_cases hrow : row' = row
  · rw [if_pos hrow, hrow, AList.lookup_erase, Option.bind_none]
  · rw [if_neg hrow, AList.lookup_erase_ne hrow]
    rfl

theorem lookup_eraseColumn (t : Table κ V) (clm row : κ) :
    (t.eraseColumn clm).rows.lookup row =
      (t.rows.lookup row).map fun columns => columns.erase clm := by
  refine Option.ext fun columns => ?_
  rw [← Option.mem_def, AList.mem_lookup_iff, eraseColumn, Option.map_eq_some_iff]
  simp only [List.mem_map, Sigma.mk.injEq]
  constructor
  · rintro ⟨p, hp, hrow, hcolumns⟩
    subst hrow
    exact ⟨p.2, AList.mem_lookup_iff.mpr hp, eq_of_heq hcolumns⟩
  · rintro ⟨columns', hlookup, hcolumns⟩
    exact ⟨⟨row, columns'⟩, AList.mem_lookup_iff.mp hlookup, rfl, heq_of_eq hcolumns⟩

theorem cell_eraseColumn (t : Table κ V) (clm row clm' : κ) :
    (t.eraseColumn clm).cell row clm' = if clm' = clm then none else t.cell row clm' := by
  rw [cell, lookup_eraseColumn, cell]
  cases t.rows.lookup row with
  | none => simp
  | some columns =>
    rw [Option.map_some, Option.bind_some, Option.bind_some]
    split_ifs with hclm
    · rw [hclm, AList.lookup_erase]
    · exact AList.lookup_erase_ne hclm

/-- The entries in the order in which two nested loops meet them. -/
def scan (rows : Traversal (Sigma fun _ : κ => TableRow κ V))
    (columns : Traversal (Sigma fun _ : κ => V)) (t : Table κ V) : List (κ × κ × V) :=
  (rows.order t.rows.entries).flatMap fun p1 =>
    (columns.order p1.2.entries).map fun p2 => (p1.1, p2.1, p2.2)

/-- The loops meet every entry, and nothing else. -/
theorem mem_scan {rows : Traversal (Sigma fun _ : κ => TableRow κ V)}
    {columns : Traversal (Sigma fun _ : κ => V)} {t : Table κ V} {row clm : κ} {v : V} :
    (row, clm, v) ∈ t.scan rows columns ↔ t.cell row clm = some v := by
  simp only [scan, List.mem_flatMap, List.mem_map, Traversal.mem_order, Prod.mk.injEq, cell,
    Option.bind_eq_some_iff]
  constructor
  · rintro ⟨p1, hp1, p2, hp2, hrow, hclm, hv⟩
    subst hrow hclm hv
    exact ⟨p1.2, AList.mem_lookup_iff.mpr hp1, AList.mem_lookup_iff.mpr hp2⟩
  · rintro ⟨columns', hrow, hclm⟩
    exact ⟨⟨row, columns'⟩, AList.mem_lookup_iff.mp hrow, ⟨clm, v⟩,
      AList.mem_lookup_iff.mp hclm, rfl, rfl, rfl⟩

end Table
end ReadexPtf
