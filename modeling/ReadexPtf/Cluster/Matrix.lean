import ReadexPtf.Lib.Table
import ReadexPtf.Lib.LeastSoFar
import ReadexPtf.Lib.Outcome
import Mathlib

/-! The distance matrix of the clusterer: one entry for each pair of nodes, in the row of the
node with the lower address. -/
namespace ReadexPtf.Cluster
open ReadexPtf
variable {ν V : Type*}

/-- What a run does not determine: the addresses of the nodes, as the order `operator<`
compares them in, and the iteration order of each unordered container. -/
structure Memory (ν V : Type*) where
  before : ν → ν → Bool
  asymm : ∀ a b, before a b → ¬ before b a
  total : ∀ a b, a ≠ b → before a b ∨ before b a
  nodes : Traversal ν
  rows : Traversal (Sigma fun _ : ν => TableRow ν V)
  columns : Traversal (Sigma fun _ : ν => V)

namespace Memory

def getRowClm (mem : Memory ν V) (c1 c2 : ν) : ν × ν :=
  if mem.before c2 c1 then (c2, c1) else (c1, c2)

theorem getRowClm_comm (mem : Memory ν V) (c1 c2 : ν) :
    mem.getRowClm c1 c2 = mem.getRowClm c2 c1 := by
  rw [getRowClm, getRowClm]
  by_cases heq : c1 = c2
  · rw [heq]
  · cases mem.total c1 c2 heq with
    | inl h => rw [if_neg (mem.asymm c1 c2 h), if_pos h]
    | inr h => rw [if_pos h, if_neg (mem.asymm c2 c1 h)]

theorem getRowClm_of_not_before {mem : Memory ν V} {row clm : ν} (h : ¬ mem.before clm row) :
    mem.getRowClm row clm = (row, clm) := if_neg h

theorem getRowClm_cases (mem : Memory ν V) (c1 c2 : ν) :
    mem.getRowClm c1 c2 = (c1, c2) ∨ mem.getRowClm c1 c2 = (c2, c1) := by
  rw [getRowClm]
  split_ifs
  · exact .inr rfl
  · exact .inl rfl

/-- The column is never the lower one of the two addresses. -/
theorem not_before_getRowClm (mem : Memory ν V) (c1 c2 : ν) :
    ¬ mem.before (mem.getRowClm c1 c2).2 (mem.getRowClm c1 c2).1 := by
  rw [getRowClm]
  split_ifs with h
  · exact mem.asymm c2 c1 h
  · exact h

theorem getRowClm_eq_iff {mem : Memory ν V} {c1 c2 x y : ν} :
    mem.getRowClm x y = mem.getRowClm c1 c2 ↔ x = c1 ∧ y = c2 ∨ x = c2 ∧ y = c1 := by
  constructor
  · intro h
    cases mem.getRowClm_cases x y with
    | inl hxy =>
      cases mem.getRowClm_cases c1 c2 with
      | inl hc =>
        rw [hxy, hc] at h
        exact .inl ⟨congrArg Prod.fst h, congrArg Prod.snd h⟩
      | inr hc =>
        rw [hxy, hc] at h
        exact .inr ⟨congrArg Prod.fst h, congrArg Prod.snd h⟩
    | inr hxy =>
      cases mem.getRowClm_cases c1 c2 with
      | inl hc =>
        rw [hxy, hc] at h
        exact .inr ⟨congrArg Prod.snd h, congrArg Prod.fst h⟩
      | inr hc =>
        rw [hxy, hc] at h
        exact .inl ⟨congrArg Prod.snd h, congrArg Prod.fst h⟩
  · intro h
    cases h with
    | inl h => rw [h.1, h.2]
    | inr h => rw [h.1, h.2, getRowClm_comm]

end Memory

/-- `class matrix`: no entry stands in the row of the higher address. -/
structure Matrix (mem : Memory ν V) [DecidableEq ν] where
  data : Table ν V
  normal : ∀ row clm d, data.cell row clm = some d → ¬ mem.before clm row

namespace Matrix
variable [DecidableEq ν] {mem : Memory ν V}

def empty : Matrix mem := ⟨.empty, fun _ _ _ h => absurd h (by simp)⟩

def set (D : Matrix mem) (c1 c2 : ν) (d : V) : Matrix mem where
  data := D.data.write (mem.getRowClm c1 c2).1 (mem.getRowClm c1 c2).2 d
  normal := by
    intro row clm d' h
    rw [Table.cell_write] at h
    split_ifs at h with hcell
    · rw [hcell.1, hcell.2]
      exact mem.not_before_getRowClm c1 c2
    · exact D.normal row clm d' h

/-- The entry of two nodes, if the matrix `has` it. -/
def entry (D : Matrix mem) (c1 c2 : ν) : Option V :=
  D.data.cell (mem.getRowClm c1 c2).1 (mem.getRowClm c1 c2).2

def has (D : Matrix mem) (c1 c2 : ν) : Bool := (D.entry c1 c2).isSome

/-- `get` asserts that the entry is there. -/
def get (D : Matrix mem) (c1 c2 : ν) : Outcome V :=
  match D.entry c1 c2 with
  | some d => .ok d
  | none => .aborts

def remove (D : Matrix mem) (c : ν) : Matrix mem where
  data := (D.data.eraseRow c).eraseColumn c
  normal := by
    intro row clm d h
    rw [Table.cell_eraseColumn, Table.cell_eraseRow] at h
    split_ifs at h
    exact D.normal row clm d h

theorem entry_comm (D : Matrix mem) (c1 c2 : ν) : D.entry c1 c2 = D.entry c2 c1 := by
  rw [entry, mem.getRowClm_comm, entry]

theorem entry_of_cell {D : Matrix mem} {row clm : ν} {d : V} (h : D.data.cell row clm = some d) :
    D.entry row clm = some d := by
  rw [entry, Memory.getRowClm_of_not_before (D.normal row clm d h)]
  exact h

@[simp] theorem entry_empty (c1 c2 : ν) : (empty : Matrix mem).entry c1 c2 = none := rfl

theorem get_eq_ok {D : Matrix mem} {c1 c2 : ν} {d : V} :
    D.get c1 c2 = .ok d ↔ D.entry c1 c2 = some d := by
  rw [get]
  cases D.entry c1 c2 <;> simp

theorem entry_set (D : Matrix mem) (c1 c2 x y : ν) (d : V) :
    (D.set c1 c2 d).entry x y =
      if x = c1 ∧ y = c2 ∨ x = c2 ∧ y = c1 then some d else D.entry x y := by
  rw [entry, set, Table.cell_write]
  have hpair : ((mem.getRowClm x y).1 = (mem.getRowClm c1 c2).1 ∧
      (mem.getRowClm x y).2 = (mem.getRowClm c1 c2).2) ↔ x = c1 ∧ y = c2 ∨ x = c2 ∧ y = c1 := by
    rw [← Prod.ext_iff, Memory.getRowClm_eq_iff]
  simp only [hpair]
  rfl

theorem entry_remove (D : Matrix mem) (c x y : ν) :
    (D.remove c).entry x y = if x = c ∨ y = c then none else D.entry x y := by
  rw [entry, remove, Table.cell_eraseColumn, Table.cell_eraseRow, entry]
  cases mem.getRowClm_cases x y with
  | inl h =>
    rw [h]
    by_cases hx : x = c <;> by_cases hy : y = c <;> simp [hx, hy]
  | inr h =>
    rw [h]
    by_cases hx : x = c <;> by_cases hy : y = c <;> simp [hx, hy]

/-- The scan meets the entry of two nodes in one of the two orders. -/
theorem exists_mem_scan {D : Matrix mem} {x y : ν} {d : V} (hne : x ≠ y)
    (h : D.entry x y = some d) :
    ∃ p ∈ D.data.scan mem.rows mem.columns, p.1 ≠ p.2.1 ∧ p.2.2 = d := by
  refine ⟨((mem.getRowClm x y).1, (mem.getRowClm x y).2, d), Table.mem_scan.mpr h, ?_, rfl⟩
  cases mem.getRowClm_cases x y with
  | inl hxy => simpa [hxy] using hne
  | inr hxy => simpa [hxy] using hne.symm

variable [LinearOrder V]

/-- One entry of the scan: the pair is kept if its distance is less than the least so far. -/
def keepMinimum (least : Option (V × ν × ν)) (p : ν × ν × V) : Option (V × ν × ν) :=
  if p.1 = p.2.1 then least
  else if least.elim true fun min => p.2.2 < min.1 then some (p.2.2, p.1, p.2.1)
  else least

/-- The first pair of two nodes with the least distance. The scan starts from the largest
`double`, which is above every distance: without an entry the pair is null. -/
def minimum (D : Matrix mem) : Option (V × ν × ν) :=
  (D.data.scan mem.rows mem.columns).foldl keepMinimum none

/-- `(d, c1, c2)` is an entry of two nodes, and no entry is less. -/
def IsMinimum (D : Matrix mem) (m : V × ν × ν) : Prop :=
  m.2.1 ≠ m.2.2 ∧ D.entry m.2.1 m.2.2 = some m.1 ∧
    ∀ x y d, x ≠ y → D.entry x y = some d → m.1 ≤ d

/-- What the scan keeps of a list of entries. -/
theorem foldl_keepMinimum (ps : List (ν × ν × V)) : ∀ least : Option (V × ν × ν),
    (∀ p ∈ ps, p.1 ≠ p.2.1 → ∃ m, ps.foldl keepMinimum least = some m ∧ m.1 ≤ p.2.2) ∧
      (∀ m, least = some m → ∃ m', ps.foldl keepMinimum least = some m' ∧ m'.1 ≤ m.1) ∧
      ∀ m, ps.foldl keepMinimum least = some m →
        least = some m ∨ (m.2.1, m.2.2, m.1) ∈ ps ∧ m.2.1 ≠ m.2.2 := by
  induction ps with
  | nil =>
    intro least
    exact ⟨by simp, fun m hm => ⟨m, hm, le_rfl⟩, fun m hm => .inl hm⟩
  | cons p ps ih =>
    intro least
    rw [List.foldl_cons]
    obtain ⟨hbelow, hkept, horigin⟩ := ih (keepMinimum least p)
    refine ⟨fun q hq hne => ?_, fun m hm => ?_, fun m hm => ?_⟩
    · cases List.mem_cons.mp hq with
      | inr hrest => exact hbelow q hrest hne
      | inl hself =>
        subst hself
        have hstep : ∃ m, keepMinimum least q = some m ∧ m.1 ≤ q.2.2 := by
          rw [keepMinimum, if_neg hne]
          split_ifs with hless
          · exact ⟨_, rfl, le_rfl⟩
          · cases least with
            | none => exact absurd rfl hless
            | some m => exact ⟨m, rfl, not_lt.mp (by simpa using hless)⟩
        obtain ⟨m, hm, hle⟩ := hstep
        obtain ⟨m', hm', hle'⟩ := hkept m hm
        exact ⟨m', hm', hle'.trans hle⟩
    · have hstep : ∃ m', keepMinimum least p = some m' ∧ m'.1 ≤ m.1 := by
        rw [keepMinimum, hm]
        split_ifs with heq hless
        · exact ⟨m, rfl, le_rfl⟩
        · exact ⟨_, rfl, (of_decide_eq_true hless).le⟩
        · exact ⟨m, rfl, le_rfl⟩
      obtain ⟨m', hm', hle⟩ := hstep
      obtain ⟨m'', hm'', hle'⟩ := hkept m' hm'
      exact ⟨m'', hm'', hle'.trans hle⟩
    · cases horigin m hm with
      | inr hrest => exact .inr ⟨List.mem_cons_of_mem p hrest.1, hrest.2⟩
      | inl hstep =>
        rw [keepMinimum] at hstep
        split_ifs at hstep with heq hless
        · exact .inl hstep
        · rw [Option.some.injEq] at hstep
          rw [← hstep]
          exact .inr ⟨List.mem_cons_self, heq⟩
        · exact .inl hstep

theorem isMinimum_of_minimum {D : Matrix mem} {m : V × ν × ν} (h : D.minimum = some m) :
    D.IsMinimum m := by
  obtain ⟨hbelow, -, horigin⟩ := foldl_keepMinimum (D.data.scan mem.rows mem.columns) none
  have hscan := (horigin m h).resolve_left (by simp)
  refine ⟨hscan.2, entry_of_cell (Table.mem_scan.mp hscan.1), fun x y d hne hentry => ?_⟩
  obtain ⟨p, hmem, hne', hp⟩ := exists_mem_scan hne hentry
  obtain ⟨m', hm', hle⟩ := hbelow p hmem hne'
  rw [minimum, hm', Option.some.injEq] at h
  exact h ▸ hp ▸ hle

/-- A matrix with an entry of two nodes has a least one. -/
theorem exists_minimum {D : Matrix mem} {x y : ν} {d : V} (hne : x ≠ y)
    (h : D.entry x y = some d) : ∃ m, D.minimum = some m := by
  obtain ⟨p, hmem, hne', -⟩ := exists_mem_scan hne h
  obtain ⟨m, hm, -⟩ :=
    (foldl_keepMinimum (D.data.scan mem.rows mem.columns) none).1 p hmem hne'
  exact ⟨m, hm⟩

end Matrix
end ReadexPtf.Cluster
