import ReadexPtf.Lib.Outcome
import Mathlib

/-! Nodes with pointers to their parent and their children. An address is the position in
the order of allocation, so what a node points to may be shared or point back. -/
namespace ReadexPtf

structure Cell (α : Type*) where
  data : α
  parent : Option ℕ
  children : List ℕ
  deriving DecidableEq

abbrev Cells (α : Type*) := List (Cell α)

namespace Cells
variable {α β : Type*}

def childrenOf (h : Cells α) (a : ℕ) : List ℕ := ((h[a]?).map Cell.children).getD []

/-- `node->data = f( node->data )`. -/
def write (h : Cells α) (a : ℕ) (f : α → α) : Cells α :=
  h.modify a fun cell => { cell with data := f cell.data }

/-- `parent->children.push_back( child )`. -/
def pushChild (h : Cells α) (parent child : ℕ) : Cells α :=
  h.modify parent fun cell => { cell with children := cell.children ++ [child] }

/-- A new node below `parent`. -/
def attach (h : Cells α) (parent : ℕ) (data : α) : Cells α :=
  h.pushChild parent h.length ++ [⟨data, some parent, []⟩]

@[simp] theorem length_write (h : Cells α) (a : ℕ) (f : α → α) :
    (h.write a f).length = h.length := List.length_modify _ _ _

@[simp] theorem length_pushChild (h : Cells α) (parent child : ℕ) :
    (h.pushChild parent child).length = h.length := List.length_modify _ _ _

@[simp] theorem length_attach (h : Cells α) (parent : ℕ) (data : α) :
    (h.attach parent data).length = h.length + 1 := by
  simp [attach]

theorem getElem?_write (h : Cells α) (a b : ℕ) (f : α → α) :
    (h.write a f)[b]? = (h[b]?).map fun cell =>
      if a = b then { cell with data := f cell.data } else cell := by
  rw [write, List.getElem?_modify]
  split_ifs with heq
  · rfl
  · simp

theorem getElem?_pushChild (h : Cells α) (parent child b : ℕ) :
    (h.pushChild parent child)[b]? = (h[b]?).map fun cell =>
      if parent = b then { cell with children := cell.children ++ [child] } else cell := by
  rw [pushChild, List.getElem?_modify]
  split_ifs with heq
  · rfl
  · simp

theorem getElem?_attach_old (h : Cells α) (parent b : ℕ) (data : α) (hb : b < h.length) :
    (h.attach parent data)[b]? = (h[b]?).map fun cell =>
      if parent = b then { cell with children := cell.children ++ [h.length] } else cell := by
  rw [attach, List.getElem?_append_left (by simpa using hb), getElem?_pushChild]

@[simp] theorem getElem?_attach_new (h : Cells α) (parent : ℕ) (data : α) :
    (h.attach parent data)[h.length]? = some ⟨data, some parent, []⟩ := by
  rw [attach, List.getElem?_append_right (by simp)]
  simp

theorem childrenOf_write (h : Cells α) (a b : ℕ) (f : α → α) :
    (h.write a f).childrenOf b = h.childrenOf b := by
  rw [childrenOf, childrenOf, getElem?_write, Option.map_map]
  congr 2
  funext cell
  simp only [Function.comp]
  split_ifs <;> rfl

theorem childrenOf_pushChild (h : Cells α) {parent : ℕ} (child b : ℕ)
    (hparent : parent < h.length) :
    (h.pushChild parent child).childrenOf b =
      if parent = b then h.childrenOf b ++ [child] else h.childrenOf b := by
  rw [childrenOf, childrenOf, getElem?_pushChild]
  by_cases heq : parent = b
  · subst heq
    rw [List.getElem?_eq_getElem hparent]
    simp
  · simp [heq]

theorem childrenOf_attach (h : Cells α) {parent : ℕ} (data : α) (b : ℕ)
    (hparent : parent < h.length) :
    (h.attach parent data).childrenOf b =
      if parent = b then h.childrenOf b ++ [h.length] else h.childrenOf b := by
  by_cases hb : b < h.length
  · rw [← childrenOf_pushChild h _ _ hparent, childrenOf, childrenOf, getElem?_attach_old _ _ _ _ hb,
      getElem?_pushChild]
  · have hne : parent ≠ b := by omega
    have hold : h.childrenOf b = [] := by
      rw [childrenOf, List.getElem?_eq_none (by omega)]
      rfl
    rw [if_neg hne, hold, childrenOf]
    by_cases heq : b = h.length
    · subst heq
      rw [getElem?_attach_new]
      rfl
    · rw [List.getElem?_eq_none (by simp; omega)]
      rfl

/-- A tree below the node at address 0: parents are older than their children, and the two
directions agree. -/
structure Rooted (h : Cells α) : Prop where
  root : ∃ cell, h[0]? = some cell ∧ cell.parent = none
  up : ∀ c cell, h[c]? = some cell → c ≠ 0 → ∃ p, cell.parent = some p ∧ p < c ∧ c ∈ h.childrenOf p
  down : ∀ p c, c ∈ h.childrenOf p → ∃ cell, h[c]? = some cell ∧ cell.parent = some p

theorem Rooted.nonempty {h : Cells α} (hr : h.Rooted) : 0 < h.length := by
  obtain ⟨cell, hcell, -⟩ := hr.root
  exact (List.getElem?_eq_some_iff.mp hcell).1

/-- A child is younger than its parent. -/
theorem Rooted.child_lt {h : Cells α} (hr : h.Rooted) {p c : ℕ} (hc : c ∈ h.childrenOf p) :
    p < c ∧ c < h.length := by
  obtain ⟨cell, hcell, hparent⟩ := hr.down p c hc
  have hlt := (List.getElem?_eq_some_iff.mp hcell).1
  obtain ⟨root, hroot, hnone⟩ := hr.root
  have hne : c ≠ 0 := by
    intro heq
    subst heq
    rw [Option.some.inj (hcell.symm.trans hroot), hnone] at hparent
    exact absurd hparent (by simp)
  obtain ⟨p', hp', hlt', -⟩ := hr.up c cell hcell hne
  rw [hparent, Option.some.injEq] at hp'
  exact ⟨hp' ▸ hlt', hlt⟩

section Paths
variable (name : α → β)

/-- The names from the root down to a node. -/
inductive PathTo (h : Cells α) : ℕ → List β → Prop
  | root (cell : Cell α) (hcell : h[0]? = some cell) : PathTo h 0 [name cell.data]
  | child (p c : ℕ) (path : List β) (cell : Cell α) (hparent : PathTo h p path)
      (hchild : c ∈ h.childrenOf p) (hcell : h[c]? = some cell) :
      PathTo h c (path ++ [name cell.data])

/-- Siblings have different names. -/
def Distinct (h : Cells α) : Prop :=
  ∀ p c c' cell cell', c ∈ h.childrenOf p → c' ∈ h.childrenOf p → h[c]? = some cell →
    h[c']? = some cell' → name cell.data = name cell'.data → c = c'

variable {name}

theorem PathTo.ne_nil {h : Cells α} {a : ℕ} {path : List β} (hpath : PathTo name h a path) :
    path ≠ [] := by
  cases hpath with
  | root cell hcell => exact List.cons_ne_nil _ _
  | child p c path cell hparent hchild hcell => simp

theorem PathTo.lt_length {h : Cells α} {a : ℕ} {path : List β} (hpath : PathTo name h a path) :
    a < h.length := by
  cases hpath with
  | root cell hcell => exact (List.getElem?_eq_some_iff.mp hcell).1
  | child p c path cell hparent hchild hcell => exact (List.getElem?_eq_some_iff.mp hcell).1

theorem Rooted.exists_path {h : Cells α} (hr : h.Rooted) (a : ℕ) (ha : a < h.length) :
    ∃ path, PathTo name h a path := by
  induction a using Nat.strongRecOn with
  | ind a ih =>
    by_cases hzero : a = 0
    · subst hzero
      obtain ⟨cell, hcell, -⟩ := hr.root
      exact ⟨_, .root cell hcell⟩
    · obtain ⟨p, hp, hlt, hchild⟩ := hr.up a h[a] (List.getElem?_eq_getElem ha) hzero
      obtain ⟨path, hpath⟩ := ih p hlt (by omega)
      exact ⟨_, .child p a path _ hpath hchild (List.getElem?_eq_getElem ha)⟩

theorem pathTo_iff {h : Cells α} {a : ℕ} {path : List β} :
    PathTo name h a path ↔ (a = 0 ∧ ∃ cell, h[0]? = some cell ∧ path = [name cell.data]) ∨
      ∃ p init cell, PathTo name h p init ∧ a ∈ h.childrenOf p ∧ h[a]? = some cell ∧
        path = init ++ [name cell.data] := by
  constructor
  · intro hpath
    cases hpath with
    | root cell hcell => exact .inl ⟨rfl, cell, hcell, rfl⟩
    | child p c init cell hparent hchild hcell =>
      exact .inr ⟨p, init, cell, hparent, hchild, hcell, rfl⟩
  · intro hpath
    cases hpath with
    | inl hroot =>
      obtain ⟨rfl, cell, hcell, rfl⟩ := hroot
      exact .root cell hcell
    | inr hchild =>
      obtain ⟨p, init, cell, hparent, hchild, hcell, rfl⟩ := hchild
      exact .child p a init cell hparent hchild hcell

/-- The parent of a node on a path is the node before it. -/
theorem Rooted.parent_unique {h : Cells α} (hr : h.Rooted) {p p' c : ℕ}
    (hc : c ∈ h.childrenOf p) (hc' : c ∈ h.childrenOf p') : p = p' := by
  obtain ⟨cell, hcell, hparent⟩ := hr.down p c hc
  obtain ⟨cell', hcell', hparent'⟩ := hr.down p' c hc'
  have heq := Option.some.inj (hcell.symm.trans hcell')
  exact Option.some.inj (hparent.symm.trans (heq ▸ hparent'))

theorem Rooted.not_child_root {h : Cells α} (hr : h.Rooted) {p : ℕ} : 0 ∉ h.childrenOf p :=
  fun hc => absurd (hr.child_lt hc).1 (Nat.not_lt_zero p)

theorem PathTo.functional {h : Cells α} (hr : h.Rooted) {a : ℕ} {path path' : List β}
    (hpath : PathTo name h a path) (hpath' : PathTo name h a path') : path = path' := by
  induction hpath generalizing path' with
  | root cell hcell =>
    cases hpath' with
    | root cell' hcell' => rw [Option.some.inj (hcell.symm.trans hcell')]
    | child p c path cell hparent hchild hcell => exact absurd hchild hr.not_child_root
  | child p c path cell hparent hchild hcell ih =>
    cases hpath' with
    | root cell' hcell' => exact absurd hchild hr.not_child_root
    | child p' c' path' cell' hparent' hchild' hcell' =>
      have hp := hr.parent_unique hchild hchild'
      subst hp
      rw [ih hparent', Option.some.inj (hcell.symm.trans hcell')]

/-- Where siblings have different names, a path leads to one node. -/
theorem PathTo.injective {h : Cells α} (hdistinct : Distinct name h) {a b : ℕ} {path : List β}
    (ha : PathTo name h a path) (hb : PathTo name h b path) : a = b := by
  induction ha generalizing b with
  | root cell hcell =>
    generalize hpath : [name cell.data] = path at hb
    cases hb with
    | root cell' hcell' => rfl
    | child p c path cell' hparent hchild hcell' =>
      have hnil : path = [] := by
        have hlength := congrArg List.length hpath
        simp at hlength
        exact hlength
      exact absurd hnil hparent.ne_nil
  | child p c path cell hparent hchild hcell ih =>
    generalize hpath : path ++ [name cell.data] = full at hb
    cases hb with
    | root cell' hcell' =>
      have hnil : path = [] := by
        have hlength := congrArg List.length hpath
        simp at hlength
        exact hlength
      exact absurd hnil hparent.ne_nil
    | child p' c' path' cell' hparent' hchild' hcell' =>
      obtain ⟨hinit, hlast⟩ := List.append_inj' hpath rfl
      have hp := ih (hinit ▸ hparent')
      subst hp
      exact hdistinct p c b cell cell' hchild hchild' hcell hcell' (List.cons.inj hlast).1

variable (name) in
/-- What paths are made of. -/
def skeleton (h : Cells α) : List (β × Option ℕ × List ℕ) :=
  h.map fun cell => (name cell.data, cell.parent, cell.children)

theorem getElem?_of_skeleton {h h' : Cells α} (heq : skeleton name h = skeleton name h') {a : ℕ}
    {cell : Cell α} (hcell : h[a]? = some cell) : ∃ cell', h'[a]? = some cell' ∧
      name cell'.data = name cell.data ∧ cell'.parent = cell.parent ∧
      cell'.children = cell.children := by
  have hget := congrArg (fun l => l[a]?) heq
  simp only [skeleton, List.getElem?_map, hcell, Option.map_some] at hget
  obtain ⟨cell', hcell', hsame⟩ := Option.map_eq_some_iff.mp hget.symm
  simp only [Prod.mk.injEq] at hsame
  exact ⟨cell', hcell', hsame⟩

theorem childrenOf_of_skeleton {h h' : Cells α} (heq : skeleton name h = skeleton name h')
    (a : ℕ) : h'.childrenOf a = h.childrenOf a := by
  have hget := congrArg (fun l => (l[a]?).map fun x => x.2.2) heq
  simp only [skeleton, List.getElem?_map, Option.map_map] at hget
  rw [childrenOf, childrenOf]
  exact congrArg (fun o => o.getD []) hget.symm

theorem PathTo.of_skeleton {h h' : Cells α} (heq : skeleton name h = skeleton name h') {a : ℕ}
    {path : List β} (hpath : PathTo name h a path) : PathTo name h' a path := by
  induction hpath with
  | root cell hcell =>
    obtain ⟨cell', hcell', hname, -⟩ := getElem?_of_skeleton heq hcell
    exact hname ▸ .root cell' hcell'
  | child p c path cell hparent hchild hcell ih =>
    obtain ⟨cell', hcell', hname, -⟩ := getElem?_of_skeleton heq hcell
    exact hname ▸ .child p c path cell' ih (childrenOf_of_skeleton heq p ▸ hchild) hcell'

theorem Rooted.of_skeleton {h h' : Cells α} (heq : skeleton name h = skeleton name h')
    (hr : h.Rooted) : h'.Rooted := by
  constructor
  · obtain ⟨cell, hcell, hnone⟩ := hr.root
    obtain ⟨cell', hcell', -, hparent, -⟩ := getElem?_of_skeleton heq hcell
    exact ⟨cell', hcell', hparent.trans hnone⟩
  · intro c cell' hcell' hne
    obtain ⟨cell, hcell, -, hparent, -⟩ := getElem?_of_skeleton heq.symm hcell'
    obtain ⟨p, hp, hlt, hchild⟩ := hr.up c cell hcell hne
    exact ⟨p, hparent ▸ hp, hlt, (childrenOf_of_skeleton heq p).symm ▸ hchild⟩
  · intro p c hc
    obtain ⟨cell, hcell, hp⟩ := hr.down p c (childrenOf_of_skeleton heq p ▸ hc)
    obtain ⟨cell', hcell', -, hparent, -⟩ := getElem?_of_skeleton heq hcell
    exact ⟨cell', hcell', hparent.trans hp⟩

theorem Distinct.of_skeleton {h h' : Cells α} (heq : skeleton name h = skeleton name h')
    (hdistinct : Distinct name h) : Distinct name h' := by
  intro p c c' cell₁ cell₂ hc hc' hcell₁ hcell₂ hname
  obtain ⟨cell, hcell, hsame, -⟩ := getElem?_of_skeleton heq.symm hcell₁
  obtain ⟨cell', hcell', hsame', -⟩ := getElem?_of_skeleton heq.symm hcell₂
  rw [childrenOf_of_skeleton heq] at hc hc'
  exact hdistinct p c c' cell cell' hc hc' hcell hcell' (hsame.trans (hname.trans hsame'.symm))

/-- Writing to a node leaves the tree if its name stays. -/
theorem skeleton_write (h : Cells α) (a : ℕ) (f : α → α) (hname : ∀ x, name (f x) = name x) :
    skeleton name (h.write a f) = skeleton name h := by
  apply List.ext_getElem?
  intro b
  simp only [skeleton, List.getElem?_map, getElem?_write, Option.map_map]
  congr 1
  funext cell
  simp only [Function.comp]
  split_ifs
  · rw [hname]
  · rfl

end Paths

section Singleton
variable {name : α → β}

@[simp] theorem childrenOf_singleton (data : α) (p : ℕ) :
    childrenOf [⟨data, none, []⟩] p = [] := by
  rw [childrenOf]
  cases p <;> simp

/-- A root alone. -/
theorem rooted_singleton (data : α) : Rooted [⟨data, none, []⟩] := by
  constructor
  · exact ⟨_, rfl, rfl⟩
  · intro c cell hcell hne
    have hlt := (List.getElem?_eq_some_iff.mp hcell).1
    rw [List.length_singleton] at hlt
    omega
  · intro p c hc
    rw [childrenOf_singleton] at hc
    exact absurd hc List.not_mem_nil

theorem distinct_singleton (data : α) : Distinct name [⟨data, none, []⟩] := by
  intro p c c' cell cell' hc
  rw [childrenOf_singleton] at hc
  exact absurd hc List.not_mem_nil

end Singleton

section Attach
variable {name : α → β} {h : Cells α} {parent : ℕ} {data : α}

theorem getElem?_attach_of_some (parent : ℕ) (data : α) {a : ℕ} {cell : Cell α}
    (hcell : h[a]? = some cell) :
    ∃ cell', (h.attach parent data)[a]? = some cell' ∧ cell'.data = cell.data ∧
      cell'.parent = cell.parent := by
  have hlt := (List.getElem?_eq_some_iff.mp hcell).1
  rw [getElem?_attach_old _ _ _ _ hlt, hcell, Option.map_some]
  refine ⟨_, rfl, ?_⟩
  split_ifs <;> exact ⟨rfl, rfl⟩

/-- A cell of the larger tree is an old one or the new one. -/
theorem getElem?_attach_cases {a : ℕ} {cell : Cell α}
    (hcell : (h.attach parent data)[a]? = some cell) :
    (∃ old, h[a]? = some old ∧ cell.data = old.data ∧ cell.parent = old.parent) ∨
      (a = h.length ∧ cell = ⟨data, some parent, []⟩) := by
  have hlt := (List.getElem?_eq_some_iff.mp hcell).1
  rw [length_attach] at hlt
  by_cases ha : a < h.length
  · left
    rw [getElem?_attach_old _ _ _ _ ha, List.getElem?_eq_getElem ha, Option.map_some,
      Option.some.injEq] at hcell
    refine ⟨h[a], List.getElem?_eq_getElem ha, ?_⟩
    rw [← hcell]
    split_ifs <;> exact ⟨rfl, rfl⟩
  · right
    have heq : a = h.length := by omega
    subst heq
    rw [getElem?_attach_new, Option.some.injEq] at hcell
    exact ⟨rfl, hcell.symm⟩

theorem mem_childrenOf_attach (hparent : parent < h.length) {p c : ℕ} :
    c ∈ (h.attach parent data).childrenOf p ↔
      c ∈ h.childrenOf p ∨ (p = parent ∧ c = h.length) := by
  rw [childrenOf_attach h data p hparent]
  split_ifs with heq
  · rw [List.mem_append, List.mem_singleton]
    simp [heq]
  · simp [Ne.symm heq]

theorem Rooted.attach (hr : h.Rooted) (hparent : parent < h.length) :
    (h.attach parent data).Rooted := by
  constructor
  · obtain ⟨cell, hcell, hnone⟩ := hr.root
    obtain ⟨cell', hcell', -, hsame⟩ := getElem?_attach_of_some parent data hcell
    exact ⟨cell', hcell', hsame.trans hnone⟩
  · intro c cell hcell hne
    cases getElem?_attach_cases hcell with
    | inl hold =>
      obtain ⟨old, hold, -, hsame⟩ := hold
      obtain ⟨p, hp, hlt, hchild⟩ := hr.up c old hold hne
      exact ⟨p, hsame.trans hp, hlt, (mem_childrenOf_attach hparent).mpr (.inl hchild)⟩
    | inr hnew =>
      obtain ⟨rfl, rfl⟩ := hnew
      exact ⟨parent, rfl, hparent, (mem_childrenOf_attach hparent).mpr (.inr ⟨rfl, rfl⟩)⟩
  · intro p c hc
    cases (mem_childrenOf_attach hparent).mp hc with
    | inl hold =>
      obtain ⟨cell, hcell, hp⟩ := hr.down p c hold
      obtain ⟨cell', hcell', -, hsame⟩ := getElem?_attach_of_some parent data hcell
      exact ⟨cell', hcell', hsame.trans hp⟩
    | inr hnew =>
      obtain ⟨rfl, rfl⟩ := hnew
      exact ⟨_, getElem?_attach_new h p data, rfl⟩

theorem PathTo.attach (hparent : parent < h.length) {a : ℕ} {path : List β}
    (hpath : PathTo name h a path) : PathTo name (h.attach parent data) a path := by
  induction hpath with
  | root cell hcell =>
    obtain ⟨cell', hcell', hsame, -⟩ := getElem?_attach_of_some parent data hcell
    exact hsame ▸ .root cell' hcell'
  | child p c path cell hp hchild hcell ih =>
    obtain ⟨cell', hcell', hsame, -⟩ := getElem?_attach_of_some parent data hcell
    exact hsame ▸ .child p c path cell' ih ((mem_childrenOf_attach hparent).mpr (.inl hchild)) hcell'

/-- The new node has the path of its parent and its own name. -/
theorem pathTo_attach_iff (hr : h.Rooted) (hparent : parent < h.length) {a : ℕ} {path : List β} :
    PathTo name (h.attach parent data) a path ↔ PathTo name h a path ∨
      (a = h.length ∧ ∃ init, PathTo name h parent init ∧ path = init ++ [name data]) := by
  have hold : ∀ p, ∀ init, PathTo name (h.attach parent data) p init → p < h.length →
      PathTo name h p init := by
    intro p init hpath hlt
    have hexists : ∃ path, PathTo name h p path := hr.exists_path p hlt
    obtain ⟨init', hinit'⟩ := hexists
    rwa [hpath.functional (hr.attach hparent) (hinit'.attach hparent)]
  constructor
  · intro hpath
    have hlt := hpath.lt_length
    rw [length_attach] at hlt
    by_cases ha : a < h.length
    · exact .inl (hold a path hpath ha)
    · right
      have heq : a = h.length := by omega
      refine ⟨heq, ?_⟩
      subst heq
      cases pathTo_iff.mp hpath with
      | inl hroot => exact absurd hr.nonempty (by omega)
      | inr hbelow =>
        obtain ⟨p, init, cell, hp, hchild, hcell, rfl⟩ := hbelow
        cases (mem_childrenOf_attach hparent).mp hchild with
        | inl hin => exact absurd (hr.child_lt hin).2 (Nat.lt_irrefl _)
        | inr hnew =>
          obtain ⟨rfl, -⟩ := hnew
          rw [getElem?_attach_new, Option.some.injEq] at hcell
          exact ⟨init, hold p init hp hparent, hcell ▸ rfl⟩
  · intro hpath
    cases hpath with
    | inl hin => exact hin.attach hparent
    | inr hnew =>
      obtain ⟨rfl, init, hinit, rfl⟩ := hnew
      exact .child parent _ init ⟨data, some parent, []⟩ (hinit.attach hparent)
        ((mem_childrenOf_attach hparent).mpr (.inr ⟨rfl, rfl⟩)) (getElem?_attach_new h parent data)

theorem Distinct.attach (hr : h.Rooted) (hdistinct : Distinct name h) (hparent : parent < h.length)
    (hnew : ∀ c cell, c ∈ h.childrenOf parent → h[c]? = some cell → name cell.data ≠ name data) :
    Distinct name (h.attach parent data) := by
  have hold : ∀ p c cell, c ∈ h.childrenOf p → (h.attach parent data)[c]? = some cell →
      ∃ old, h[c]? = some old ∧ cell.data = old.data := by
    intro p c cell hc hcell
    cases getElem?_attach_cases hcell with
    | inl hin =>
      obtain ⟨old, hget, hdata, -⟩ := hin
      exact ⟨old, hget, hdata⟩
    | inr heq => exact absurd (hr.child_lt hc).2 (by omega)
  have hself : ∀ cell, (h.attach parent data)[h.length]? = some cell → cell.data = data := by
    intro cell hcell
    rw [getElem?_attach_new, Option.some.injEq] at hcell
    rw [← hcell]
  intro p c c' cell cell' hc hc' hcell hcell' hname
  cases (mem_childrenOf_attach hparent).mp hc with
  | inl hin =>
    obtain ⟨old, hget, hdata⟩ := hold p c cell hin hcell
    cases (mem_childrenOf_attach hparent).mp hc' with
    | inl hin' =>
      obtain ⟨old', hget', hdata'⟩ := hold p c' cell' hin' hcell'
      exact hdistinct p c c' old old' hin hin' hget hget' (hdata ▸ hdata' ▸ hname)
    | inr heq' =>
      obtain ⟨rfl, rfl⟩ := heq'
      rw [hself cell' hcell', hdata] at hname
      exact absurd hname (hnew c old hin hget)
  | inr heq =>
    obtain ⟨rfl, rfl⟩ := heq
    cases (mem_childrenOf_attach hparent).mp hc' with
    | inl hin' =>
      obtain ⟨old', hget', hdata'⟩ := hold p c' cell' hin' hcell'
      rw [hself cell hcell, hdata'] at hname
      exact absurd hname.symm (hnew c' old' hin' hget')
    | inr heq' => exact heq'.2.symm

end Attach

section Growth
variable {h : Cells α} {lo : ℕ}

/-- Every way down from the node ends after less than so many steps. -/
def Within (h : Cells α) : ℕ → ℕ → Prop
  | 0, _ => False
  | depth + 1, a => a < h.length ∧ ∀ c ∈ h.childrenOf a, Within h depth c

theorem within_of_rank {rank : ℕ → ℕ} {bound : ℕ}
    (hedges : ∀ p c, c ∈ h.childrenOf p → c < h.length ∧ rank p < rank c)
    (hbound : ∀ a < h.length, rank a < bound) :
    ∀ depth a, a < h.length → bound ≤ rank a + depth → h.Within depth a := by
  intro depth
  induction depth with
  | zero =>
    intro a ha hdepth
    have hlt := hbound a ha
    omega
  | succ depth ih =>
    intro a ha hdepth
    refine ⟨ha, fun c hc => ?_⟩
    obtain ⟨hlt, hrank⟩ := hedges a c hc
    exact ih c hlt (by omega)

theorem Rooted.within (hr : h.Rooted) {depth a : ℕ} (ha : a < h.length)
    (hdepth : h.length ≤ a + depth) : h.Within depth a := by
  apply @within_of_rank α h id h.length _ _ depth a ha hdepth
  · intro p c hc
    exact (hr.child_lt hc).symm
  · exact fun a ha => ha

/-- Nodes have been attached, all of them below nodes from `lo` on. -/
inductive Grows (lo : ℕ) (h : Cells α) : Cells α → Prop
  | refl : Grows lo h h
  | attach (h' : Cells α) (parent : ℕ) (data : α) : Grows lo h h' → lo ≤ parent →
      parent < h'.length → Grows lo h (h'.attach parent data)

theorem Grows.length_le {h' : Cells α} (hgrows : Grows lo h h') : h.length ≤ h'.length := by
  induction hgrows with
  | refl => exact Nat.le_refl _
  | attach h' parent data _ _ _ ih =>
    rw [length_attach]
    omega

theorem Grows.mono {h' : Cells α} {hi : ℕ} (hgrows : Grows hi h h') (hle : lo ≤ hi) :
    Grows lo h h' := by
  induction hgrows with
  | refl => exact .refl
  | attach h' parent data _ hlo hparent ih =>
    exact .attach h' parent data ih (Nat.le_trans hle hlo) hparent

theorem Grows.trans {h' h'' : Cells α} (hfirst : Grows lo h h') (hgrows : Grows lo h' h'') :
    Grows lo h h'' := by
  induction hgrows with
  | refl => exact hfirst
  | attach h'' parent data _ hlo hparent ih => exact .attach h'' parent data ih hlo hparent

/-- Nodes before `lo` are as they were. -/
theorem Grows.getElem?_eq {h' : Cells α} (hgrows : Grows lo h h') {a : ℕ} (hlo : a < lo)
    (ha : a < h.length) : h'[a]? = h[a]? := by
  induction hgrows with
  | refl => rfl
  | attach h' parent data hold hparent _ ih =>
    have hlength := hold.length_le
    have hne : parent ≠ a := by omega
    rw [getElem?_attach_old _ _ _ _ (by omega), ih]
    simp [hne]

theorem Grows.getElem?_of_some {h' : Cells α} (hgrows : Grows lo h h') {a : ℕ} {cell : Cell α}
    (hcell : h[a]? = some cell) :
    ∃ cell', h'[a]? = some cell' ∧ cell'.data = cell.data ∧ cell'.parent = cell.parent := by
  induction hgrows with
  | refl => exact ⟨cell, hcell, rfl, rfl⟩
  | attach h' parent data _ _ _ ih =>
    obtain ⟨cell', hcell', hdata, hparent⟩ := ih
    obtain ⟨cell'', hcell'', hdata', hparent'⟩ := getElem?_attach_of_some parent data hcell'
    exact ⟨cell'', hcell'', hdata'.trans hdata, hparent'.trans hparent⟩

/-- A child was one before, or is new and points to its parent. -/
theorem Grows.childrenOf {h' : Cells α} (hgrows : Grows lo h h') {p c : ℕ}
    (hc : c ∈ h'.childrenOf p) : c ∈ h.childrenOf p ∨
      (h.length ≤ c ∧ c < h'.length ∧ lo ≤ p ∧ p < c ∧
        ∃ cell, h'[c]? = some cell ∧ cell.parent = some p) := by
  induction hgrows with
  | refl => exact .inl hc
  | attach h' parent data hold hlo hparent ih =>
    cases (mem_childrenOf_attach hparent).mp hc with
    | inl hin =>
      cases ih hin with
      | inl hbefore => exact .inl hbefore
      | inr hnew =>
        obtain ⟨hge, hlt, hp, hpc, cell, hcell, hcellParent⟩ := hnew
        obtain ⟨cell', hcell', -, hsame⟩ := getElem?_attach_of_some parent data hcell
        rw [length_attach]
        exact .inr ⟨hge, by omega, hp, hpc, cell', hcell', hsame.trans hcellParent⟩
    | inr hnew =>
      obtain ⟨rfl, rfl⟩ := hnew
      rw [length_attach]
      exact .inr ⟨hold.length_le, by omega, hlo, hparent, _, getElem?_attach_new h' p data, rfl⟩

end Growth
end Cells
end ReadexPtf
