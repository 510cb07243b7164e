import ReadexPtf.Rts.AgentTree
import Mathlib

/-! The call-tree of the frontend: each node that the agent sends is put below the nodes
whose call-path string, with its name behind it, is the string of the node. -/
namespace ReadexPtf.Rtstree
open ReadexPtf

structure Frontend where
  heap : Cells Rts
  calltreeRoot : Option ℕ

def callpathOf (heap : Cells Rts) (a : ℕ) : String :=
  ((dataOf heap a).map Rts.callpathstring).getD ""

def regionNameOf (heap : Cells Rts) (a : ℕ) : String :=
  ((dataOf heap a).map Rts.regionName).getD ""

def findFrontendNode (heap : Cells Rts) (parent newnode : ℕ) : Option ℕ :=
  (heap.childrenOf parent).find? fun c => callpathOf heap c == callpathOf heap newnode

/-- `parent->children.push_back( current ); current->parent = parent;` -/
def adopt (heap : Cells Rts) (parent current : ℕ) : Cells Rts :=
  (heap.pushChild parent current).modify current fun cell => { cell with parent := some parent }

/-- Nothing is done for a call path that the parent has a child for. The loop over the
children goes on after an insertion. -/
def insertFrontendNode : ℕ → ℕ → ℕ → Cells Rts → Outcome (Cells Rts)
  | 0, _, _, _ => .undefined
  | depth + 1, parent, current, heap =>
    if callpathOf heap current = callpathOf heap parent ++ "/" ++ regionNameOf heap current then
      match findFrontendNode heap parent current with
      | some _ => return heap
      | none => return adopt heap parent current
    else (heap.childrenOf parent).foldlM
      (fun heap child => insertFrontendNode depth child current heap) heap

namespace Frontend

def start : Frontend := ⟨[], none⟩

/-- `construct_calltree`: the node arrives and is put into the tree. -/
def constructCalltree (fe : Frontend) (current : Rts) : Outcome Frontend :=
  let heap := fe.heap ++ [⟨current, none, []⟩]
  if current.parentScorepId = 0 then
    match fe.calltreeRoot with
    | none => return ⟨heap, some fe.heap.length⟩
    | some root => return ⟨heap.write root fun data => { data with
        scorepId := current.scorepId, parentScorepId := current.parentScorepId }, some root⟩
  else do
    let root ← Outcome.found fe.calltreeRoot
    return ⟨← insertFrontendNode heap.length root fe.heap.length heap, some root⟩

end Frontend

/-- The nodes of an agent's tree in the order they are sent, which is any order that has
parents before their children, such as pre-order. Only the root has 0 for a parent id. -/
structure SentTree where
  cells : Cells Rts
  rooted : cells.Rooted
  callpaths : ∀ c p, parentOf cells c = some p →
    callpathOf cells c = callpathOf cells p ++ "/" ++ regionNameOf cells c
  parentIds : ∀ a data, dataOf cells a = some data → (data.parentScorepId = 0 ↔ a = 0)

/-- Sending the nodes one after the other. -/
def SentTree.send (tree : SentTree) : Outcome Frontend :=
  (tree.cells.map fun cell => { cell.data with isValidRts := false }).foldlM
    Frontend.constructCalltree .start

/-- The tree of the frontend has the names and parents of the agent's tree, and each node once. -/
structure Isomorphic (tree : SentTree) (fe : Frontend) : Prop where
  root : fe.calltreeRoot = some 0
  size : fe.heap.length = tree.cells.length
  names : ∀ a, nameOf fe.heap a = nameOf tree.cells a
  parents : ∀ a, parentOf fe.heap a = parentOf tree.cells a
  once : ∀ p c, (fe.heap.childrenOf p).count c = if parentOf tree.cells c = some p then 1 else 0

/-- When a node is sent, its parent is the one node with the call-path string of the parent
that has no child with the string of the node yet. -/
def Locatable (tree : SentTree) : Prop :=
  ∀ k p q, parentOf tree.cells k = some p → q < k →
    callpathOf tree.cells q = callpathOf tree.cells p →
    (q ≠ p ↔ ∃ j < k, parentOf tree.cells j = some q ∧
      callpathOf tree.cells j = callpathOf tree.cells k)

section Heaps

theorem string_append_right_cancel {a b s : String} (h : a ++ s = b ++ s) : a = b := by
  have hlist := congrArg String.toList h
  rw [String.toList_append, String.toList_append] at hlist
  exact String.toList_inj.mp (List.append_cancel_right hlist)

theorem getElem?_adopt (heap : Cells Rts) {parent current : ℕ} (b : ℕ) :
    (adopt heap parent current)[b]? = (heap[b]?).map fun cell => ⟨cell.data,
      if current = b then some parent else cell.parent,
      if parent = b then cell.children ++ [current] else cell.children⟩ := by
  rw [adopt, List.getElem?_modify, Option.map_eq_map, Cells.getElem?_pushChild, Option.map_map]
  congr 1
  funext cell
  simp only [Function.comp]
  split_ifs <;> rfl

@[simp] theorem length_adopt (heap : Cells Rts) (parent current : ℕ) :
    (adopt heap parent current).length = heap.length := by
  simp [adopt]

@[simp] theorem dataOf_adopt (heap : Cells Rts) (parent current b : ℕ) :
    dataOf (adopt heap parent current) b = dataOf heap b := by
  rw [dataOf, dataOf, getElem?_adopt, Option.map_map]
  rfl

theorem parentOf_adopt (heap : Cells Rts) {parent current : ℕ} (b : ℕ)
    (hcurrent : current < heap.length) :
    parentOf (adopt heap parent current) b =
      if current = b then some parent else parentOf heap b := by
  rw [parentOf, parentOf, getElem?_adopt, Option.bind_map]
  by_cases heq : current = b
  · subst heq
    rw [List.getElem?_eq_getElem hcurrent]
    simp
  · simp [heq]

theorem childrenOf_adopt (heap : Cells Rts) {parent current : ℕ} (b : ℕ)
    (hparent : parent < heap.length) :
    (adopt heap parent current).childrenOf b =
      if parent = b then heap.childrenOf b ++ [current] else heap.childrenOf b := by
  rw [Cells.childrenOf, Cells.childrenOf, getElem?_adopt, Option.map_map]
  by_cases heq : parent = b
  · subst heq
    rw [List.getElem?_eq_getElem hparent]
    simp
  · simp [heq, Function.comp_def]

/-- The parts of a heap that an insertion of `current` leaves alone. -/
structure Besides (current : ℕ) (heap heap' : Cells Rts) : Prop where
  size : heap'.length = heap.length
  data : ∀ a, dataOf heap' a = dataOf heap a
  parents : ∀ a, a ≠ current → parentOf heap' a = parentOf heap a
  counts : ∀ p c, c ≠ current → (heap'.childrenOf p).count c = (heap.childrenOf p).count c

theorem Besides.refl (current : ℕ) (heap : Cells Rts) : Besides current heap heap :=
  ⟨rfl, fun _ => rfl, fun _ _ => rfl, fun _ _ _ => rfl⟩

theorem Besides.trans {current : ℕ} {heap heap' heap'' : Cells Rts}
    (h : Besides current heap heap') (h' : Besides current heap' heap'') :
    Besides current heap heap'' where
  size := h'.size.trans h.size
  data a := (h'.data a).trans (h.data a)
  parents a ha := (h'.parents a ha).trans (h.parents a ha)
  counts p c hc := (h'.counts p c hc).trans (h.counts p c hc)

theorem besides_adopt {heap : Cells Rts} {parent current : ℕ} (hparent : parent < heap.length)
    (hcurrent : current < heap.length) : Besides current heap (adopt heap parent current) := by
  refine ⟨length_adopt _ _ _, dataOf_adopt _ _ _, fun a ha => ?_, fun p c hc => ?_⟩
  · rw [parentOf_adopt heap a hcurrent, if_neg (Ne.symm ha)]
  · rw [childrenOf_adopt heap p hparent]
    split_ifs
    · rw [List.count_append, List.count_singleton]
      simp [Ne.symm hc]
    · rfl

/-- Children are younger than their parents. -/
def Ordered (heap : Cells Rts) : Prop :=
  ∀ p c, c ∈ heap.childrenOf p → p < c ∧ c < heap.length

theorem callpath_ne_self (a name : String) : a ≠ a ++ "/" ++ name := by
  intro h
  have hlength := congrArg String.length h
  rw [String.length_append, String.length_append] at hlength
  have hslash : ("/" : String).length = 1 := rfl
  omega

/-- The insertion of the youngest node returns, whatever the heap is. -/
theorem insertFrontendNode_returns {current : ℕ} :
    ∀ (depth v : ℕ) (heap : Cells Rts), Ordered heap → heap.length = current + 1 →
      v < heap.length → heap.length ≤ v + depth →
      ∃ heap', insertFrontendNode depth v current heap = .ok heap' ∧ Besides current heap heap' ∧
        Ordered heap' := by
  intro depth
  induction depth with
  | zero =>
    intro v heap hordered hsize hv hdepth
    omega
  | succ depth ih =>
    intro v heap hordered hsize hv hdepth
    rw [insertFrontendNode]
    split_ifs with hmatch
    · cases findFrontendNode heap v current with
      | some c => exact ⟨heap, rfl, Besides.refl current heap, hordered⟩
      | none =>
        have hne : v ≠ current := by
          intro heq
          exact callpath_ne_self _ _ (heq ▸ hmatch)
        refine ⟨_, rfl, besides_adopt hv (by omega), ?_⟩
        intro p c hc
        rw [length_adopt]
        rw [childrenOf_adopt heap p hv] at hc
        split_ifs at hc with heq
        · cases List.mem_append.mp hc with
          | inl hold => exact hordered p c hold
          | inr hnew =>
            rw [List.mem_singleton.mp hnew]
            omega
        · exact hordered p c hc
    · have hfold := Outcome.foldlM_total
        (f := fun heap child => insertFrontendNode depth child current heap)
        (fun heap' => Besides current heap heap' ∧ Ordered heap') (fun heap' c hc hinv => by
          obtain ⟨hlt, hlength⟩ := hordered v c hc
          have hsame := hinv.1.size
          obtain ⟨heap'', hrun, hbesides, hordered''⟩ :=
            ih c heap' hinv.2 (by omega) (by omega) (by omega)
          exact ⟨heap'', hrun, hinv.1.trans hbesides, hordered''⟩)
        heap ⟨Besides.refl current heap, hordered⟩
      exact hfold

end Heaps
end ReadexPtf.Rtstree
