import ReadexPtf.Lib.OrdMap
import ReadexPtf.Cluster.Generation
import Mathlib

/-! The top-down cut of a dendrogram into a number of clusters, and the ties that break it. -/
namespace ReadexPtf.Cluster
open ReadexPtf

section Model
variable {ρ V : Type} [DecidableEq ρ] [Zero V] [LinearOrder V]

/-- The set of the leaves. -/
def leaves : Node ρ V → List (Node ρ V)
  | .leaf rts => [.leaf rts]
  | .branch _ left right => leaves left ∪ leaves right

/-- The clusters that are final and the branches to visit: `node_compare` compares distances
only, so the set holds one branch of each distance. -/
structure Visit (ρ V : Type) [LinearOrder V] where
  clusters : List (Node ρ V)
  to_visit : OrdMap V (Node ρ V)

/-- A child of the visited branch. -/
def Visit.addChild (s : Visit ρ V) (child : Node ρ V) : Visit ρ V :=
  match child with
  | .leaf _ => { s with clusters := s.clusters.insert child }
  | .branch _ _ _ => { s with to_visit := s.to_visit.insertNew child.distance child }

/-- `to_visit.erase( n )` finds its argument by the distance. -/
def Visit.erase (s : Visit ρ V) (n : Node ρ V) : Visit ρ V :=
  { s with to_visit := s.to_visit.filterKeys (· != n.distance) }

/-- One round of the loop: `rbegin` of an empty set is not defined, nor is a leaf's child. -/
def visitMax (s : Visit ρ V) : Outcome (Visit ρ V) :=
  match s.to_visit.entries.getLast? with
  | none => .undefined
  | some e =>
    match e.2 with
    | .leaf _ => .undefined
    | .branch _ left right => .ok (((s.erase e.2).addChild left).addChild right)

/-- `cut` by the number of clusters. Each round visits another branch of the tree, so as many
rounds as there are elements are enough. -/
def cut (root : Node ρ V) (nclusters : ℕ) : Outcome (List (Node ρ V)) :=
  if nclusters = 0 then .ok []
  else if nclusters ≥ root.nelements then .ok (leaves root)
  else do
    let s ← Outcome.whileLoop
      (fun s => s.to_visit.entries.length + s.clusters.length != nclusters) visitMax
      root.nelements ⟨[], OrdMap.empty.set root.distance root⟩
    return (s.to_visit.entries.map Prod.snd).foldl (fun cs n => cs.insert n) s.clusters

/-- `k` nodes of the tree without a common element, which have all elements together. -/
def IsCut (root : Node ρ V) (k : ℕ) (cs : List (Node ρ V)) : Prop :=
  cs.length = k ∧ (∀ c ∈ cs, c ∈ root.nodes) ∧
    cs.Pairwise (fun c c' => c.elements.Disjoint c'.elements) ∧
    ∀ a, a ∈ root.elements ↔ ∃ c ∈ cs, a ∈ c.elements

end Model

/-! Opening a tree from the top: the branch with the largest distance is replaced by its
children. This is the cut without the set that orders its branches. -/
section Opening
variable {ρ V : Type} [DecidableEq ρ] [Zero V] [LinearOrder V]

def Node.isBranch : Node ρ V → Bool
  | .leaf _ => false
  | .branch _ _ _ => true

omit [DecidableEq ρ] [Zero V] [LinearOrder V] in
@[simp] theorem Node.isBranch_leaf (a : ρ) : (leaf a : Node ρ V).isBranch = false := rfl
omit [DecidableEq ρ] [Zero V] [LinearOrder V] in
@[simp] theorem Node.isBranch_branch (dist : V) (l r : Node ρ V) :
    (branch dist l r).isBranch = true := rfl

def Node.children : Node ρ V → List (Node ρ V)
  | .leaf _ => []
  | .branch _ left right => [left, right]

def branches (ns : List (Node ρ V)) : List (Node ρ V) := ns.filter Node.isBranch

def openWidest (ns : List (Node ρ V)) : List (Node ρ V) :=
  match (branches ns).argmax Node.distance with
  | none => ns
  | some n => ns.erase n ++ n.children

/-- The nodes of the tree after its `j` widest branches were opened one after the other. -/
def opened (root : Node ρ V) : ℕ → List (Node ρ V)
  | 0 => [root]
  | j + 1 => openWidest (opened root j)

/-- The distances of the open branches. -/
def widths (ns : List (Node ρ V)) : List V := (branches ns).map Node.distance

/-- No two open branches have one distance while fewer than `k` branches are opened. -/
def TieFree (root : Node ρ V) (k : ℕ) : Prop := ∀ j < k, (widths (opened root j)).Nodup

end Opening

section Weights
variable {ρ V : Type}

/-- How many elements some nodes have, counted for each of them. -/
def weight (ns : List (Node ρ V)) : ℕ := (ns.map Node.nelements).sum

theorem weight_eq (ns : List (Node ρ V)) : weight ns = (ns.flatMap Node.elements).length := by
  rw [weight, List.length_flatMap]
  exact congrArg List.sum (List.map_congr_left fun n _ => n.length_elements.symm)

theorem weight_cons (n : Node ρ V) (ns : List (Node ρ V)) :
    weight (n :: ns) = n.nelements + weight ns := by
  rw [weight, List.map_cons, List.sum_cons, weight]

theorem weight_append (ns ms : List (Node ρ V)) : weight (ns ++ ms) = weight ns + weight ms := by
  rw [weight, List.map_append, List.sum_append]
  rfl

theorem length_le_weight (ns : List (Node ρ V)) : ns.length ≤ weight ns := by
  induction ns with
  | nil => exact le_rfl
  | cons n ns ih =>
    have hpos := n.nelements_pos
    rw [List.length_cons, weight_cons]
    omega

theorem weight_perm {ns ms : List (Node ρ V)} (h : ns.Perm ms) : weight ns = weight ms :=
  (h.map Node.nelements).sum_eq

theorem weight_insert_le [DecidableEq (Node ρ V)] (cs : List (Node ρ V)) (n : Node ρ V) :
    weight (cs.insert n) ≤ weight cs + n.nelements := by
  by_cases hmem : n ∈ cs
  · rw [List.insert_of_mem hmem]
    omega
  · rw [List.insert_of_not_mem hmem, weight_cons, Nat.add_comm]

theorem weight_foldl_insert_le [DecidableEq (Node ρ V)] (ns cs : List (Node ρ V)) :
    weight (ns.foldl (fun cs n => cs.insert n) cs) ≤ weight (cs ++ ns) := by
  induction ns generalizing cs with
  | nil => rw [List.append_nil, List.foldl_nil]
  | cons n ns ih =>
    rw [List.foldl_cons]
    refine (ih (cs.insert n)).trans ?_
    have hinsert := weight_insert_le cs n
    rw [weight_append, weight_append, weight_cons]
    omega

/-- A set filled with new elements. -/
theorem foldl_insert_perm [DecidableEq (Node ρ V)] {ns : List (Node ρ V)} :
    ∀ {cs : List (Node ρ V)}, (cs ++ ns).Nodup →
      (ns.foldl (fun cs n => cs.insert n) cs).Perm (cs ++ ns) := by
  induction ns with
  | nil =>
    intro cs _
    rw [List.append_nil, List.foldl_nil]
  | cons n ns ih =>
    intro cs h
    have hmiddle : (cs ++ n :: ns).Perm (n :: (cs ++ ns)) := List.perm_middle
    have hnew : n ∉ cs := fun hmem =>
      (List.nodup_cons.mp (hmiddle.nodup_iff.mp h)).1 (List.mem_append_left ns hmem)
    rw [List.foldl_cons, List.insert_of_not_mem hnew]
    exact (ih (hmiddle.nodup_iff.mp h)).trans hmiddle.symm

/-- A cut has all elements once. -/
theorem IsCut.weight_eq {root : Node ρ V} {k : ℕ} {cs : List (Node ρ V)} (h : IsCut root k cs)
    (hroot : root.elements.Nodup) : weight cs = root.nelements := by
  obtain ⟨-, hnodes, hdisjoint, hmem⟩ := h
  have hnodup : (cs.flatMap Node.elements).Nodup :=
    List.nodup_flatMap.mpr ⟨fun c hc => nodup_of_mem_nodes (hnodes c hc) hroot, hdisjoint⟩
  have hperm : root.elements.Perm (cs.flatMap Node.elements) :=
    (List.perm_ext_iff_of_nodup hroot hnodup).mpr fun a => by rw [hmem, List.mem_flatMap]
  rw [Cluster.weight_eq, ← hperm.length_eq, root.length_elements]

/-- Nodes of a tree that have its elements once are a cut. -/
theorem isCut_of_perm {root : Node ρ V} {cs : List (Node ρ V)} (hroot : root.elements.Nodup)
    (hnodes : ∀ c ∈ cs, c ∈ root.nodes) (h : (cs.flatMap Node.elements).Perm root.elements) :
    IsCut root cs.length cs := by
  have hnodup := List.nodup_flatMap.mp (h.nodup_iff.mpr hroot)
  exact ⟨rfl, hnodes, hnodup.2, fun a => by rw [← h.mem_iff, List.mem_flatMap]⟩

theorem elements_children {n : Node ρ V} (h : n.isBranch) :
    n.children.flatMap Node.elements = n.elements := by
  cases n with
  | leaf => simp at h
  | branch => simp [Node.children, Node.elements]

theorem children_mem_nodes {root n c : Node ρ V} (hn : n ∈ root.nodes) (hc : c ∈ n.children) :
    c ∈ root.nodes := by
  induction root with
  | leaf a =>
    rw [Node.nodes, List.mem_singleton] at hn
    simp [hn, Node.children] at hc
  | branch dist left right ihl ihr =>
    rw [Node.nodes, List.mem_cons, List.mem_append] at hn
    rw [Node.nodes, List.mem_cons, List.mem_append]
    rcases hn with hself | hleft | hright
    · rw [hself, Node.children, List.mem_cons, List.mem_singleton] at hc
      cases hc with
      | inl hc => exact .inr (.inl (hc ▸ left.self_mem_nodes))
      | inr hc => exact .inr (.inr (hc ▸ right.self_mem_nodes))
    · exact .inr (.inl (ihl hleft))
    · exact .inr (.inr (ihr hright))

/-- Without a branch there are as many nodes as elements. -/
theorem weight_of_branches_nil {ns : List (Node ρ V)} (h : ns.filter Node.isBranch = []) :
    weight ns = ns.length := by
  induction ns with
  | nil => rfl
  | cons n ns ih =>
    rw [weight_cons, List.length_cons]
    cases n with
    | leaf => rw [ih (by simpa using h), Node.nelements, Nat.add_comm]
    | branch => simp at h

theorem notMem_of_nodup {ns : List (Node ρ V)} {c : Node ρ V}
    (h : ((ns ++ [c]).flatMap Node.elements).Nodup) : c ∉ ns := by
  intro hmem
  rw [List.flatMap_append, List.flatMap_singleton, List.nodup_append'] at h
  obtain ⟨a, ha⟩ := List.exists_mem_of_ne_nil _ c.elements_ne_nil
  exact h.2.2 (List.mem_flatMap.mpr ⟨c, hmem, ha⟩) ha

theorem leaf_mem_nodes {n : Node ρ V} {a : ρ} (h : a ∈ n.elements) : .leaf a ∈ n.nodes := by
  induction n with
  | leaf b => rw [List.mem_singleton.mp h]; exact Node.self_mem_nodes _
  | branch dist l r ihl ihr =>
    rw [Node.nodes, List.mem_cons, List.mem_append]
    cases List.mem_append.mp h with
    | inl h => exact .inr (.inl (ihl h))
    | inr h => exact .inr (.inr (ihr h))

theorem isBranch_of_lt {root : Node ρ V} {k : ℕ} (h : k < root.nelements) (hk : 1 ≤ k) :
    root.isBranch := by
  cases root with
  | leaf a =>
    rw [Node.nelements] at h
    omega
  | branch => rfl

end Weights

section Openings
variable {ρ V : Type} [DecidableEq ρ] [Zero V] [LinearOrder V]

theorem openWidest_cases (ns : List (Node ρ V)) :
    branches ns = [] ∧ openWidest ns = ns ∨
      ∃ n, n ∈ ns ∧ n.isBranch ∧ (∀ m ∈ branches ns, m.distance ≤ n.distance) ∧
        openWidest ns = ns.erase n ++ n.children := by
  rw [openWidest]
  cases hmax : (branches ns).argmax Node.distance with
  | none => exact .inl ⟨List.argmax_eq_none.mp hmax, rfl⟩
  | some n =>
    obtain ⟨hmem, hbranch⟩ := List.mem_filter.mp (List.argmax_mem hmax)
    exact .inr ⟨n, hmem, hbranch, fun m hm => List.le_of_mem_argmax hm hmax, rfl⟩

/-- Opening a branch keeps the elements. -/
theorem openWidest_perm (ns : List (Node ρ V)) :
    ((openWidest ns).flatMap Node.elements).Perm (ns.flatMap Node.elements) := by
  cases openWidest_cases ns with
  | inl h => rw [h.2]
  | inr h =>
    obtain ⟨n, hmem, hbranch, -, hopen⟩ := h
    have hperm := (List.perm_cons_erase hmem).flatMap_right Node.elements
    rw [hopen, List.flatMap_append, elements_children hbranch]
    exact List.perm_append_comm.trans hperm.symm

theorem opened_perm (root : Node ρ V) (j : ℕ) :
    ((opened root j).flatMap Node.elements).Perm root.elements := by
  induction j with
  | zero => simp [opened]
  | succ j ih => exact (openWidest_perm _).trans ih

theorem opened_mem_nodes (root : Node ρ V) (j : ℕ) : ∀ n ∈ opened root j, n ∈ root.nodes := by
  induction j with
  | zero => simp [opened, Node.self_mem_nodes]
  | succ j ih =>
    intro c hc
    rw [opened] at hc
    cases openWidest_cases (opened root j) with
    | inl h => exact ih c (h.2 ▸ hc)
    | inr h =>
      obtain ⟨n, hmem, -, -, hopen⟩ := h
      rw [hopen, List.mem_append] at hc
      cases hc with
      | inl hc => exact ih c (List.mem_of_mem_erase hc)
      | inr hc => exact children_mem_nodes (ih n hmem) hc

/-- As long as there are fewer nodes than elements, a branch is there to open. -/
theorem opened_length (root : Node ρ V) {j : ℕ} (h : j < root.nelements) :
    (opened root j).length = j + 1 := by
  induction j with
  | zero => rfl
  | succ j ih =>
    have hlen := ih (by omega)
    rw [opened]
    cases openWidest_cases (opened root j) with
    | inl hnone =>
      have hweight := weight_of_branches_nil hnone.1
      rw [weight_eq, (opened_perm root j).length_eq, root.length_elements] at hweight
      omega
    | inr hsome =>
      obtain ⟨n, hmem, hbranch, -, hopen⟩ := hsome
      have herase := List.length_erase_of_mem hmem
      have hchildren : n.children.length = 2 := by
        cases n with
        | leaf => simp at hbranch
        | branch => rfl
      rw [hopen, List.length_append, herase, hchildren]
      omega

end Openings

end ReadexPtf.Cluster
