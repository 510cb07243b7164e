import ReadexPtf.Lib.Unordered
import ReadexPtf.Cluster.Matrix
import ReadexPtf.Cluster.Linkage
import Mathlib

/-! How `generate_dendrogram` merges the clusters of a set of RTSs, two at a time. A node is
its tree: no two nodes of a run have the same leaves, so the tree stands for the pointer. -/
namespace ReadexPtf.Cluster
open ReadexPtf

inductive Node (ρ V : Type*) where
  | leaf (rts : ρ)
  | branch (distance : V) (left right : Node ρ V)
  deriving DecidableEq, Repr

namespace Node
variable {ρ V : Type*}

def nelements : Node ρ V → ℕ
  | leaf _ => 1
  | branch _ left right => left.nelements + right.nelements

def distance [Zero V] : Node ρ V → V
  | leaf _ => 0
  | branch distance _ _ => distance

/-- The RTSs at the leaves. -/
def elements : Node ρ V → List ρ
  | leaf rts => [rts]
  | branch _ left right => left.elements ++ right.elements

/-- The node and all nodes below it. -/
def nodes : Node ρ V → List (Node ρ V)
  | leaf rts => [leaf rts]
  | branch distance left right => branch distance left right :: (left.nodes ++ right.nodes)

theorem length_elements (n : Node ρ V) : n.elements.length = n.nelements := by
  induction n with
  | leaf rts => rfl
  | branch d l r hl hr => rw [elements, List.length_append, hl, hr, nelements]

theorem nelements_pos (n : Node ρ V) : 0 < n.nelements := by
  induction n with
  | leaf rts => exact Nat.one_pos
  | branch d l r hl hr => exact Nat.add_pos_left hl _

theorem elements_ne_nil (n : Node ρ V) : n.elements ≠ [] :=
  List.ne_nil_of_length_pos (n.length_elements ▸ n.nelements_pos)

theorem self_mem_nodes (n : Node ρ V) : n ∈ n.nodes := by
  cases n <;> simp [nodes]

/-- An order of nodes: the leaves first, each kind as its parts are ordered. -/
def before [LinearOrder ρ] [LinearOrder V] : Node ρ V → Node ρ V → Bool
  | leaf a, leaf b => a < b
  | leaf _, branch _ _ _ => true
  | branch _ _ _, leaf _ => false
  | branch d l r, branch d' l' r' => d < d' ∨ d = d' ∧ (l.before l' ∨ l = l' ∧ r.before r')

theorem before_asymm [LinearOrder ρ] [LinearOrder V] {m : Node ρ V} :
    ∀ {n : Node ρ V}, m.before n → ¬ n.before m := by
  induction m with
  | leaf a =>
    intro n h
    cases n with
    | leaf b => simpa [before] using (of_decide_eq_true h).le
    | branch => simp [before]
  | branch d l r ihl ihr =>
    intro n h
    cases n with
    | leaf => simp [before] at h
    | branch d' l' r' =>
      simp only [before, decide_eq_true_eq] at h ⊢
      have hl := @ihl l'
      have hr := @ihr r'
      rcases h with hlt | ⟨heq, hlow | ⟨hsame, hlow⟩⟩
      · exact fun h => h.elim hlt.asymm fun h => hlt.ne h.1.symm
      · subst heq
        rintro (hlt | ⟨-, hback | ⟨hsame, -⟩⟩)
        · exact lt_irrefl d hlt
        · exact hl hlow hback
        · exact hl hlow (hsame ▸ hlow)
      · subst heq hsame
        rintro (hlt | ⟨-, hback | ⟨-, hback⟩⟩)
        · exact lt_irrefl d hlt
        · exact hl hback hback
        · exact hr hlow hback

theorem before_total [LinearOrder ρ] [LinearOrder V] {m : Node ρ V} :
    ∀ {n : Node ρ V}, m ≠ n → m.before n ∨ n.before m := by
  induction m with
  | leaf a =>
    intro n hne
    cases n with
    | leaf b => simpa [before] using lt_or_gt_of_ne fun heq : a = b => hne (congrArg leaf heq)
    | branch => exact .inl rfl
  | branch d l r ihl ihr =>
    intro n hne
    cases n with
    | leaf => exact .inr rfl
    | branch d' l' r' =>
      simp only [before, decide_eq_true_eq]
      rcases lt_trichotomy d d' with hlt | heq | hlt
      · exact .inl (.inl hlt)
      · subst heq
        by_cases hl : l = l'
        · subst hl
          have hr : r ≠ r' := fun heq => hne (heq ▸ rfl)
          exact (ihr hr).imp (fun h => .inr ⟨rfl, .inr ⟨rfl, h⟩⟩)
            fun h => .inr ⟨rfl, .inr ⟨rfl, h⟩⟩
        · exact (ihl hl).imp (fun h => .inr ⟨rfl, .inl h⟩) fun h => .inr ⟨rfl, .inl h⟩
      · exact .inr (.inl hlt)

end Node

/-- A memory whose addresses follow the order of nodes and whose containers keep theirs. -/
def Memory.ordered {ρ V : Type*} [LinearOrder ρ] [LinearOrder V] : Memory (Node ρ V) V where
  before := Node.before
  asymm _ _ := Node.before_asymm
  total _ _ := Node.before_total
  nodes := .inserted
  rows := .inserted
  columns := .inserted

/-- Of the distance between two RTSs the clusterer needs that it is symmetric and not negative. -/
structure VectorDistance (ρ V : Type*) [Zero V] [LE V] where
  between : ρ → ρ → V
  symm : ∀ a b, between a b = between b a
  nonneg : ∀ a b, 0 ≤ between a b

variable {ρ V : Type} [DecidableEq ρ] [Zero V] [LinearOrder V] {mem : Memory (Node ρ V) V}

/-- `generate_distance_matrix` sets the entry of two nodes, which must be leaves. -/
def setInitialDistance (d : VectorDistance ρ V) (c1 : Node ρ V) (D : Matrix mem) (c2 : Node ρ V) :
    Outcome (Matrix mem) :=
  match c1, c2 with
  | .leaf l1, .leaf l2 => .ok (D.set c1 c2 (d.between l1 l2))
  | _, _ => .aborts

def generateDistanceMatrix (d : VectorDistance ρ V) (clusters : List (Node ρ V)) :
    Outcome (Matrix mem) :=
  (mem.nodes.order clusters).foldlM
    (fun D c1 => (mem.nodes.order clusters).foldlM (setInitialDistance d c1) D) .empty

/-- The clusters of a run and their distance matrix. -/
structure Clustering (mem : Memory (Node ρ V) V) where
  clusters : List (Node ρ V)
  D : Matrix mem

/-- The distance of the merged cluster `cij` to another cluster `ck`. -/
def addDistance (clstd : ℕ → ℕ → ℕ → V → V → V → V) (dij : V) (ci cj cij : Node ρ V)
    (D : Matrix mem) (ck : Node ρ V) : Outcome (Matrix mem) := do
  let dik ← D.get ci ck
  let djk ← D.get cj ck
  return D.set ck cij (clstd ci.nelements cj.nelements ck.nelements dik djk dij)

/-- One round of the loop. Without a closest pair the children of the new branch are null,
and the constructor of a branch asserts that its distance is positive. -/
def mergeClosest (clstd : ℕ → ℕ → ℕ → V → V → V → V) (s : Clustering mem) :
    Outcome (Clustering mem) :=
  match s.D.minimum with
  | none => .undefined
  | some (dij, ci, cj) =>
    if 0 < dij then do
      let cij := .branch dij ci cj
      let clusters := (s.clusters.erase ci).erase cj
      let D ← (mem.nodes.order clusters).foldlM (addDistance clstd dij ci cj cij) s.D
      return ⟨clusters ++ [cij], (D.remove ci).remove cj⟩
    else .aborts

def initialClustering (mem : Memory (Node ρ V) V) (d : VectorDistance ρ V)
    (rtss : UnorderedSet ρ) : Outcome (Clustering mem) := do
  let clusters := rtss.elems.map .leaf
  let D ← generateDistanceMatrix d clusters
  return ⟨clusters, D⟩

/-- `generate_dendrogram`. As many rounds as there are RTSs are followed. -/
def generateDendrogram (mem : Memory (Node ρ V) V) (d : VectorDistance ρ V)
    (clstd : ℕ → ℕ → ℕ → V → V → V → V) (rtss : UnorderedSet ρ) : Outcome (Node ρ V) := do
  let s ← initialClustering mem d rtss
  let s ← Outcome.whileLoop (fun s => s.clusters.length != 1) (mergeClosest clstd)
    rtss.elems.length s
  Outcome.found s.clusters.head?

/-- The states that the loop reaches: each round starts with more than one cluster. -/
inductive Reaches (mem : Memory (Node ρ V) V) (d : VectorDistance ρ V)
    (clstd : ℕ → ℕ → ℕ → V → V → V → V) (rtss : UnorderedSet ρ) : Clustering mem → Prop
  | start {s : Clustering mem} (h : initialClustering mem d rtss = .ok s) :
      Reaches mem d clstd rtss s
  | round {s s' : Clustering mem} (hs : Reaches mem d clstd rtss s)
      (hmore : s.clusters.length ≠ 1) (h : mergeClosest clstd s = .ok s') :
      Reaches mem d clstd rtss s'

end ReadexPtf.Cluster
