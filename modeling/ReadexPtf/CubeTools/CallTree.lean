import Mathlib

/-! The call tree of a Cube profile and the measurements the tools read from it.
Nodes are numbered so that a caller comes before its callees. -/
namespace ReadexPtf.CubeTools
open Relation

structure CallTree where
  size : Nat
  callee : Fin size → String
  parent : Fin size → Option (Fin size)
  parent_lt : ∀ c p, parent c = some p → p < c

namespace CallTree

abbrev Cnode (t : CallTree) := Fin t.size

variable (t : CallTree)

/-- `c` is a proper descendant of `p`. -/
def Below (p c : t.Cnode) : Prop := TransGen (fun p c => t.parent c = some p) p c

def children (p : t.Cnode) : List t.Cnode :=
  (List.finRange t.size).filter fun c => t.parent c = some p

/-- The callers of a node, its parent first; `n` bounds their number. -/
def callers : Nat → t.Cnode → List t.Cnode
  | 0, _ => []
  | n + 1, c =>
    match t.parent c with
    | none => []
    | some p => p :: callers n p

/-- The descendants of a node in the order of their numbers. -/
def descendants (p : t.Cnode) : List t.Cnode :=
  (List.finRange t.size).filter fun c => p ∈ t.callers t.size c

variable {t}

theorem Below.lt {p c : t.Cnode} (h : t.Below p c) : p < c := by
  induction h with
  | single hp => exact t.parent_lt _ _ hp
  | tail _ hp ih => exact ih.trans (t.parent_lt _ _ hp)

theorem mem_callers {n : Nat} {p c : t.Cnode} (hn : c.val ≤ n) :
    p ∈ t.callers n c ↔ t.Below p c := by
  induction n generalizing c with
  | zero =>
    refine ⟨fun h => absurd h List.not_mem_nil, fun h => ?_⟩
    have hlt : p.val < c.val := h.lt
    omega
  | succ n ih =>
    rw [callers, Below, TransGen.tail'_iff]
    cases hparent : t.parent c with
    | none => simp
    | some q =>
      have hlt : q.val < c.val := t.parent_lt c q hparent
      have hq := ih (c := q) (by omega)
      simp only [List.mem_cons, hq, Option.some.injEq]
      rw [Below, eq_comm (a := p), ← reflTransGen_iff_eq_or_transGen]
      constructor
      · exact fun h => ⟨q, h, rfl⟩
      · intro ⟨q', h, heq⟩
        exact heq ▸ h

theorem mem_descendants {p c : t.Cnode} : c ∈ t.descendants p ↔ t.Below p c := by
  simp [descendants, mem_callers c.isLt.le]

end CallTree

/-- What is measured for the metric `time`: the fields of the TAU tuples where the
profile stores tuples, and the inclusive and exclusive severities elsewhere. -/
structure Cube (t : CallTree) (V : Type) where
  tauAtomic : t.Cnode → Bool
  tauN : t.Cnode → V
  tauAvg : t.Cnode → V
  tauSum : t.Cnode → V
  inclusive : t.Cnode → V
  exclusive : t.Cnode → V

/-- What Cube's `get_whole_subtree` promises: a node's descendants, in some order, with or
without the node itself. -/
structure WholeSubtree {t : CallTree} (get_whole_subtree : t.Cnode → List t.Cnode) : Prop where
  descendant : ∀ c d, t.Below c d → d ∈ get_whole_subtree c
  only : ∀ c, ∀ d ∈ get_whole_subtree c, d = c ∨ t.Below c d

theorem wholeSubtree_descendants (t : CallTree) : WholeSubtree t.descendants where
  descendant := fun _ _ h => CallTree.mem_descendants.mpr h
  only := fun _ _ h => .inr (CallTree.mem_descendants.mp h)

end ReadexPtf.CubeTools
