import Mathlib

/-! Orders that the C++ standard leaves open: the iteration order of an unordered
container, and where `std::sort` puts elements that compare equal. -/
namespace ReadexPtf
variable {α : Type*}

/-- One way to run through the elements of a container. -/
structure Traversal (α : Type*) where
  order : List α → List α
  perm : ∀ l, (order l).Perm l

namespace Traversal

/-- The elements in the order they were put in. -/
def inserted : Traversal α := ⟨fun l => l, fun _ => .refl _⟩
/-- The latest element first, as a chained hash table with one bucket runs. -/
def reverse : Traversal α := ⟨List.reverse, List.reverse_perm⟩

@[simp] theorem mem_order (t : Traversal α) {l : List α} {a : α} : a ∈ t.order l ↔ a ∈ l :=
  (t.perm l).mem_iff

@[simp] theorem length_order (t : Traversal α) (l : List α) : (t.order l).length = l.length :=
  (t.perm l).length_eq

/-- A permutation of images is the image of a permutation. -/
theorem exists_of_perm_map {β : Type*} {f : α → β} {l : List α} {ys : List β}
    (h : ys.Perm (l.map f)) : ∃ l' : List α, l'.Perm l ∧ ys = l'.map f := by
  induction ys generalizing l with
  | nil => exact ⟨[], by simpa using h, rfl⟩
  | cons y ys ih =>
    obtain ⟨a, ha, hy⟩ := List.mem_map.mp (h.mem_iff.mp List.mem_cons_self)
    obtain ⟨pre, post, hl⟩ := List.append_of_mem ha
    have hrest : ys.Perm ((pre ++ post).map f) := by
      rw [hl, List.map_append, List.map_cons, hy] at h
      rw [List.map_append]
      exact (h.trans List.perm_middle).cons_inv
    obtain ⟨l', hl', hys⟩ := ih hrest
    refine ⟨a :: l', ?_, by rw [hys, List.map_cons, hy]⟩
    rw [hl]
    exact (hl'.cons a).trans List.perm_middle.symm

/-- `std::sort` with the comparison `lt`: equal elements come in the traversal's order. -/
def sort (t : Traversal α) (lt : α → α → Prop) [DecidableRel lt] (l : List α) : List α :=
  (t.order l).insertionSort fun a b => ¬ lt b a

theorem sort_perm (t : Traversal α) (lt : α → α → Prop) [DecidableRel lt] (l : List α) :
    (t.sort lt l).Perm l :=
  (List.perm_insertionSort _ _).trans (t.perm l)

/-- Sorting by a key of a linear order. -/
theorem sort_pairwise {κ : Type*} [LinearOrder κ] (t : Traversal α) (key : α → κ) (l : List α) :
    (t.sort (fun a b => key a < key b) l).Pairwise fun a b => key a ≤ key b := by
  have : Std.Total fun a b => ¬ key b < key a :=
    ⟨fun a b => by simpa only [not_lt] using le_total (key a) (key b)⟩
  have : IsTrans α fun a b => ¬ key b < key a :=
    ⟨fun a b c hab hbc => not_lt.mpr ((not_lt.mp hab).trans (not_lt.mp hbc))⟩
  exact (List.pairwise_insertionSort _ _).imp not_lt.mp

end Traversal
end ReadexPtf
