import Mathlib

/-! Messages that arrive from a fixed set of senders, one from each, in any order. -/
namespace ReadexPtf
variable {α : Type*} {senders order first rest : List α}

/-- Every sender has arrived exactly when nothing is left. -/
theorem subset_arrived_iff (hsenders : senders.Nodup) (horder : order.Perm senders)
    (hsplit : order = first ++ rest) : senders ⊆ first ↔ rest = [] := by
  subst hsplit
  constructor
  · intro h
    apply List.eq_nil_iff_forall_not_mem.mpr
    intro sender hrest
    have hsender : sender ∈ senders := horder.subset (List.mem_append_right first hrest)
    exact List.disjoint_of_nodup_append (horder.nodup_iff.mpr hsenders) (h hsender) hrest
  · intro h sender hsender
    have harrived := horder.symm.subset hsender
    rwa [h, List.append_nil] at harrived

/-- Nothing is left once the last one has arrived. -/
theorem rest_eq_nil_of_last {sender : α} (horder : (first ++ rest).Nodup)
    (hlast : (first ++ rest).getLast? = some sender) (harrived : sender ∈ first) : rest = [] := by
  by_contra hne
  have hrest : sender ∈ rest := by
    rw [List.getLast?_append_of_ne_nil first hne] at hlast
    exact List.mem_of_getLast? hlast
  exact List.disjoint_of_nodup_append horder harrived hrest

section Marks
variable [DecidableEq α]

/-- Each sender with the flag whether it has arrived. -/
def marks (senders arrived : List α) : List (α × Bool) :=
  senders.map fun sender => (sender, decide (sender ∈ arrived))

theorem marks_all : (marks senders first).all Prod.snd = true ↔ senders ⊆ first := by
  simp only [marks, List.all_map, List.all_eq_true, Function.comp_apply, decide_eq_true_eq]
  exact Iff.rfl

/-- The flag of one sender is set. -/
theorem marks_snoc (sender : α) :
    marks senders (first ++ [sender]) =
      (marks senders first).map fun mark => (mark.1, mark.2 || decide (mark.1 = sender)) := by
  simp only [marks, List.map_map]
  apply List.map_congr_left
  intro other _
  simp only [Function.comp_apply, List.mem_append, List.mem_singleton, Prod.mk.injEq, true_and]
  by_cases hfirst : other ∈ first <;> by_cases hsender : other = sender <;>
    simp [hfirst, hsender]

/-- The senders before one of them have all arrived. -/
theorem marks_takeWhile (sender : α) :
    ((marks senders first).takeWhile fun mark => mark.1 ≠ sender).all Prod.snd = true ↔
      (senders.takeWhile fun other => other ≠ sender) ⊆ first := by
  rw [← marks_all, marks, List.takeWhile_map]
  rfl

end Marks
end ReadexPtf
