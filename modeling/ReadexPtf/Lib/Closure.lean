import Mathlib

/-! The transitive closure of a finite relation, one pivot at a time. Pivots that
have been processed can be crossed, which carries the induction. -/
namespace ReadexPtf
open Relation
variable {α : Type*}

/-- Every route through `k` becomes an edge. -/
def throughPivot (R : α → α → Prop) (k : α) (i j : α) : Prop :=
  R i j ∨ R i k ∧ R k j

def closeOver (R : α → α → Prop) (ks : List α) : α → α → Prop :=
  ks.foldl throughPivot R

theorem closeOver_of_edge (R : α → α → Prop) (ks : List α) {i j : α} (h : R i j) :
    closeOver R ks i j := by
  induction ks generalizing R with
  | nil => exact h
  | cons k ks ih => exact ih (throughPivot R k) (.inl h)

theorem transGen_of_closeOver {R : α → α → Prop} {ks : List α} {i j : α}
    (h : closeOver R ks i j) : TransGen R i j := by
  induction ks generalizing R with
  | nil => exact .single h
  | cons k ks ih =>
    have hstep : ∀ a b, throughPivot R k a b → TransGen R a b := by
      intro a b hab
      cases hab with
      | inl hedge => exact .single hedge
      | inr hroute => exact (TransGen.single hroute.1).tail hroute.2
    exact TransGen.trans_induction_on (ih h) (fun hab => hstep _ _ hab) fun _ _ hab hbc => hab.trans hbc

/-- Crossing a pivot leaves the routes through the earlier pivots closed. -/
theorem throughPivot_crosses {R : α → α → Prop} {k p : α}
    (hp : p = k ∨ ∀ i j, R i p → R p j → R i j) {i j : α}
    (hip : throughPivot R k i p) (hpj : throughPivot R k p j) : throughPivot R k i j := by
  cases hp with
  | inl heq =>
    have hik : R i k := by
      cases hip with
      | inl hedge => exact heq ▸ hedge
      | inr hroute => exact hroute.1
    have hkj : R k j := by
      cases hpj with
      | inl hedge => exact heq ▸ hedge
      | inr hroute => exact hroute.2
    exact .inr ⟨hik, hkj⟩
  | inr hcross =>
    cases hip with
    | inl hedge =>
      cases hpj with
      | inl hedge' => exact .inl (hcross i j hedge hedge')
      | inr hroute => exact .inr ⟨hcross i k hedge hroute.1, hroute.2⟩
    | inr hroute =>
      cases hpj with
      | inl hedge' => exact .inr ⟨hroute.1, hcross k j hroute.2 hedge'⟩
      | inr hroute' => exact .inr ⟨hroute.1, hroute'.2⟩

theorem closeOver_crosses {R : α → α → Prop} {ks : List α} {p : α}
    (hp : p ∈ ks ∨ ∀ i j, R i p → R p j → R i j) {i j : α}
    (hip : closeOver R ks i p) (hpj : closeOver R ks p j) : closeOver R ks i j := by
  induction ks generalizing R with
  | nil => exact hp.resolve_left (List.not_mem_nil) i j hip hpj
  | cons k ks ih =>
    refine ih ?_ hip hpj
    cases hp with
    | inl hmem =>
      cases List.mem_cons.mp hmem with
      | inl hself => exact .inr fun i j => throughPivot_crosses (.inl hself)
      | inr hrest => exact .inl hrest
    | inr hcross => exact .inr fun i j => throughPivot_crosses (.inr hcross)

/-- Closing over all elements that edges enter gives the transitive closure. -/
theorem closeOver_iff {R : α → α → Prop} {ks : List α} (hks : ∀ i j, R i j → j ∈ ks) {i j : α} :
    closeOver R ks i j ↔ TransGen R i j := by
  refine ⟨transGen_of_closeOver, fun h => ?_⟩
  induction h with
  | single hedge => exact closeOver_of_edge R ks hedge
  | tail _ hedge ih =>
    rename_i b c hib
    have hb : b ∈ ks := by
      cases hib with
      | single h => exact hks _ _ h
      | tail _ h => exact hks _ _ h
    exact closeOver_crosses (.inl hb) ih (closeOver_of_edge R ks hedge)

end ReadexPtf
