import Mathlib

/-! Finite forests, given by the children of each node, and values that go up in them. -/
namespace ReadexPtf
universe u v

structure Forest (α : Type u) where
  nodes : Finset α
  children : α → List α
  children_mem : ∀ {a c}, c ∈ children a → c ∈ nodes
  nodup : ∀ a, (children a).Nodup
  parent_unique : ∀ {a b c}, c ∈ children a → c ∈ children b → a = b
  height : α → ℕ
  height_lt : ∀ {a c}, c ∈ children a → height c < height a

namespace Forest
variable {α : Type u} (forest : Forest α)

def Leaf (a : α) : Prop := forest.children a = []

/-- A node without parent. -/
def Root (a : α) : Prop := a ∈ forest.nodes ∧ ∀ b, a ∉ forest.children b

/-- A node and those under it. -/
def Below : α → α → Prop := Relation.ReflTransGen fun a c => c ∈ forest.children a

variable {forest}

theorem ne_of_mem {a c : α} (h : c ∈ forest.children a) : c ≠ a := by
  intro heq
  have hlt := forest.height_lt h
  rw [heq] at hlt
  omega

/-- From the leaves up. -/
theorem induction {p : α → Prop} (hleaf : ∀ a, forest.Leaf a → p a)
    (hinner : ∀ a, ¬forest.Leaf a → (∀ c ∈ forest.children a, p c) → p a) (a : α) : p a := by
  induction hheight : forest.height a using Nat.strong_induction_on generalizing a with
  | _ height ih =>
    by_cases h : forest.Leaf a
    · exact hleaf a h
    · exact hinner a h fun c hc => ih _ (hheight ▸ forest.height_lt hc) c rfl

theorem below_child {a c b : α} (hc : c ∈ forest.children a) (h : forest.Below c b) :
    forest.Below a b :=
  .head hc h

theorem below_cases {a b : α} (h : forest.Below a b) :
    b = a ∨ ∃ c ∈ forest.children a, forest.Below c b := by
  cases Relation.ReflTransGen.cases_head h with
  | inl h => exact .inl h.symm
  | inr h => exact .inr h

/-- Where every inner node's value is the greatest of its children's, a root's value is the
greatest of the leaves'. -/
theorem isGreatest_leaves {β : Type v} [Preorder β] {value : α → Option β}
    (hinner : ∀ a r, ¬forest.Leaf a → value a = some r →
      (∀ c ∈ forest.children a, ∃ q, value c = some q) ∧
        IsGreatest { q | ∃ c ∈ forest.children a, value c = some q } r) :
    ∀ a r, value a = some r →
      (∀ leaf, forest.Leaf leaf → forest.Below a leaf → ∃ q, value leaf = some q) ∧
        IsGreatest { q | ∃ leaf, forest.Leaf leaf ∧ forest.Below a leaf ∧
          value leaf = some q } r := by
  intro a
  induction a using forest.induction with
  | hleaf a h =>
    intro r hr
    have honly : ∀ leaf, forest.Below a leaf → leaf = a := by
      intro leaf hleaf
      cases below_cases hleaf with
      | inl h => exact h
      | inr hc =>
        obtain ⟨c, hc, -⟩ := hc
        rw [h] at hc
        cases hc
    refine ⟨fun leaf _ hbelow => ⟨r, honly leaf hbelow ▸ hr⟩, ⟨a, h, .refl, hr⟩, ?_⟩
    intro q ⟨leaf, _, hbelow, hq⟩
    rw [honly leaf hbelow, hr] at hq
    exact le_of_eq (Option.some.inj hq).symm
  | hinner a h ih =>
    intro r hr
    obtain ⟨hchildren, ⟨c, hc, hcr⟩, hle⟩ := hinner a r h hr
    -- a leaf under an inner node is under one of its children
    have hunder : ∀ leaf, forest.Leaf leaf → forest.Below a leaf →
        ∃ c ∈ forest.children a, forest.Below c leaf := by
      intro leaf hleaf hbelow
      cases below_cases hbelow with
      | inl heq => exact absurd (heq ▸ hleaf) h
      | inr hc => exact hc
    refine ⟨fun leaf hleaf hbelow => ?_, ?_, ?_⟩
    · obtain ⟨c, hc, hbelow⟩ := hunder leaf hleaf hbelow
      obtain ⟨q, hq⟩ := hchildren c hc
      exact (ih c hc q hq).1 leaf hleaf hbelow
    · obtain ⟨leaf, hleaf, hbelow, hq⟩ := (ih c hc r hcr).2.1
      exact ⟨leaf, hleaf, below_child hc hbelow, hq⟩
    · intro q ⟨leaf, hleaf, hbelow, hq⟩
      obtain ⟨c, hc, hbelow⟩ := hunder leaf hleaf hbelow
      obtain ⟨r', hr'⟩ := hchildren c hc
      exact ((ih c hc r' hr').2.2 ⟨leaf, hleaf, hbelow, hq⟩).trans (hle ⟨c, hc, hr'⟩)

end Forest
end ReadexPtf
