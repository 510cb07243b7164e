import Mathlib

/-! Groups of a list around first representatives: the first element takes the later ones that
are similar to it, and the others are grouped likewise. -/
namespace ReadexPtf
variable {α : Type*}

/-- What is left for the other groups. -/
def dissimilar (similar : α → α → Bool) (a : α) (list : List α) : List α :=
  list.filter fun b => !similar a b

def groups (similar : α → α → Bool) : List α → List (α × List α)
  | [] => []
  | a :: rest => (a, rest.filter (similar a)) :: groups similar (dissimilar similar a rest)
termination_by list => list.length
decreasing_by exact Nat.lt_succ_of_le (List.length_filter_le _ _)

variable {similar : α → α → Bool}

@[simp] theorem groups_nil : groups similar [] = [] := by rw [groups]

theorem groups_cons (a : α) (rest : List α) :
    groups similar (a :: rest) =
      (a, rest.filter (similar a)) :: groups similar (dissimilar similar a rest) := by
  rw [groups]

theorem perm_groups (list : List α) :
    ((groups similar list).flatMap fun group => group.1 :: group.2).Perm list := by
  induction list using groups.induct similar with
  | case1 => rw [groups_nil, List.flatMap_nil]
  | case2 a rest ih =>
    rw [groups_cons, List.flatMap_cons, List.cons_append]
    exact .cons a ((ih.append_left _).trans (List.filter_append_perm _ _))

theorem similar_of_mem_groups {list : List α} {group : α × List α}
    (h : group ∈ groups similar list) : ∀ b ∈ group.2, similar group.1 b = true := by
  induction list using groups.induct similar with
  | case1 =>
    rw [groups_nil] at h
    cases h
  | case2 a rest ih =>
    rw [groups_cons, List.mem_cons] at h
    cases h with
    | inl h =>
      rw [h]
      exact fun b hb => (List.mem_filter.mp hb).2
    | inr h => exact ih h

theorem mem_of_mem_groups {list : List α} {group : α × List α}
    (h : group ∈ groups similar list) : ∀ b ∈ group.1 :: group.2, b ∈ list := fun _ hb =>
  (perm_groups list).subset (List.mem_flatMap.mpr ⟨group, h, hb⟩)

/-- Every element is in a group. -/
theorem exists_group {list : List α} {a : α} (h : a ∈ list) :
    ∃ group ∈ groups similar list, a ∈ group.1 :: group.2 :=
  List.mem_flatMap.mp ((perm_groups list).symm.subset h)

/-- Grouping by what a function reads of the elements. -/
theorem groups_map {β : Type*} {f : β → α} (list : List β) :
    groups similar (list.map f) =
      (groups (fun a b => similar (f a) (f b)) list).map (Prod.map f (List.map f)) := by
  induction list using groups.induct (fun a b => similar (f a) (f b)) with
  | case1 => rw [List.map_nil, groups_nil, groups_nil, List.map_nil]
  | case2 a rest ih =>
    have hrest : dissimilar similar (f a) (rest.map f) =
        (dissimilar (fun a b => similar (f a) (f b)) a rest).map f := by
      rw [dissimilar, dissimilar, List.filter_map]
      rfl
    rw [List.map_cons, groups_cons, groups_cons, List.map_cons, hrest, ih, List.filter_map]
    rfl

/-- A list of results, one for each element. -/
theorem exists_forall₂ {β : Type*} {r : α → β → Prop} {as : List α}
    (h : ∀ a ∈ as, ∃ b, r a b) : ∃ bs, List.Forall₂ r as bs := by
  induction as with
  | nil => exact ⟨[], .nil⟩
  | cons a as ih =>
    obtain ⟨hfirst, hrest⟩ := List.forall_mem_cons.mp h
    obtain ⟨b, hb⟩ := hfirst
    obtain ⟨bs, hbs⟩ := ih hrest
    exact ⟨b :: bs, .cons hb hbs⟩

theorem forall₂_and {β : Type*} {r s : α → β → Prop} {as : List α} {bs : List β}
    (hr : List.Forall₂ r as bs) (hs : List.Forall₂ s as bs) :
    List.Forall₂ (fun a b => r a b ∧ s a b) as bs := by
  induction hr with
  | nil => exact .nil
  | cons hfirst _ ih =>
    cases hs with
    | cons hfirst' hs => exact .cons ⟨hfirst, hfirst'⟩ (ih hs)

/-- Several lists of results, one for each index. -/
theorem forall_forall₂_iff {β ι : Type*} {m : ι → α → β → Prop} {r : α → β → Prop} {p : α → Prop}
    {as : List α} {bs : ι → List β} (hm : ∀ i, List.Forall₂ (m i) as (bs i))
    (h : ∀ a ∈ as, ∀ b : ι → β, (∀ i, m i a (b i)) → ((∀ i, r a (b i)) ↔ p a)) :
    (∀ i, List.Forall₂ r as (bs i)) ↔ ∀ a ∈ as, p a := by
  induction as generalizing bs with
  | nil =>
    have hnil : ∀ i, bs i = [] := fun i => List.forall₂_nil_left_iff.mp (hm i)
    simp [hnil]
  | cons a as ih =>
    choose b bs' hfirst hrest hbs using fun i => List.forall₂_cons_left_iff.mp (hm i)
    rw [List.forall_mem_cons, ← h a List.mem_cons_self b hfirst,
      ← ih hrest fun a' ha' => h a' (List.mem_cons_of_mem a ha'), ← forall_and]
    simp only [hbs, List.forall₂_cons]

/-- What is related to an element of the first list is in the second one. -/
theorem exists_of_forall₂ {β : Type*} {r : α → β → Prop} {as : List α} {bs : List β}
    (h : List.Forall₂ r as bs) {a : α} (ha : a ∈ as) : ∃ b ∈ bs, r a b := by
  induction h with
  | nil => cases ha
  | @cons a' b' as bs hfirst _ ih =>
    cases List.mem_cons.mp ha with
    | inl heq => exact ⟨b', List.mem_cons_self, heq ▸ hfirst⟩
    | inr hrest =>
      obtain ⟨b, hb, hr⟩ := ih hrest
      exact ⟨b, List.mem_cons_of_mem b' hb, hr⟩

end ReadexPtf
