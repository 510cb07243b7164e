import Mathlib

/-! Peeling a finite directed graph. A round takes out the vertices without an edge to
a remaining one and, with those among them that are kept, everything that leads there.
Rounds get stuck on a cycle that leads to no kept vertex, and on nothing else. -/
namespace ReadexPtf.Peeling
open Relation
variable {α : Type*} (E : α → α → Prop) (P : α → Prop)

/-- No edge leads from `b` to a vertex of `M`. -/
def Leaf (M : Finset α) (b : α) : Prop := b ∈ M ∧ ∀ c ∈ M, ¬ E b c

/-- A route inside `M`. -/
def Within (M : Finset α) : α → α → Prop := TransGen fun x y => E x y ∧ x ∈ M ∧ y ∈ M

/-- What a round takes out of `M`. -/
def Peeled (M : Finset α) (a : α) : Prop := Leaf E M a ∨ ∃ b, Leaf E M b ∧ P b ∧ Within E M a b

/-- One round. -/
def Round (M M' : Finset α) : Prop := ∀ a, a ∈ M' ↔ a ∈ M ∧ ¬ Peeled E P M a

/-- No cycle can be reached. -/
def Acyclic (x : α) : Prop := ∀ c, ReflTransGen E x c → ¬ TransGen E c c

/-- Nothing below is kept, and no cycle can be reached: the vertex becomes a leaf. -/
def Quiet (x : α) : Prop := Acyclic E x ∧ ∀ c, TransGen E x c → ¬ P c

/-- The edges among the vertices of `M₀`. -/
def Among (M₀ : Finset α) (x y : α) : Prop := E x y ∧ x ∈ M₀ ∧ y ∈ M₀

variable {E P}

theorem leaf_among {M₀ M : Finset α} (h : M ⊆ M₀) {b : α} :
    Leaf (Among E M₀) M b ↔ Leaf E M b := by
  refine and_congr_right fun hb => forall₂_congr fun c hc => not_congr ?_
  exact ⟨fun hedge => hedge.1, fun hedge => ⟨hedge, h hb, h hc⟩⟩

theorem within_among {M₀ M : Finset α} (h : M ⊆ M₀) {a b : α} :
    Within (Among E M₀) M a b ↔ Within E M a b := by
  have hedge : (fun x y => Among E M₀ x y ∧ x ∈ M ∧ y ∈ M) = fun x y => E x y ∧ x ∈ M ∧ y ∈ M := by
    funext x y
    exact propext ⟨fun hxy => ⟨hxy.1.1, hxy.2⟩, fun hxy => ⟨⟨hxy.1, h hxy.2.1, h hxy.2.2⟩, hxy.2⟩⟩
  rw [Within, Within, hedge]

theorem peeled_among {M₀ M : Finset α} (h : M ⊆ M₀) {a : α} :
    Peeled (Among E M₀) P M a ↔ Peeled E P M a := by
  simp only [Peeled, leaf_among h, within_among h]

theorem Within.transGen {M : Finset α} {a b : α} (h : Within E M a b) : TransGen E a b :=
  TransGen.mono (fun _ _ hab => hab.1) a b h

theorem Acyclic.of_reaches {x y : α} (h : Acyclic E x) (hxy : TransGen E x y) : Acyclic E y :=
  fun c hc => h c (hxy.to_reflTransGen.trans hc)

theorem Quiet.of_reaches {x y : α} (h : Quiet E P x) (hxy : TransGen E x y) :
    Quiet E P y ∧ ¬ P y :=
  ⟨⟨h.1.of_reaches hxy, fun c hc => h.2 c (hxy.trans hc)⟩, h.2 y hxy⟩

/-- Quiet vertices that are not kept, one edge further down, make a vertex quiet. -/
theorem quiet_of_edges {x : α} (h : ∀ y, E x y → Quiet E P y ∧ ¬ P y) : Quiet E P x := by
  have hbelow : ∀ c, TransGen E x c → Acyclic E c ∧ ¬ P c := by
    intro c hc
    obtain ⟨y, hxy, hyc⟩ := TransGen.head'_iff.mp hc
    obtain ⟨hquiet, hy⟩ := h y hxy
    cases reflTransGen_iff_eq_or_transGen.mp hyc with
    | inl heq => exact heq ▸ ⟨hquiet.1, hy⟩
    | inr htrans => exact ⟨hquiet.1.of_reaches htrans, hquiet.2 c htrans⟩
  refine ⟨fun c hc hcycle => ?_, fun c hc => (hbelow c hc).2⟩
  cases reflTransGen_iff_eq_or_transGen.mp hc with
  | inl heq => exact (hbelow c (heq ▸ hcycle)).1 c .refl hcycle
  | inr htrans => exact (hbelow c htrans).1 c .refl hcycle

/-- What rounds that began with `M₀` have left: a removed vertex is quiet or leads to a
kept one that is, and an edge out of `M` ends in a quiet vertex that is not kept. -/
structure Remaining (E : α → α → Prop) (P : α → Prop) (M₀ M : Finset α) : Prop where
  subset : M ⊆ M₀
  removed : ∀ x ∈ M₀, x ∉ M → Quiet E P x ∨ ∃ b, TransGen E x b ∧ Quiet E P b ∧ P b
  edges : ∀ x ∈ M, ∀ y, E x y → y ∈ M ∨ Quiet E P y ∧ ¬ P y

theorem Remaining.refl {M₀ : Finset α} (hE : ∀ x y, E x y → y ∈ M₀) : Remaining E P M₀ M₀ where
  subset := Finset.Subset.refl _
  removed := fun _ h hn => absurd h hn
  edges := fun _ _ y h => .inl (hE _ y h)

theorem Remaining.quiet_of_leaf {M₀ M : Finset α} (h : Remaining E P M₀ M) {b : α}
    (hb : Leaf E M b) : Quiet E P b :=
  quiet_of_edges fun y hy => (h.edges b hb.1 y hy).resolve_left fun hmem => hb.2 y hmem hy

/-- A round keeps the invariant. -/
theorem Remaining.round {M₀ M M' : Finset α} (h : Remaining E P M₀ M) (hround : Round E P M M') :
    Remaining E P M₀ M' where
  subset := fun x hx => h.subset ((hround x).mp hx).1
  removed := by
    intro x hx hx'
    by_cases hmem : x ∈ M
    · have hpeeled : Peeled E P M x := by
        by_contra hnot
        exact hx' ((hround x).mpr ⟨hmem, hnot⟩)
      cases hpeeled with
      | inl hleaf => exact .inl (h.quiet_of_leaf hleaf)
      | inr hroute =>
        obtain ⟨b, hleaf, hb, hwithin⟩ := hroute
        exact .inr ⟨b, hwithin.transGen, h.quiet_of_leaf hleaf, hb⟩
    · exact h.removed x hx hmem
  edges := by
    intro x hx y hxy
    obtain ⟨hxM, hnot⟩ := (hround x).mp hx
    cases h.edges x hxM y hxy with
    | inr hdone => exact .inr hdone
    | inl hyM =>
      by_cases hyM' : y ∈ M'
      · exact .inl hyM'
      · have hpeeled : Peeled E P M y := by
          by_contra hnoty
          exact hyM' ((hround y).mpr ⟨hyM, hnoty⟩)
        have hedge : Within E M x y := .single ⟨hxy, hxM, hyM⟩
        -- a kept leaf at `y` or below it would have taken `x` along
        cases hpeeled with
        | inl hleaf =>
          refine .inr ⟨h.quiet_of_leaf hleaf, fun hy => hnot (.inr ⟨y, hleaf, hy, hedge⟩)⟩
        | inr hroute =>
          obtain ⟨b, hleaf, hb, hwithin⟩ := hroute
          exact absurd (.inr ⟨b, hleaf, hb, hedge.trans hwithin⟩) hnot

/-- From a remaining vertex a route stays among the remaining ones or ends quietly. -/
theorem Remaining.reaches {M₀ M : Finset α} (h : Remaining E P M₀ M) {x y : α} (hx : x ∈ M)
    (hxy : TransGen E x y) : y ∈ M ∧ Within E M x y ∨ Quiet E P y ∧ ¬ P y := by
  induction hxy with
  | single hedge =>
    exact (h.edges x hx _ hedge).imp_left fun hy => ⟨hy, .single ⟨hedge, hx, hy⟩⟩
  | tail _ hedge ih =>
    cases ih with
    | inl hin =>
      exact (h.edges _ hin.1 _ hedge).imp_left fun hc => ⟨hc, hin.2.tail ⟨hedge, hin.1, hc⟩⟩
    | inr hquiet => exact .inr (hquiet.1.of_reaches (.single hedge))

/-- A quiet vertex that a round takes out was a leaf. -/
theorem leaf_of_quiet {M M' : Finset α} (hround : Round E P M M') {x : α} (hx : x ∈ M)
    (hx' : x ∉ M') (hquiet : Quiet E P x) : Leaf E M x := by
  have hpeeled : Peeled E P M x := by
    by_contra hnot
    exact hx' ((hround x).mpr ⟨hx, hnot⟩)
  cases hpeeled with
  | inl hleaf => exact hleaf
  | inr hroute =>
    obtain ⟨b, -, hb, hwithin⟩ := hroute
    exact absurd hb (hquiet.2 b hwithin.transGen)

/-- Induction along the routes below acyclic vertices. -/
theorem acyclic_induction {M₀ : Finset α} (hE : ∀ x y, E x y → y ∈ M₀) {C : α → Prop}
    (step : ∀ x, Acyclic E x → (∀ y, TransGen E x y → C y) → C x) :
    ∀ x, Acyclic E x → C x := by
  classical
  have hmem : ∀ x y, TransGen E x y → y ∈ M₀ := by
    intro x y hxy
    obtain ⟨z, -, hzy⟩ := TransGen.tail'_iff.mp hxy
    exact hE z y hzy
  -- the vertices below `x` are more than those below anything it leads to
  have hfewer : ∀ x, Acyclic E x → ∀ y, TransGen E x y →
      (M₀.filter (TransGen E y)).card < (M₀.filter (TransGen E x)).card := by
    intro x hx y hxy
    refine Finset.card_lt_card (Finset.ssubset_iff_of_subset ?_ |>.mpr ⟨y, ?_, ?_⟩)
    · exact Finset.monotone_filter_right M₀ fun c _ hc => hxy.trans hc
    · exact Finset.mem_filter.mpr ⟨hmem x y hxy, hxy⟩
    · exact fun hy => hx y hxy.to_reflTransGen (Finset.mem_filter.mp hy).2
  intro x
  induction hn : (M₀.filter (TransGen E x)).card using Nat.strong_induction_on generalizing x with
  | _ n ih =>
    intro hx
    exact step x hx fun y hxy => ih _ (hn ▸ hfewer x hx y hxy) y rfl (hx.of_reaches hxy)

/-- Below an acyclic vertex that is kept there is a quiet one that is kept. -/
theorem exists_kept {M₀ : Finset α} (hE : ∀ x y, E x y → y ∈ M₀) {x : α} (hx : Acyclic E x)
    (hP : P x) : ∃ b, ReflTransGen E x b ∧ Quiet E P b ∧ P b := by
  refine acyclic_induction hE (C := fun x => P x → ∃ b, ReflTransGen E x b ∧ Quiet E P b ∧ P b)
    (fun x hx ih hP => ?_) x hx hP
  by_cases hquiet : ∀ c, TransGen E x c → ¬ P c
  · exact ⟨x, .refl, ⟨hx, hquiet⟩, hP⟩
  · obtain ⟨c, hxc, hc⟩ : ∃ c, TransGen E x c ∧ P c := by simpa using hquiet
    obtain ⟨b, hcb, hb⟩ := ih c hxc hc
    exact ⟨b, hxc.to_reflTransGen.trans hcb, hb⟩

/-- As long as an acyclic vertex remains, the next round has a leaf. -/
theorem exists_leaf {M₀ M : Finset α} (hE : ∀ x y, E x y → y ∈ M₀) {x : α} (hx : Acyclic E x)
    (hmem : x ∈ M) : ∃ b, Leaf E M b := by
  refine acyclic_induction hE (C := fun x => x ∈ M → ∃ b, Leaf E M b)
    (fun x _ ih hmem => ?_) x hx hmem
  by_cases hleaf : ∀ c ∈ M, ¬ E x c
  · exact ⟨x, hmem, hleaf⟩
  · obtain ⟨c, hc, hxc⟩ : ∃ c ∈ M, E x c := by simpa using hleaf
    exact ih c (.single hxc) hc

/-- Rounds that are stuck have left a cycle that leads to no acyclic kept vertex. -/
theorem Remaining.cycle_of_stuck {M₀ M : Finset α} (hE : ∀ x y, E x y → y ∈ M₀)
    (h : Remaining E P M₀ M) (hstuck : ∀ b, ¬ Leaf E M b) {x : α} (hx : x ∈ M) :
    ∃ z ∈ M, TransGen E z z ∧ ∀ b, TransGen E z b → Acyclic E b → ¬ P b := by
  have hnone : ∀ y ∈ M, ¬ Acyclic E y := fun y hy hacyclic =>
    (exists_leaf hE hacyclic hy).elim hstuck
  obtain ⟨z, hxz, hz⟩ : ∃ z, ReflTransGen E x z ∧ TransGen E z z := by
    by_contra hnot
    exact hnone x hx fun c hc hcycle => hnot ⟨c, hc, hcycle⟩
  have hzM : z ∈ M := by
    cases reflTransGen_iff_eq_or_transGen.mp hxz with
    | inl heq => exact heq ▸ hx
    | inr htrans =>
      cases h.reaches hx htrans with
      | inl hin => exact hin.1
      | inr hquiet => exact absurd hz (hquiet.1.1 z .refl)
  refine ⟨z, hzM, hz, fun b hzb hb hP => ?_⟩
  obtain ⟨c, hbc, hquiet, hc⟩ := exists_kept hE hb hP
  have hzc : TransGen E z c := hzb.trans_left hbc
  cases h.reaches hzM hzc with
  | inl hin => exact hnone c hin.1 hquiet.1
  | inr hdone => exact hdone.2 hc

end ReadexPtf.Peeling
