import ReadexPtf.Lib.Forest
import Mathlib

/-! Waves that go down a forest from one node and come back up: a node passes a wave on when it
begins it, and answers it once all its children have answered. -/
namespace ReadexPtf
universe u v

/-- Wave 0 is begun everywhere. The parent of a node has told it of waves and heard answers. -/
structure Waves (α : Type u) (W : Type v) where
  begun : α → List W
  told : α → List W
  answered : α → ℕ
  heard : α → ℕ

namespace Waves
variable {α : Type u} {W : Type v}

@[ext] theorem ext {x y : Waves α W} (hbegun : x.begun = y.begun) (htold : x.told = y.told)
    (hanswered : x.answered = y.answered) (hheard : x.heard = y.heard) : x = y := by
  cases x
  cases y
  cases hbegun
  cases htold
  cases hanswered
  cases hheard
  rfl

/-- No wave but 0, and this one still goes on. -/
def opened : Waves α W := ⟨fun _ => [], fun _ => [], fun _ => 0, fun _ => 0⟩

section Steps
variable [DecidableEq α] (forest : Forest α) (top : α)

def pass (waves : Waves α W) (a : α) (wave : W) (told : List α) : Waves α W :=
  { waves with
    begun := fun b => if b = a then waves.begun b ++ [wave] else waves.begun b
    told := fun b => if b ∈ told then waves.told b ++ [wave] else waves.told b }

def answer (waves : Waves α W) (a : α) : Waves α W :=
  { waves with answered := fun b => if b = a then waves.answered b + 1 else waves.answered b }

def hear (waves : Waves α W) (a : α) : Waves α W :=
  { waves with heard := fun b => if b = a then waves.heard b + 1 else waves.heard b }

/-- All children have answered the wave that the node has begun last. -/
def Full (waves : Waves α W) (a : α) : Prop :=
  ∀ c ∈ forest.children a, waves.heard c = (waves.begun a).length + 1

/-- The top starts a wave when the last one is over. -/
inductive Step (waves : Waves α W) : Waves α W → Prop
  | start (wave : W) (told : List α) (htold : ∀ c ∈ told, c ∈ forest.children top)
      (hover : waves.answered top = (waves.begun top).length + 1) :
      Step waves (waves.pass top wave told)
  | pass (a parent : α) (ha : a ∈ forest.children parent) (wave : W) (told : List α)
      (htold : ∀ c ∈ told, c ∈ forest.children a)
      (hturn : waves.begun a ++ [wave] <+: waves.told a) : Step waves (waves.pass a wave told)
  | answer (a : α) (ha : a ∈ forest.nodes) (hopen : waves.answered a = (waves.begun a).length)
      (hfull : waves.Full forest a) : Step waves (waves.answer a)
  | hear (a : α) (ha : a ∈ forest.nodes) (hsent : waves.heard a < waves.answered a) :
      Step waves (waves.hear a)

/-- A node has begun what it was told, and answers at most what it has begun. -/
structure Ordered (waves : Waves α W) : Prop where
  begun : ∀ a, a ≠ top → waves.begun a <+: waves.told a
  told : ∀ {a c}, c ∈ forest.children a → waves.told c <+: waves.begun a
  length_le : ∀ {a c}, c ∈ forest.children a → (waves.begun a).length ≤ waves.heard c
  heard : ∀ a, waves.heard a ≤ waves.answered a
  answered : ∀ a, waves.answered a ≤ (waves.begun a).length + 1
  behind : ∀ a, (waves.begun a).length ≤ waves.answered a
  full : ∀ {a}, waves.answered a = (waves.begun a).length + 1 → waves.Full forest a

/-- How often a node has begun, answered or been heard. -/
def done (waves : Waves α W) (a : α) : ℕ :=
  (waves.begun a).length + waves.answered a + waves.heard a

/-- What is left to do until the target number of waves is over. -/
def left (target : ℕ) (waves : Waves α W) : ℕ :=
  ∑ a ∈ forest.nodes, (3 * target + 2 - waves.done a)

end Steps

section Order
variable {forest : Forest α} {top : α} {waves : Waves α W} {a b c : α}

theorem ordered_opened : (opened : Waves α W).Ordered forest top where
  begun _ _ := List.prefix_refl _
  told _ := List.prefix_refl _
  length_le _ := Nat.le_refl 0
  heard _ := Nat.le_refl 0
  answered _ := Nat.zero_le _
  behind _ := Nat.le_refl 0
  full h := absurd h Nat.zero_ne_one

/-- A child of a node that is full has done all that it was told. -/
theorem Ordered.child (h : waves.Ordered forest top) (htop : ∀ b, top ∉ forest.children b)
    (hfull : waves.Full forest a) (hc : c ∈ forest.children a) :
    waves.begun c = waves.begun a ∧ waves.told c = waves.begun a ∧
      waves.answered c = (waves.begun a).length + 1 ∧
      waves.heard c = (waves.begun a).length + 1 := by
  have hne : c ≠ top := fun heq => htop a (heq ▸ hc)
  have hbegun := h.begun c hne
  have htold := h.told hc
  have hlength : (waves.begun a).length ≤ (waves.begun c).length := by
    have hheard := hfull c hc
    have hsent := h.heard c
    have hanswered := h.answered c
    omega
  have heq : waves.begun c = waves.begun a :=
    (hbegun.trans htold).eq_of_length_le hlength
  refine ⟨heq, htold.eq_of_length_le (hlength.trans hbegun.length_le), ?_, hfull c hc⟩
  have hheard := hfull c hc
  have hsent := h.heard c
  have hanswered := h.answered c
  rw [heq] at hanswered
  omega

theorem Ordered.heard_le (h : waves.Ordered forest top) (htop : ∀ b, top ∉ forest.children b)
    (hc : c ∈ forest.children a) : waves.heard c ≤ (waves.begun a).length + 1 := by
  have hbegun := ((h.begun c fun heq => htop a (heq ▸ hc)).trans (h.told hc)).length_le
  have hsent := h.heard c
  have hanswered := h.answered c
  omega

theorem Ordered.full_child (h : waves.Ordered forest top) (htop : ∀ b, top ∉ forest.children b)
    (hfull : waves.Full forest a) (hc : c ∈ forest.children a) : waves.Full forest c := by
  obtain ⟨hbegun, -, hanswered, -⟩ := h.child htop hfull hc
  exact h.full (by rw [hanswered, hbegun])

theorem Ordered.full_below (h : waves.Ordered forest top) (htop : ∀ b, top ∉ forest.children b)
    (hfull : waves.Full forest a) (hb : forest.Below a b) :
    waves.begun b = waves.begun a ∧ waves.Full forest b := by
  induction hb with
  | refl => exact ⟨rfl, hfull⟩
  | tail _ hc ih =>
    exact ⟨(h.child htop ih.2 hc).1.trans ih.1, h.full_child htop ih.2 hc⟩

/-- When the children of a node have answered, every node under it has begun the same waves and
answered the last one, and nothing is on its way. -/
theorem Ordered.settled (h : waves.Ordered forest top) (htop : ∀ b, top ∉ forest.children b)
    (hfull : waves.Full forest a) (hb : forest.Below a b) (hne : b ≠ a) :
    waves.begun b = waves.begun a ∧ waves.told b = waves.begun a ∧
      waves.answered b = (waves.begun a).length + 1 ∧
      waves.heard b = (waves.begun a).length + 1 := by
  cases Relation.ReflTransGen.cases_tail hb with
  | inl heq => exact absurd heq hne
  | inr hlast =>
    obtain ⟨d, hd, hc⟩ := hlast
    obtain ⟨hbegun, hfull⟩ := h.full_below htop hfull hd
    rw [← hbegun]
    exact h.child htop hfull hc

/-- No node is ahead of one above it, or more than one wave behind. -/
theorem Ordered.close (h : waves.Ordered forest top) (htop : ∀ b, top ∉ forest.children b)
    (hb : forest.Below a b) :
    waves.begun b <+: waves.begun a ∧
      (waves.begun a).length ≤ (waves.begun b).length + 1 := by
  induction hb using Relation.ReflTransGen.head_induction_on with
  | refl => exact ⟨List.prefix_refl _, Nat.le_succ _⟩
  | head hc hb ih =>
    rename_i d c
    have hpart := (h.begun c fun heq => htop d (heq ▸ hc)).trans (h.told hc)
    refine ⟨ih.1.trans hpart, ?_⟩
    by_cases hbehind : (waves.begun c).length = (waves.begun d).length
    · rw [← hbehind]
      exact ih.2
    · -- a child that is behind has answered the wave before, and so have all under it
      have hlt := hpart.length_le
      have hheard := h.length_le hc
      have hsent := h.heard c
      have hanswered := h.answered c
      have hfull : waves.Full forest c := h.full (by omega)
      rw [(h.full_below htop hfull hb).1]
      omega

end Order

section Run
variable [DecidableEq α] {forest : Forest α} {top : α} {waves next : Waves α W} {a c : α}

/-- A node that has answered may begin the next wave. -/
theorem Ordered.pass (h : waves.Ordered forest top) (htop : ∀ b, top ∉ forest.children b)
    {wave : W} {told : List α} (htold : ∀ c ∈ told, c ∈ forest.children a)
    (hover : waves.answered a = (waves.begun a).length + 1)
    (hturn : a ≠ top → waves.begun a ++ [wave] <+: waves.told a) :
    (waves.pass a wave told).Ordered forest top := by
  have hfull := h.full hover
  refine ⟨?_, ?_, ?_, h.heard, ?_, ?_, ?_⟩
  · intro b hb
    simp only [Waves.pass]
    have hgrows : waves.told b <+: if b ∈ told then waves.told b ++ [wave] else waves.told b := by
      split
      · exact List.prefix_append _ _
      · exact List.prefix_refl _
    split
    · rename_i heq
      subst heq
      exact (hturn hb).trans hgrows
    · exact (h.begun b hb).trans hgrows
  · intro b c hc
    simp only [Waves.pass]
    by_cases hmem : c ∈ told
    · have heq : b = a := forest.parent_unique hc (htold c hmem)
      subst heq
      rw [if_pos hmem, if_pos rfl, (h.child htop hfull hc).2.1]
    · rw [if_neg hmem]
      split
      · exact (h.told hc).trans (List.prefix_append _ _)
      · exact h.told hc
  · intro b c hc
    simp only [Waves.pass]
    split
    · rename_i heq
      rw [heq] at hc ⊢
      rw [List.length_append, hfull c hc]
      rfl
    · exact h.length_le hc
  · intro b
    simp only [Waves.pass]
    split
    · rename_i heq
      rw [heq, hover, List.length_append]
      exact Nat.le_succ _
    · exact h.answered b
  · intro b
    simp only [Waves.pass]
    split
    · rename_i heq
      rw [heq, hover, List.length_append, List.length_singleton]
    · exact h.behind b
  · intro b hb
    simp only [Waves.pass, Waves.Full] at hb ⊢
    by_cases heq : b = a
    · rw [if_pos heq, heq, hover, List.length_append, List.length_singleton] at hb
      omega
    · rw [if_neg heq] at hb ⊢
      exact h.full hb

omit [DecidableEq α] in
/-- What a node was told of next, it may begin: it has answered before. -/
theorem Ordered.over (h : waves.Ordered forest top) {wave : W} {d : α}
    (ha : a ∈ forest.children d) (hturn : waves.begun a ++ [wave] <+: waves.told a) :
    waves.answered a = (waves.begun a).length + 1 := by
  have hlength := hturn.length_le
  rw [List.length_append, List.length_singleton] at hlength
  have htold := (h.told ha).length_le
  have hheard := h.length_le ha
  have hsent := h.heard a
  have hanswered := h.answered a
  omega

theorem Ordered.answer (h : waves.Ordered forest top)
    (hopen : waves.answered a = (waves.begun a).length) (hfull : waves.Full forest a) :
    (waves.answer a).Ordered forest top := by
  refine ⟨h.begun, h.told, h.length_le, ?_, ?_, ?_, ?_⟩
  · intro b
    simp only [Waves.answer]
    split
    · exact (h.heard b).trans (Nat.le_succ _)
    · exact h.heard b
  · intro b
    simp only [Waves.answer]
    split
    · rename_i heq
      rw [heq, hopen]
    · exact h.answered b
  · intro b
    simp only [Waves.answer]
    split
    · exact (h.behind b).trans (Nat.le_succ _)
    · exact h.behind b
  · intro b hb
    simp only [Waves.answer] at hb
    split at hb
    · rename_i heq
      rw [heq]
      exact hfull
    · exact h.full hb

theorem Ordered.hear (h : waves.Ordered forest top) (htop : ∀ b, top ∉ forest.children b)
    (hsent : waves.heard a < waves.answered a) : (waves.hear a).Ordered forest top := by
  refine ⟨h.begun, h.told, ?_, ?_, h.answered, h.behind, ?_⟩
  · intro b c hc
    simp only [Waves.hear]
    split
    · exact (h.length_le hc).trans (Nat.le_succ _)
    · exact h.length_le hc
  · intro b
    simp only [Waves.hear]
    split
    · rename_i heq
      rw [heq]
      exact hsent
    · exact h.heard b
  · intro b hb c hc
    have hold := h.full hb c hc
    have hkeeps : c ≠ a := by
      -- all answers to the wave have been heard
      intro heq
      have hanswered := h.answered c
      have hbegun := ((h.begun c fun h => htop b (h ▸ hc)).trans (h.told hc)).length_le
      rw [heq] at hold hanswered hbegun
      omega
    simp only [Waves.hear, if_neg hkeeps]
    exact hold

theorem Step.ordered (hstep : Step forest top waves next) (h : waves.Ordered forest top)
    (htop : ∀ b, top ∉ forest.children b) : next.Ordered forest top := by
  cases hstep with
  | start wave told htold hover => exact h.pass htop htold hover fun hne => absurd rfl hne
  | pass a parent ha wave told htold hturn =>
    exact h.pass htop htold (h.over ha hturn) fun _ => hturn
  | answer a _ hopen hfull => exact h.answer hopen hfull
  | hear a _ hsent => exact h.hear htop hsent

theorem Ordered.run (h : waves.Ordered forest top) (htop : ∀ b, top ∉ forest.children b)
    (hrun : Relation.ReflTransGen (Step forest top) waves next) : next.Ordered forest top := by
  induction hrun with
  | refl => exact h
  | tail _ hstep ih => exact hstep.ordered ih htop

end Run

section Progress
variable [DecidableEq α] {forest : Forest α} {top : α} {waves next : Waves α W} {a : α}

omit [DecidableEq α] in
/-- While a node still waits, a node under it may answer, or an answer be heard, or a wave be
begun, if every node has told its children of the waves that it has begun. -/
theorem Ordered.waits (h : waves.Ordered forest top) (htop : ∀ b, top ∉ forest.children b)
    (htold : ∀ {a c}, c ∈ forest.children a → waves.told c = waves.begun a)
    (hwaits : ¬waves.Full forest a) :
    ∃ b c, forest.Below a b ∧ c ∈ forest.children b ∧
      (waves.heard c < waves.answered c ∨ (∃ wave, waves.begun c ++ [wave] <+: waves.told c) ∨
        waves.answered c = (waves.begun c).length ∧ waves.Full forest c) := by
  induction hheight : forest.height a using Nat.strong_induction_on generalizing a with
  | _ height ih =>
    simp only [Full, not_forall] at hwaits
    obtain ⟨c, hc, hwaits⟩ := hwaits
    have hbegun := h.begun c fun heq => htop a (heq ▸ hc)
    have hheard := h.length_le hc
    have hsent := h.heard c
    have hanswered := h.answered c
    have hshorter := hbegun.length_le
    rw [htold hc] at hbegun hshorter
    by_cases hunheard : waves.heard c < waves.answered c
    · exact ⟨a, c, .refl, hc, .inl hunheard⟩
    · by_cases hbehind : (waves.begun c).length < (waves.begun a).length
      · refine ⟨a, c, .refl, hc, .inr (.inl ⟨(waves.begun a).get ⟨_, hbehind⟩, ?_⟩)⟩
        rw [htold hc]
        exact List.concat_get_prefix hbegun hbehind
      · have hopen : waves.answered c = (waves.begun c).length := by omega
        by_cases hfull : waves.Full forest c
        · exact ⟨a, c, .refl, hc, .inr (.inr ⟨hopen, hfull⟩)⟩
        · obtain ⟨b, d, hb, hd, hmay⟩ := ih _ (hheight ▸ forest.height_lt hc) hfull rfl
          exact ⟨b, d, Forest.below_child hc hb, hd, hmay⟩

omit [DecidableEq α] in
theorem Ordered.done_le (h : waves.Ordered forest top) {target : ℕ}
    (hlength : (waves.begun a).length ≤ target) : waves.done a ≤ 3 * target + 2 := by
  have hsent := h.heard a
  have hanswered := h.answered a
  unfold done
  omega

/-- Every step is one of the things that a node of the forest has to do. -/
theorem Step.done (hstep : Step forest top waves next) (htop : top ∈ forest.nodes) :
    ∃ a ∈ forest.nodes, ∀ b, next.done b = waves.done b + if b = a then 1 else 0 := by
  have hpass : ∀ (a : α) (wave : W) (told : List α) (b : α),
      (waves.pass a wave told).done b = waves.done b + if b = a then 1 else 0 := by
    intro a wave told b
    by_cases heq : b = a
    · simp only [Waves.done, Waves.pass, if_pos heq, List.length_append, List.length_singleton]
      omega
    · simp only [Waves.done, Waves.pass, if_neg heq, Nat.add_zero]
  cases hstep with
  | start wave told htold hover => exact ⟨top, htop, hpass top wave told⟩
  | pass a parent ha wave told htold hturn =>
    exact ⟨a, forest.children_mem ha, hpass a wave told⟩
  | answer a ha hopen hfull =>
    refine ⟨a, ha, fun b => ?_⟩
    simp only [Waves.done, Waves.answer]
    split <;> omega
  | hear a ha hsent =>
    refine ⟨a, ha, fun b => ?_⟩
    simp only [Waves.done, Waves.hear]
    split <;> omega

theorem Step.begun_le (hstep : Step forest top waves next) (a : α) :
    (waves.begun a).length ≤ (next.begun a).length := by
  have hpass : ∀ (b : α) (wave : W) (told : List α),
      (waves.begun a).length ≤ ((waves.pass b wave told).begun a).length := by
    intro b wave told
    simp only [Waves.pass]
    split
    · rw [List.length_append]
      exact Nat.le_add_right _ _
    · exact Nat.le_refl _
  cases hstep with
  | start wave told htold hover => exact hpass top wave told
  | pass b parent hb wave told htold hturn => exact hpass b wave told
  | answer b hb hopen hfull => exact Nat.le_refl _
  | hear b hb hsent => exact Nat.le_refl _

/-- There is less left after every step. -/
theorem Step.left_lt (hstep : Step forest top waves next) (htop : top ∈ forest.nodes)
    (hnext : next.Ordered forest top) {target : ℕ}
    (hlength : ∀ a ∈ forest.nodes, (next.begun a).length ≤ target) :
    next.left forest target < waves.left forest target := by
  obtain ⟨a, ha, hdone⟩ := hstep.done htop
  apply Finset.sum_lt_sum
  · intro b _
    rw [hdone b]
    omega
  · refine ⟨a, ha, ?_⟩
    have hle := hnext.done_le (hlength a ha)
    have hadds := hdone a
    rw [if_pos rfl] at hadds
    omega

/-- There is less left after every run. -/
theorem left_lt (hrun : Relation.TransGen (Step forest top) waves next)
    (h : waves.Ordered forest top) (htop : top ∈ forest.nodes)
    (hroot : ∀ b, top ∉ forest.children b) {target : ℕ}
    (hlength : ∀ a ∈ forest.nodes, (next.begun a).length ≤ target) :
    next.left forest target < waves.left forest target := by
  induction hrun with
  | single hstep => exact hstep.left_lt htop (hstep.ordered h hroot) hlength
  | tail hrun hstep ih =>
    have hmiddle := h.run hroot hrun.to_reflTransGen
    have hlast := hstep.left_lt htop (hstep.ordered hmiddle hroot) hlength
    exact hlast.trans (ih fun a ha => (hstep.begun_le a).trans (hlength a ha))

end Progress
end Waves
end ReadexPtf
