import Mathlib

/-! Clustering by density over an arbitrary neighbourhood: a point with enough
neighbours grows a cluster through a list that gains elements while it is walked. -/
namespace ReadexPtf.Density
open Relation
variable {α : Type*}

inductive Label where
  | unclassified
  | noise
  | cluster (n : ℕ)
  deriving DecidableEq, Repr

/-- A point without a cluster is taken into this one. -/
def Label.claim (n : ℕ) : Label → Label
  | .cluster k => .cluster k
  | _ => .cluster n

@[simp] theorem Label.claim_cluster (n k : ℕ) : (Label.cluster k).claim n = .cluster k := rfl
@[simp] theorem Label.claim_unclassified (n : ℕ) : Label.unclassified.claim n = .cluster n := rfl
@[simp] theorem Label.claim_noise (n : ℕ) : Label.noise.claim n = .cluster n := rfl

theorem Label.claim_eq_cluster (n : ℕ) (l : Label) : ∃ k, l.claim n = .cluster k := by
  cases l with
  | unclassified => exact ⟨n, rfl⟩
  | noise => exact ⟨n, rfl⟩
  | cluster k => exact ⟨k, rfl⟩

/-- What the algorithm keeps of every point. -/
@[ext] structure Marks (α : Type*) where
  visited : α → Bool
  label : α → Label

namespace Marks
variable [DecidableEq α]

def visit (m : Marks α) (p : α) : Marks α :=
  { m with visited := Function.update m.visited p true }
def assign (m : Marks α) (p : α) (l : Label) : Marks α :=
  { m with label := Function.update m.label p l }
def claim (m : Marks α) (n : ℕ) (p : α) : Marks α := m.assign p ((m.label p).claim n)

theorem visited_visit (m : Marks α) (p q : α) :
    (m.visit p).visited q = (if q = p then true else m.visited q) := by
  simp [visit, Function.update_apply]

theorem label_assign (m : Marks α) (p q : α) (l : Label) :
    (m.assign p l).label q = if q = p then l else m.label q := by
  simp [assign, Function.update_apply]

@[simp] theorem label_visit (m : Marks α) (p : α) : (m.visit p).label = m.label := rfl
@[simp] theorem visited_assign (m : Marks α) (p : α) (l : Label) :
    (m.assign p l).visited = m.visited := rfl
@[simp] theorem visited_claim (m : Marks α) (n : ℕ) (p : α) :
    (m.claim n p).visited = m.visited := rfl

end Marks

variable (adj : α → List α) (minPoints : ℕ)

/-- A point with enough neighbours. -/
def Core (p : α) : Prop := minPoints ≤ (adj p).length
instance (p : α) : Decidable (Core adj minPoints p) := inferInstanceAs (Decidable (_ ≤ _))

/-- A chain of core points, each a neighbour of the one before it. -/
def Linked : α → α → Prop :=
  ReflTransGen fun p q => Core adj minPoints p ∧ Core adj minPoints q ∧ q ∈ adj p

/-- The clustering by density of these points: `n` clusters, numbered from one. -/
structure IsClustering (points : Finset α) (label : α → Label) (n : ℕ) : Prop where
  core : ∀ p ∈ points, Core adj minPoints p → ∃ k, label p = .cluster k
  same : ∀ p ∈ points, ∀ q ∈ points, Core adj minPoints p → Core adj minPoints q →
    (label p = label q ↔ Linked adj minPoints p q)
  noise : ∀ p ∈ points, label p = .noise ↔
    ¬ Core adj minPoints p ∧ ∀ q ∈ adj p, ¬ Core adj minPoints q
  border : ∀ p ∈ points, ¬ Core adj minPoints p → label p ≠ .noise →
    ∃ q ∈ adj p, Core adj minPoints q ∧ label p = label q ∧ ∃ k, label p = .cluster k
  ids : ∀ k, (∃ p ∈ points, label p = .cluster k) ↔ 1 ≤ k ∧ k ≤ n

section
variable [DecidableEq α]

/-- The neighbours that a first visit of a core point adds to the list. -/
def gained (m : Marks α) (q : α) : List α :=
  if m.visited q = false ∧ Core adj minPoints q then adj q else []

/-- The list of a growing cluster, walked for a number of rounds. -/
def expand (n : ℕ) : ℕ → List α → Marks α → Option (Marks α)
  | _, [], m => some m
  | 0, _ :: _, _ => none
  | rounds + 1, q :: rest, m =>
    expand n rounds (rest ++ gained adj minPoints m q) ((m.visit q).claim n q)

/-- One point of the outer loop, with the number of the next cluster. -/
def scanPoint (rounds : ℕ) (s : ℕ × Marks α) (p : α) : Option (ℕ × Marks α) :=
  if s.2.visited p then some s
  else if Core adj minPoints p then
    (expand adj minPoints s.1 rounds (adj p) ((s.2.visit p).assign p (.cluster s.1))).map
      fun m => (s.1 + 1, m)
  else some (s.1, (s.2.visit p).assign p .noise)

def scan (rounds : ℕ) (points : List α) (s : ℕ × Marks α) : Option (ℕ × Marks α) :=
  points.foldlM (scanPoint adj minPoints rounds) s

end

/-- The state of the algorithm with `n` clusters and a list of points that the last
of them has still to walk. A neighbour of a visited core point is settled or on the list. -/
structure Grown (points : Finset α) (n : ℕ) (pending : List α) (m : Marks α) : Prop where
  inside : ∀ p, m.visited p → p ∈ points
  classified : ∀ p, m.visited p ↔ m.label p ≠ .unclassified
  range : ∀ p k, m.label p = .cluster k → 1 ≤ k ∧ k ≤ n
  used : ∀ k, 1 ≤ k → k ≤ n → ∃ p, m.label p = .cluster k
  noise : ∀ p, m.label p = .noise → ¬ Core adj minPoints p
  closed : ∀ p, m.visited p → Core adj minPoints p → ∃ k, m.label p = .cluster k ∧ ∀ q ∈ adj p,
    ((∃ j, m.label q = .cluster j) ∧ (Core adj minPoints q → m.label q = .cluster k)) ∨
      (k = n ∧ q ∈ pending)
  near : ∀ q ∈ pending, ∃ p, Core adj minPoints p ∧ m.label p = .cluster n ∧ q ∈ adj p
  border : ∀ p k, m.label p = .cluster k → ¬ Core adj minPoints p →
    ∃ q ∈ adj p, Core adj minPoints q ∧ m.label q = .cluster k
  joined : ∀ p q k, Core adj minPoints p → Core adj minPoints q → m.label p = .cluster k →
    m.label q = .cluster k → Linked adj minPoints p q

variable {adj minPoints} {points : Finset α} {n : ℕ} {m : Marks α}

/-- A point that is not noise is in a cluster. -/
theorem IsClustering.settled {label : α → Label} (h : IsClustering adj minPoints points label n)
    {p : α} (hp : p ∈ points) (hnoise : label p ≠ .noise) : ∃ k, label p = .cluster k := by
  by_cases hcore : Core adj minPoints p
  · exact h.core p hp hcore
  · obtain ⟨q, -, -, -, hk⟩ := h.border p hp hcore hnoise
    exact hk

theorem Linked.symm (hsymm : ∀ p q, q ∈ adj p → p ∈ adj q) {p q : α}
    (h : Linked adj minPoints p q) : Linked adj minPoints q p := by
  induction h with
  | refl => exact .refl
  | tail _ hedge ih => exact .head ⟨hedge.2.1, hedge.1, hsymm _ _ hedge.2.2⟩ ih

/-- Before any point has been visited. -/
theorem Grown.start (hvisited : ∀ p, m.visited p = false)
    (hlabel : ∀ p, m.label p = .unclassified) : Grown adj minPoints points 0 [] m where
  inside p hp := by simp [hvisited] at hp
  classified p := by simp [hvisited, hlabel]
  range p k hk := by simp [hlabel] at hk
  used k hk hk0 := by omega
  noise p hp := by simp [hlabel] at hp
  closed p hp := by simp [hvisited] at hp
  near q hq := by simp at hq
  border p k hk := by simp [hlabel] at hk
  joined p q k _ _ hk := by simp [hlabel] at hk

theorem Grown.label_of_new {pending : List α} (h : Grown adj minPoints points n pending m) {p : α}
    (hp : m.visited p = false) : m.label p = .unclassified := by
  by_contra hne
  simp [(h.classified p).mpr hne] at hp

/-- A core point on the list that has been visited is in the growing cluster already:
the list reaches it from a core point of that cluster. -/
theorem Grown.label_of_visited (hsymm : ∀ p q, q ∈ adj p → p ∈ adj q) {q : α} {rest : List α}
    (h : Grown adj minPoints points n (q :: rest) m) (hq : m.visited q)
    (hcore : Core adj minPoints q) : m.label q = .cluster n := by
  obtain ⟨p, hp, hlabel, hadj⟩ := h.near q List.mem_cons_self
  obtain ⟨k, hk, hclosed⟩ := h.closed q hq hcore
  cases hclosed p (hsymm p q hadj) with
  | inl hsettled =>
    have hpk := hsettled.2 hp
    rwa [hk, ← hpk]
  | inr hpending => rw [hk, hpending.1]

/-- Core points of one chain are in one cluster. -/
theorem Grown.label_linked (h : Grown adj minPoints points n [] m) {p q : α}
    (hp : m.visited p) (hcore : Core adj minPoints p) (hlink : Linked adj minPoints p q) :
    m.label p = m.label q ∧ (∃ k, m.label q = .cluster k) ∧ Core adj minPoints q := by
  induction hlink with
  | refl =>
    obtain ⟨k, hk, -⟩ := h.closed p hp hcore
    exact ⟨rfl, ⟨k, hk⟩, hcore⟩
  | @tail b c _ hedge ih =>
    obtain ⟨hsame, ⟨k, hk⟩, hb⟩ := ih
    have hvb : m.visited b := (h.classified b).mpr (by simp [hk])
    obtain ⟨j, hj, hclosed⟩ := h.closed b hvb hb
    have hc : m.label c = .cluster j := by
      cases hclosed c hedge.2.2 with
      | inl hsettled => exact hsettled.2 hedge.2.1
      | inr hpending => simp at hpending
    exact ⟨by rw [hsame, hj, hc], ⟨j, hc⟩, hedge.2.1⟩

/-- When every point has been visited, the marks are the clustering by density. -/
theorem Grown.isClustering (hsymm : ∀ p q, q ∈ adj p → p ∈ adj q)
    (hadj : ∀ p, ∀ q ∈ adj p, q ∈ points) (h : Grown adj minPoints points n [] m)
    (hall : ∀ p ∈ points, m.visited p) : IsClustering adj minPoints points m.label n := by
  have hsettled : ∀ p ∈ points, m.label p ≠ .noise → ∃ k, m.label p = .cluster k := by
    intro p hp hnoise
    have hclass := (h.classified p).mp (hall p hp)
    cases hl : m.label p with
    | unclassified => exact absurd hl hclass
    | noise => exact absurd hl hnoise
    | cluster k => exact ⟨k, rfl⟩
  constructor
  · intro p hp hcore
    obtain ⟨k, hk, -⟩ := h.closed p (hall p hp) hcore
    exact ⟨k, hk⟩
  · intro p hp q hq hcore hqc
    constructor
    · intro hsame
      obtain ⟨k, hk, -⟩ := h.closed p (hall p hp) hcore
      exact h.joined p q k hcore hqc hk (hsame ▸ hk)
    · exact fun hlink => (h.label_linked (hall p hp) hcore hlink).1
  · intro p hp
    constructor
    · refine fun hnoise => ⟨h.noise p hnoise, fun q hq hqc => ?_⟩
      obtain ⟨k, -, hclosed⟩ := h.closed q (hall q (hadj p q hq)) hqc
      cases hclosed p (hsymm p q hq) with
      | inl hreached =>
        obtain ⟨j, hj⟩ := hreached.1
        simp [hnoise] at hj
      | inr hpending => simp at hpending
    · rintro ⟨hcore, hfar⟩
      by_contra hnoise
      obtain ⟨k, hk⟩ := hsettled p hp hnoise
      obtain ⟨q, hq, hqc, -⟩ := h.border p k hk hcore
      exact hfar q hq hqc
  · intro p hp hcore hnoise
    obtain ⟨k, hk⟩ := hsettled p hp hnoise
    obtain ⟨q, hq, hqc, hqk⟩ := h.border p k hk hcore
    exact ⟨q, hq, hqc, by rw [hk, hqk], k, hk⟩
  · intro k
    constructor
    · rintro ⟨p, -, hk⟩
      exact h.range p k hk
    · rintro ⟨hk, hkn⟩
      obtain ⟨p, hp⟩ := h.used k hk hkn
      exact ⟨p, h.inside p ((h.classified p).mpr (by simp [hp])), hp⟩

theorem mem_gained {q x : α} (h : x ∈ gained adj minPoints m q) :
    m.visited q = false ∧ Core adj minPoints q ∧ x ∈ adj q := by
  unfold gained at h
  split_ifs at h with hfresh
  · exact ⟨hfresh.1, hfresh.2, h⟩
  · simp at h

variable [DecidableEq α]

theorem label_claim (q p : α) :
    ((m.visit q).claim n q).label p = if p = q then (m.label q).claim n else m.label p := by
  simp [Marks.claim, Marks.label_assign]

/-- Taking a point into the growing cluster moves no point out of a cluster. -/
theorem label_claim_of_cluster {p q : α} {k : ℕ} (h : m.label p = .cluster k) :
    ((m.visit q).claim n q).label p = .cluster k := by
  rw [label_claim]
  split_ifs with hp
  · rw [← hp, h, Label.claim_cluster]
  · exact h

/-- A core point of the list ends up in the growing cluster. -/
theorem Grown.label_claim_core (hsymm : ∀ p q, q ∈ adj p → p ∈ adj q) {q : α} {rest : List α}
    (h : Grown adj minPoints points n (q :: rest) m) (hcore : Core adj minPoints q) :
    ((m.visit q).claim n q).label q = .cluster n := by
  rw [label_claim, if_pos rfl]
  cases hv : m.visited q with
  | true => rw [h.label_of_visited hsymm hv hcore, Label.claim_cluster]
  | false =>
    rw [h.label_of_new hv, Label.claim_unclassified]

theorem Grown.step_closed (hsymm : ∀ p q, q ∈ adj p → p ∈ adj q) {q : α} {rest : List α}
    (h : Grown adj minPoints points n (q :: rest) m) {p : α}
    (hp : ((m.visit q).claim n q).visited p) (hcore : Core adj minPoints p) :
    ∃ k, ((m.visit q).claim n q).label p = .cluster k ∧ ∀ x ∈ adj p,
      ((∃ j, ((m.visit q).claim n q).label x = .cluster j) ∧
        (Core adj minPoints x → ((m.visit q).claim n q).label x = .cluster k)) ∨
      (k = n ∧ x ∈ rest ++ gained adj minPoints m q) := by
  cases hv : m.visited p with
  | true =>
    obtain ⟨k, hk, hclosed⟩ := h.closed p hv hcore
    refine ⟨k, label_claim_of_cluster hk, fun x hx => ?_⟩
    cases hclosed x hx with
    | inl hsettled =>
      obtain ⟨⟨j, hj⟩, hsame⟩ := hsettled
      exact .inl ⟨⟨j, label_claim_of_cluster hj⟩, fun hxc => label_claim_of_cluster (hsame hxc)⟩
    | inr hpending =>
      obtain ⟨hkn, hmem⟩ := hpending
      cases List.mem_cons.mp hmem with
      | inl hxq =>
        rw [hxq, hkn, label_claim, if_pos rfl]
        refine .inl ⟨Label.claim_eq_cluster n _, fun hqc => ?_⟩
        simpa [label_claim] using h.label_claim_core hsymm hqc
      | inr hrest => exact .inr ⟨hkn, List.mem_append_left _ hrest⟩
  | false =>
    have hpq : p = q := by
      rw [Marks.visited_claim, Marks.visited_visit] at hp
      by_contra hne
      simp [hne, hv] at hp
    rw [hpq] at hv hcore ⊢
    refine ⟨n, h.label_claim_core hsymm hcore, fun x hx => .inr ⟨rfl, List.mem_append_right _ ?_⟩⟩
    rwa [gained, if_pos ⟨hv, hcore⟩]

/-- A core point of the growing cluster is linked to the one through which the list
reached the point that is walked. -/
theorem Grown.step_linked {q : α} {rest : List α}
    (h : Grown adj minPoints points n (q :: rest) m) {p x : α}
    (hp : Core adj minPoints p) (hlabel : m.label p = .cluster n) (hadj : q ∈ adj p)
    (hx : Core adj minPoints x) (hxn : ((m.visit q).claim n q).label x = .cluster n) :
    Linked adj minPoints p x := by
  by_cases hxq : x = q
  · rw [hxq] at hx ⊢
    exact .single ⟨hp, hx, hadj⟩
  · rw [label_claim, if_neg hxq] at hxn
    exact h.joined p x n hp hx hlabel hxn

/-- One point of the list. -/
theorem Grown.step (hsymm : ∀ p q, q ∈ adj p → p ∈ adj q) (hadj : ∀ p, ∀ q ∈ adj p, q ∈ points)
    {q : α} {rest : List α} (h : Grown adj minPoints points n (q :: rest) m) :
    Grown adj minPoints points n (rest ++ gained adj minPoints m q) ((m.visit q).claim n q) := by
  obtain ⟨p₀, hcore₀, hlabel₀, hadj₀⟩ := h.near q List.mem_cons_self
  have hn : 1 ≤ n := (h.range p₀ n hlabel₀).1
  have hkept : ∀ p k, m.label p = .cluster k → ((m.visit q).claim n q).label p = .cluster k :=
    fun p k => label_claim_of_cluster
  have hcluster : ∀ p k, ((m.visit q).claim n q).label p = .cluster k →
      m.label p = .cluster k ∨ p = q ∧ k = n := by
    intro p k hk
    rw [label_claim] at hk
    split_ifs at hk with hpq
    · subst hpq
      cases hl : m.label p with
      | cluster j => exact .inl (by rwa [hl, Label.claim_cluster] at hk)
      | noise => exact .inr ⟨rfl, by simpa [hl] using hk.symm⟩
      | unclassified => exact .inr ⟨rfl, by simpa [hl] using hk.symm⟩
    · exact .inl hk
  constructor
  · intro p hp
    rw [Marks.visited_claim, Marks.visited_visit] at hp
    split_ifs at hp with hpq
    · exact hpq ▸ hadj p₀ q hadj₀
    · exact h.inside p hp
  · intro p
    rw [Marks.visited_claim, Marks.visited_visit, label_claim]
    split_ifs with hpq
    · obtain ⟨k, hk⟩ := Label.claim_eq_cluster n (m.label q)
      simp [hk]
    · exact h.classified p
  · intro p k hk
    cases hcluster p k hk with
    | inl hold => exact h.range p k hold
    | inr hnew => omega
  · intro k hk hkn
    obtain ⟨p, hp⟩ := h.used k hk hkn
    exact ⟨p, hkept p k hp⟩
  · intro p hp
    rw [label_claim] at hp
    split_ifs at hp with hpq
    · obtain ⟨k, hk⟩ := Label.claim_eq_cluster n (m.label q)
      simp [hk] at hp
    · exact h.noise p hp
  · exact fun p hp hcore => h.step_closed hsymm hp hcore
  · intro x hx
    cases List.mem_append.mp hx with
    | inl hrest =>
      obtain ⟨p, hp, hlabel, hxp⟩ := h.near x (List.mem_cons_of_mem q hrest)
      exact ⟨p, hp, hkept p n hlabel, hxp⟩
    | inr hgained =>
      obtain ⟨-, hqc, hxq⟩ := mem_gained hgained
      exact ⟨q, hqc, h.label_claim_core hsymm hqc, hxq⟩
  · intro p k hk hcore
    cases hcluster p k hk with
    | inl hold =>
      obtain ⟨x, hx, hxc, hxk⟩ := h.border p k hold hcore
      exact ⟨x, hx, hxc, hkept x k hxk⟩
    | inr hnew =>
      rw [hnew.1, hnew.2]
      exact ⟨p₀, hsymm p₀ q hadj₀, hcore₀, hkept p₀ n hlabel₀⟩
  · intro p x k hp hx hpk hxk
    by_cases hkn : k = n
    · subst hkn
      have hlinkp := h.step_linked hcore₀ hlabel₀ hadj₀ hp hpk
      exact (hlinkp.symm hsymm).trans (h.step_linked hcore₀ hlabel₀ hadj₀ hx hxk)
    · have hpold := (hcluster p k hpk).resolve_right fun hnew => hkn hnew.2
      have hxold := (hcluster x k hxk).resolve_right fun hnew => hkn hnew.2
      exact h.joined p x k hp hx hpold hxold

/-- The neighbours of the points that have not been visited yet: no more can be added
to the list. -/
def unseen (adj : α → List α) (points : Finset α) (m : Marks α) : ℕ :=
  ∑ p ∈ points with m.visited p = false, (adj p).length

theorem unseen_visit {q : α} (hq : q ∈ points) (hv : m.visited q = false) :
    unseen adj points (m.visit q) + (adj q).length = unseen adj points m := by
  have herase : ({p ∈ points | (m.visit q).visited p = false} : Finset α) =
      ({p ∈ points | m.visited p = false} : Finset α).erase q := by
    ext p
    by_cases hpq : p = q
    · simp [Marks.visited_visit, hpq]
    · simp [Marks.visited_visit, hpq]
  rw [unseen, herase, unseen]
  exact Finset.sum_erase_add _ _ (by simp [hq, hv])

theorem unseen_visit_of_visited {q : α} (hv : m.visited q) :
    unseen adj points (m.visit q) = unseen adj points m := by
  have hsame : (m.visit q).visited = m.visited := by
    ext p
    rw [Marks.visited_visit]
    split_ifs with hpq
    · rw [hpq, hv]
    · rfl
  rw [unseen, unseen, hsame]

omit [DecidableEq α] in
theorem unseen_le (m : Marks α) : unseen adj points m ≤ ∑ p ∈ points, (adj p).length :=
  Finset.sum_le_sum_of_subset (Finset.filter_subset _ _)

theorem unseen_claim (q : α) : unseen adj points (m.claim n q) = unseen adj points m := rfl

/-- A step takes one point off the list and adds no more than it has left to see. -/
theorem gained_length {q : α} (hq : q ∈ points) :
    (gained adj minPoints m q).length + unseen adj points ((m.visit q).claim n q) ≤
      unseen adj points m := by
  rw [unseen_claim, gained]
  cases hv : m.visited q with
  | true =>
    have hsame : unseen adj points (m.visit q) = unseen adj points m := unseen_visit_of_visited hv
    simp [hsame]
  | false =>
    have hless : unseen adj points (m.visit q) + (adj q).length = unseen adj points m :=
      unseen_visit hq hv
    split_ifs <;> simp <;> omega

theorem visited_step {q p : α} (h : m.visited p) : ((m.visit q).claim n q).visited p := by
  rw [Marks.visited_claim, Marks.visited_visit]
  split_ifs <;> simp [h]

/-- The list is walked to its end. -/
theorem Grown.expand (hsymm : ∀ p q, q ∈ adj p → p ∈ adj q)
    (hadj : ∀ p, ∀ q ∈ adj p, q ∈ points) :
    ∀ (rounds : ℕ) (pending : List α) (m : Marks α), Grown adj minPoints points n pending m →
      pending.length + unseen adj points m ≤ rounds →
      ∃ m', Density.expand adj minPoints n rounds pending m = some m' ∧
        Grown adj minPoints points n [] m' ∧ ∀ p, m.visited p → m'.visited p := by
  intro rounds
  induction rounds with
  | zero =>
    intro pending m h hrounds
    have hnil : pending = [] := List.length_eq_zero_iff.mp (by omega)
    subst hnil
    exact ⟨m, rfl, h, fun p hp => hp⟩
  | succ rounds ih =>
    intro pending m h hrounds
    cases pending with
    | nil => exact ⟨m, rfl, h, fun p hp => hp⟩
    | cons q rest =>
      obtain ⟨p₀, -, -, hadj₀⟩ := h.near q List.mem_cons_self
      have hgained : (gained adj minPoints m q).length +
          unseen adj points ((m.visit q).claim n q) ≤ unseen adj points m :=
        gained_length (hadj p₀ q hadj₀)
      have hless : (rest ++ gained adj minPoints m q).length +
          unseen adj points ((m.visit q).claim n q) ≤ rounds := by
        rw [List.length_append]
        rw [List.length_cons] at hrounds
        omega
      obtain ⟨m', hm', hgrown, hmono⟩ := ih _ _ (h.step hsymm hadj) hless
      exact ⟨m', hm', hgrown, fun p hp => hmono p (visited_step hp)⟩

/-- A core point that no cluster has reached opens the next one. -/
theorem Grown.opened (h : Grown adj minPoints points n [] m) {p : α} (hp : p ∈ points)
    (hv : m.visited p = false) (hcore : Core adj minPoints p) :
    Grown adj minPoints points (n + 1) (adj p) ((m.visit p).assign p (.cluster (n + 1))) := by
  have hnew := h.label_of_new hv
  have hold : ∀ x k, m.label x = .cluster k →
      ((m.visit p).assign p (.cluster (n + 1))).label x = .cluster k := by
    intro x k hk
    have hxp : x ≠ p := fun heq => by simp [heq, hnew] at hk
    rw [Marks.label_assign, if_neg hxp, Marks.label_visit, hk]
  have hself : ((m.visit p).assign p (.cluster (n + 1))).label p = .cluster (n + 1) := by
    rw [Marks.label_assign, if_pos rfl]
  have hcluster : ∀ x k, ((m.visit p).assign p (.cluster (n + 1))).label x = .cluster k →
      m.label x = .cluster k ∧ k ≤ n ∨ x = p ∧ k = n + 1 := by
    intro x k hk
    rw [Marks.label_assign, Marks.label_visit] at hk
    split_ifs at hk with hxp
    · exact .inr ⟨hxp, (Label.cluster.inj hk).symm⟩
    · exact .inl ⟨hk, (h.range x k hk).2⟩
  constructor
  · intro x hx
    rw [Marks.visited_assign, Marks.visited_visit] at hx
    split_ifs at hx with hxp
    · exact hxp ▸ hp
    · exact h.inside x hx
  · intro x
    rw [Marks.visited_assign, Marks.visited_visit, Marks.label_assign]
    split_ifs with hxp
    · simp
    · exact h.classified x
  · intro x k hk
    cases hcluster x k hk with
    | inl hx =>
      have hrange := h.range x k hx.1
      omega
    | inr hx => omega
  · intro k hk hkn
    by_cases hlast : k = n + 1
    · exact ⟨p, by rw [hself, hlast]⟩
    · obtain ⟨x, hx⟩ := h.used k hk (by omega)
      exact ⟨x, hold x k hx⟩
  · intro x hx
    rw [Marks.label_assign] at hx
    split_ifs at hx with hxp
    exact h.noise x hx
  · intro x hx hxc
    rw [Marks.visited_assign, Marks.visited_visit] at hx
    split_ifs at hx with hxp
    · rw [hxp]
      exact ⟨n + 1, hself, fun q hq => .inr ⟨rfl, hq⟩⟩
    · obtain ⟨k, hk, hclosed⟩ := h.closed x hx hxc
      refine ⟨k, hold x k hk, fun q hq => .inl ?_⟩
      cases hclosed q hq with
      | inl hsettled =>
        obtain ⟨⟨j, hj⟩, hsame⟩ := hsettled
        exact ⟨⟨j, hold q j hj⟩, fun hqc => hold q k (hsame hqc)⟩
      | inr hpending => simp at hpending
  · exact fun q hq => ⟨p, hcore, hself, hq⟩
  · intro x k hk hxc
    cases hcluster x k hk with
    | inl hx =>
      obtain ⟨q, hq, hqc, hqk⟩ := h.border x k hx.1 hxc
      exact ⟨q, hq, hqc, hold q k hqk⟩
    | inr hx => exact absurd (hx.1 ▸ hcore) hxc
  · intro x y k hx hy hxk hyk
    cases hcluster x k hxk with
    | inl hxold =>
      have hyold := (hcluster y k hyk).resolve_right fun hynew => by omega
      exact h.joined x y k hx hy hxold.1 hyold.1
    | inr hxnew =>
      have hynew := (hcluster y k hyk).resolve_left fun hyold => by omega
      rw [hxnew.1, hynew.1]
      exact .refl

/-- A point without enough neighbours is noise until a cluster reaches it. -/
theorem Grown.noised (h : Grown adj minPoints points n [] m) {p : α} (hp : p ∈ points)
    (hv : m.visited p = false) (hcore : ¬ Core adj minPoints p) :
    Grown adj minPoints points n [] ((m.visit p).assign p .noise) := by
  have hnew := h.label_of_new hv
  have hsame : ∀ x k, ((m.visit p).assign p .noise).label x = .cluster k ↔
      m.label x = .cluster k := by
    intro x k
    rw [Marks.label_assign]
    split_ifs with hxp
    · simp [hxp, hnew]
    · rfl
  constructor
  · intro x hx
    rw [Marks.visited_assign, Marks.visited_visit] at hx
    split_ifs at hx with hxp
    · exact hxp ▸ hp
    · exact h.inside x hx
  · intro x
    rw [Marks.visited_assign, Marks.visited_visit, Marks.label_assign]
    split_ifs with hxp
    · simp
    · exact h.classified x
  · exact fun x k hk => h.range x k ((hsame x k).mp hk)
  · intro k hk hkn
    obtain ⟨x, hx⟩ := h.used k hk hkn
    exact ⟨x, (hsame x k).mpr hx⟩
  · intro x hx
    rw [Marks.label_assign] at hx
    split_ifs at hx with hxp
    · exact hxp ▸ hcore
    · exact h.noise x hx
  · intro x hx hxc
    rw [Marks.visited_assign, Marks.visited_visit] at hx
    split_ifs at hx with hxp
    · exact absurd (hxp ▸ hxc) hcore
    · simp only [hsame]
      exact h.closed x hx hxc
  · exact fun q hq => absurd hq (by simp)
  · intro x k hk hxc
    simp only [hsame] at hk ⊢
    exact h.border x k hk hxc
  · intro x y k hx hy hxk hyk
    exact h.joined x y k hx hy ((hsame x k).mp hxk) ((hsame y k).mp hyk)

/-- One point of the outer loop. -/
theorem Grown.scanPoint (hsymm : ∀ p q, q ∈ adj p → p ∈ adj q)
    (hadj : ∀ p, ∀ q ∈ adj p, q ∈ points) (h : Grown adj minPoints points n [] m) {p : α}
    (hp : p ∈ points) {rounds : ℕ} (hrounds : ∑ q ∈ points, (adj q).length ≤ rounds) :
    ∃ n' m', Density.scanPoint adj minPoints rounds (n + 1, m) p = some (n' + 1, m') ∧
      Grown adj minPoints points n' [] m' ∧ m'.visited p ∧ ∀ q, m.visited q → m'.visited q := by
  unfold Density.scanPoint
  cases hv : m.visited p with
  | true => exact ⟨n, m, rfl, h, hv, fun q hq => hq⟩
  | false =>
    have hkept : ∀ (l : Label) (q : α), m.visited q → ((m.visit p).assign p l).visited q := by
      intro l q hq
      rw [Marks.visited_assign, Marks.visited_visit]
      split_ifs <;> simp [hq]
    have hself : ∀ l : Label, ((m.visit p).assign p l).visited p := by
      intro l
      rw [Marks.visited_assign, Marks.visited_visit, if_pos rfl]
    by_cases hcore : Core adj minPoints p
    · have hseen : unseen adj points (m.visit p) + (adj p).length = unseen adj points m :=
        unseen_visit hp hv
      have hall : unseen adj points m ≤ ∑ q ∈ points, (adj q).length := unseen_le m
      have hlist : unseen adj points ((m.visit p).assign p (.cluster (n + 1))) =
          unseen adj points (m.visit p) := rfl
      obtain ⟨m', hm', hgrown, hmono⟩ :=
        (h.opened hp hv hcore).expand hsymm hadj rounds _ _ (by omega)
      refine ⟨n + 1, m', ?_, hgrown, hmono p (hself _), fun q hq => hmono q (hkept _ q hq)⟩
      simp [hcore, hm']
    · exact ⟨n, _, by simp [hcore], h.noised hp hv hcore, hself _, hkept _⟩

theorem Grown.scan (hsymm : ∀ p q, q ∈ adj p → p ∈ adj q)
    (hadj : ∀ p, ∀ q ∈ adj p, q ∈ points) {rounds : ℕ}
    (hrounds : ∑ q ∈ points, (adj q).length ≤ rounds) (order : List α)
    (horder : ∀ p ∈ order, p ∈ points) (h : Grown adj minPoints points n [] m) :
    ∃ n' m', Density.scan adj minPoints rounds order (n + 1, m) = some (n' + 1, m') ∧
      Grown adj minPoints points n' [] m' ∧ (∀ p ∈ order, m'.visited p) ∧
      ∀ q, m.visited q → m'.visited q := by
  induction order generalizing n m with
  | nil => exact ⟨n, m, rfl, h, by simp, fun q hq => hq⟩
  | cons p order ih =>
    obtain ⟨n₁, m₁, hpoint, hgrown, hp, hmono⟩ :=
      h.scanPoint hsymm hadj (horder p List.mem_cons_self) hrounds
    obtain ⟨n', m', hrest, hgrown', horder', hmono'⟩ :=
      ih (fun q hq => horder q (List.mem_cons_of_mem p hq)) hgrown
    refine ⟨n', m', ?_, hgrown', ?_, fun q hq => hmono' q (hmono q hq)⟩
    · rw [Density.scan, List.foldlM_cons, hpoint]
      exact hrest
    · intro q hq
      cases List.mem_cons.mp hq with
      | inl hqp => exact hqp ▸ hmono' p hp
      | inr hrest' => exact horder' q hrest'

end ReadexPtf.Density
