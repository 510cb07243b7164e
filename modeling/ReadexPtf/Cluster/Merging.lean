import ReadexPtf.Cluster.Dendrogram
import Mathlib

/-! What a run of `generate_dendrogram` keeps: the clusters partition the RTSs, and the matrix
has an entry for exactly the pairs of them. -/
namespace ReadexPtf.Cluster
open ReadexPtf

variable {ρ V : Type} [DecidableEq ρ] [LinearOrder V] {mem : Memory (Node ρ V) V}

/-- The clusters partition the RTSs, the matrix has the entries of the pairs of clusters,
and entries of one node only of clusters. -/
structure Partitions (rtss : UnorderedSet ρ) (s : Clustering mem) : Prop where
  leaves : (s.clusters.flatMap Node.elements).Perm rtss.elems
  pairs : ∀ x y, x ≠ y → ((s.D.entry x y).isSome ↔ x ∈ s.clusters ∧ y ∈ s.clusters)
  own : ∀ x, (s.D.entry x x).isSome → x ∈ s.clusters

namespace Partitions
variable {rtss : UnorderedSet ρ} {s : Clustering mem}

theorem disjoint (h : Partitions rtss s) {x y : Node ρ V} (hx : x ∈ s.clusters)
    (hy : y ∈ s.clusters) (hne : x ≠ y) : List.Disjoint x.elements y.elements := by
  have hnodup := h.leaves.nodup_iff.mpr rtss.nodup
  have hsymm : Std.Symm (Function.onFun List.Disjoint (Node.elements : Node ρ V → List ρ)) :=
    ⟨fun _ _ => List.Disjoint.symm⟩
  exact (List.nodup_flatMap.mp hnodup).2.forall hx hy hne

theorem nodup (h : Partitions rtss s) : s.clusters.Nodup := by
  have hnodup := h.leaves.nodup_iff.mpr rtss.nodup
  refine (List.nodup_flatMap.mp hnodup).2.imp fun hdisj heq => ?_
  rename_i x y
  obtain ⟨a, ha⟩ := List.exists_mem_of_ne_nil _ x.elements_ne_nil
  exact hdisj ha (heq ▸ ha)

theorem mem_others (h : Partitions rtss s) {ci cj x : Node ρ V} :
    x ∈ (s.clusters.erase ci).erase cj ↔ x ∈ s.clusters ∧ x ≠ ci ∧ x ≠ cj := by
  rw [(h.nodup.erase ci).mem_erase_iff, h.nodup.mem_erase_iff]
  tauto

/-- A new branch is no cluster yet: it has leaves of one of them. -/
theorem branch_notMem (h : Partitions rtss s) {ci : Node ρ V} (dij : V) (cj : Node ρ V)
    (hi : ci ∈ s.clusters) : Node.branch dij ci cj ∉ s.clusters := by
  intro hmem
  have hne : Node.branch dij ci cj ≠ ci := by
    intro heq
    have hsize := congrArg Node.nelements heq
    have := cj.nelements_pos
    rw [Node.nelements] at hsize
    omega
  obtain ⟨a, ha⟩ := List.exists_mem_of_ne_nil _ ci.elements_ne_nil
  exact h.disjoint hmem hi hne (List.mem_append_left _ ha) ha

/-- Two clusters can be merged. -/
theorem exists_minimum (h : Partitions rtss s) (hne : rtss.elems ≠ [])
    (hmore : s.clusters.length ≠ 1) : ∃ m, s.D.minimum = some m := by
  cases hclusters : s.clusters with
  | nil =>
    have hleaves := h.leaves
    rw [hclusters] at hleaves
    exact absurd hleaves.nil_eq.symm hne
  | cons x rest =>
    cases rest with
    | nil => exact absurd (by rw [hclusters]; rfl) hmore
    | cons y rest =>
      have hnodup := h.nodup
      rw [hclusters] at hnodup
      have hxy : x ≠ y := fun heq => (List.nodup_cons.mp hnodup).1 (heq ▸ List.mem_cons_self)
      have hentry := (h.pairs x y hxy).mpr (by simp [hclusters])
      obtain ⟨d, hd⟩ := Option.isSome_iff_exists.mp hentry
      exact Matrix.exists_minimum hxy hd

theorem mem_of_minimum (h : Partitions rtss s) {dij : V} {ci cj : Node ρ V}
    (hm : s.D.minimum = some (dij, ci, cj)) :
    ci ≠ cj ∧ ci ∈ s.clusters ∧ cj ∈ s.clusters := by
  obtain ⟨hne, hentry, -⟩ := Matrix.isMinimum_of_minimum hm
  exact ⟨hne, (h.pairs ci cj hne).mp (by rw [hentry]; rfl)⟩

/-- A pair of clusters, and the others. -/
theorem perm_others {ci cj : Node ρ V} (hne : ci ≠ cj) (hi : ci ∈ s.clusters)
    (hj : cj ∈ s.clusters) : s.clusters.Perm (ci :: cj :: (s.clusters.erase ci).erase cj) := by
  have hj' : cj ∈ s.clusters.erase ci := (List.mem_erase_of_ne hne.symm).mpr hj
  exact (List.perm_cons_erase hi).trans ((List.perm_cons_erase hj').cons ci)

end Partitions

/-- The distances of a merged cluster to the others `cks`. Its entries are new, so every round
still reads what was there. -/
theorem addDistances (clstd : ℕ → ℕ → ℕ → V → V → V → V) {ci cj cij : Node ρ V} (dij : V) (hi : cij ≠ ci) (hj : cij ≠ cj) :
    ∀ (cks : List (Node ρ V)) (D : Matrix mem), cij ∉ cks →
      (∀ ck ∈ cks, (D.entry ci ck).isSome ∧ (D.entry cj ck).isSome) →
      ∃ D', cks.foldlM (addDistance clstd dij ci cj cij) D = .ok D' ∧
        (∀ x y, ¬ (x = cij ∧ y ∈ cks ∨ y = cij ∧ x ∈ cks) → D'.entry x y = D.entry x y) ∧
        ∀ ck ∈ cks, ∀ dik djk, D.entry ci ck = some dik → D.entry cj ck = some djk →
          D'.entry cij ck =
            some (clstd ci.nelements cj.nelements ck.nelements dik djk dij) := by
  intro cks
  induction cks with
  | nil => exact fun D _ _ => ⟨D, rfl, by simp, by simp⟩
  | cons ck cks ih =>
    intro D hfresh hentries
    have hfresh : cij ∉ cks := fun h => hfresh (List.mem_cons_of_mem ck h)
    obtain ⟨⟨hik, hjk⟩, hrest⟩ := List.forall_mem_cons.mp hentries
    obtain ⟨dik, hdik⟩ := Option.isSome_iff_exists.mp hik
    obtain ⟨djk, hdjk⟩ := Option.isSome_iff_exists.mp hjk
    have hstep : addDistance clstd dij ci cj cij D ck =
        .ok (D.set ck cij (clstd ci.nelements cj.nelements ck.nelements dik djk dij)) := by
      rw [addDistance, Matrix.get_eq_ok.mpr hdik, Matrix.get_eq_ok.mpr hdjk]
      rfl
    have hkept : ∀ c c', c ≠ cij → c' ≠ cij →
        (D.set ck cij (clstd ci.nelements cj.nelements ck.nelements dik djk dij)).entry c c' =
          D.entry c c' := by
      intro c c' hc hc'
      rw [Matrix.entry_set, if_neg]
      intro h
      cases h with
      | inl h => exact hc' h.2
      | inr h => exact hc h.1
    have hother : ∀ c ∈ cks, c ≠ cij := fun c hc heq => hfresh (heq ▸ hc)
    obtain ⟨D', hrun, hsame, hnew⟩ := ih (D.set ck cij _) hfresh fun c hc => by
      rw [hkept ci c hi.symm (hother c hc), hkept cj c hj.symm (hother c hc)]
      exact hrest c hc
    refine ⟨D', by rw [List.foldlM_cons, hstep, Outcome.ok_bind, hrun], ?_, ?_⟩
    · intro x y hxy
      rw [hsame x y (fun h => hxy (h.imp (And.imp_right (List.mem_cons_of_mem ck))
        (And.imp_right (List.mem_cons_of_mem ck)))), Matrix.entry_set, if_neg]
      intro h
      cases h with
      | inl h => exact hxy (.inr ⟨h.2, List.mem_cons.mpr (.inl h.1)⟩)
      | inr h => exact hxy (.inl ⟨h.1, List.mem_cons.mpr (.inl h.2)⟩)
    · intro c hc eik ejk heik hejk
      by_cases hmem : c ∈ cks
      · refine hnew c hmem eik ejk ?_ ?_
        · rw [hkept ci c hi.symm (hother c hmem), heik]
        · rw [hkept cj c hj.symm (hother c hmem), hejk]
      · have hself : c = ck := (List.mem_cons.mp hc).resolve_right hmem
        subst hself
        rw [Option.some.inj (heik.symm.trans hdik), Option.some.inj (hejk.symm.trans hdjk),
          hsame cij c ?_, Matrix.entry_set, if_pos (.inr ⟨rfl, rfl⟩)]
        intro h
        cases h with
        | inl h => exact hmem h.2
        | inr h => exact hmem (h.1 ▸ h.2)

/-- The matrix after a round that merges `ci` and `cj`: their entries are gone, those of the
new cluster are computed from them, and the rest stays. -/
theorem Partitions.exists_entries {rtss : UnorderedSet ρ} {s : Clustering mem}
    (h : Partitions rtss s) (clstd : ℕ → ℕ → ℕ → V → V → V → V) {ci cj : Node ρ V} (dij : V)
    (hi : ci ∈ s.clusters) (hj : cj ∈ s.clusters) :
    ∃ D, (mem.nodes.order ((s.clusters.erase ci).erase cj)).foldlM
        (addDistance clstd dij ci cj (.branch dij ci cj)) s.D = .ok D ∧
      (∀ x y, x = ci ∨ x = cj ∨ y = ci ∨ y = cj →
        ((D.remove ci).remove cj).entry x y = none) ∧
      (∀ ck ∈ (s.clusters.erase ci).erase cj, ∃ dik djk,
        s.D.entry ci ck = some dik ∧ s.D.entry cj ck = some djk ∧
          ((D.remove ci).remove cj).entry (.branch dij ci cj) ck =
            some (clstd ci.nelements cj.nelements ck.nelements dik djk dij)) ∧
      ∀ x y, ¬ (x = ci ∨ x = cj ∨ y = ci ∨ y = cj) →
        ¬ (x = .branch dij ci cj ∧ y ∈ (s.clusters.erase ci).erase cj ∨
          y = .branch dij ci cj ∧ x ∈ (s.clusters.erase ci).erase cj) →
        ((D.remove ci).remove cj).entry x y = s.D.entry x y := by
  have hfresh := h.branch_notMem dij cj hi
  have hci : Node.branch dij ci cj ≠ ci := fun heq => hfresh (heq.symm ▸ hi)
  have hcj : Node.branch dij ci cj ≠ cj := fun heq => hfresh (heq.symm ▸ hj)
  have hold : ∀ ck ∈ (s.clusters.erase ci).erase cj,
      ∃ dik djk, s.D.entry ci ck = some dik ∧ s.D.entry cj ck = some djk := by
    intro ck hck
    obtain ⟨hk, hki, hkj⟩ := h.mem_others.mp hck
    obtain ⟨dik, hdik⟩ := Option.isSome_iff_exists.mp ((h.pairs ci ck hki.symm).mpr ⟨hi, hk⟩)
    obtain ⟨djk, hdjk⟩ := Option.isSome_iff_exists.mp ((h.pairs cj ck hkj.symm).mpr ⟨hj, hk⟩)
    exact ⟨dik, djk, hdik, hdjk⟩
  obtain ⟨D, hrun, hsame, hnew⟩ := addDistances clstd dij hci hcj
    (mem.nodes.order ((s.clusters.erase ci).erase cj)) s.D
    (fun hin => hfresh (h.mem_others.mp ((Traversal.mem_order _).mp hin)).1) fun c hc => by
      obtain ⟨dik, djk, hdik, hdjk⟩ := hold c ((Traversal.mem_order _).mp hc)
      rw [hdik, hdjk]
      exact ⟨rfl, rfl⟩
  simp only [Traversal.mem_order] at hsame hnew
  have hentry : ∀ x y, ¬ (x = ci ∨ x = cj ∨ y = ci ∨ y = cj) →
      ((D.remove ci).remove cj).entry x y = D.entry x y := by
    intro x y hxy
    simp only [not_or] at hxy
    rw [Matrix.entry_remove, if_neg (not_or.mpr ⟨hxy.2.1, hxy.2.2.2⟩), Matrix.entry_remove,
      if_neg (not_or.mpr ⟨hxy.1, hxy.2.2.1⟩)]
  refine ⟨D, hrun, fun x y hxy => ?_, fun ck hck => ?_, fun x y hxy hpair => ?_⟩
  · rw [Matrix.entry_remove, Matrix.entry_remove]
    split_ifs with hj hi
    · rfl
    · rfl
    · simp only [not_or] at hi hj
      simp [hi, hj] at hxy
  · obtain ⟨-, hki, hkj⟩ := h.mem_others.mp hck
    obtain ⟨dik, djk, hdik, hdjk⟩ := hold ck hck
    refine ⟨dik, djk, hdik, hdjk, ?_⟩
    rw [hentry _ _ (by simp [hci, hcj, hki, hkj]), hnew ck hck dik djk hdik hdjk]
  · rw [hentry x y hxy, hsame x y hpair]

variable [Zero V]

section Start
variable (d : VectorDistance ρ V)

/-- The distance of two leaves. -/
def leafDistance : Node ρ V → Node ρ V → Option V
  | .leaf a, .leaf b => some (d.between a b)
  | _, _ => none

/-- The entries of one RTS. -/
theorem setInitialDistances (a : ρ) (bs : List ρ) (D : Matrix mem) :
    ∃ D', (bs.map Node.leaf).foldlM (setInitialDistance d (.leaf a)) D = .ok D' ∧
      ∀ x y, D'.entry x y =
        if x = .leaf a ∧ y ∈ bs.map Node.leaf ∨ y = .leaf a ∧ x ∈ bs.map Node.leaf
        then leafDistance d x y else D.entry x y := by
  induction bs generalizing D with
  | nil => exact ⟨D, rfl, by simp⟩
  | cons b bs ih =>
    obtain ⟨D', hrun, hentry⟩ := ih (D.set (.leaf a) (.leaf b) (d.between a b))
    refine ⟨D', ?_, fun x y => ?_⟩
    · rw [List.map_cons, List.foldlM_cons, setInitialDistance, Outcome.ok_bind, hrun]
    · rw [hentry, Matrix.entry_set, List.map_cons]
      by_cases hrest : x = .leaf a ∧ y ∈ bs.map Node.leaf ∨ y = .leaf a ∧ x ∈ bs.map Node.leaf
      · have hall : x = .leaf a ∧ y ∈ .leaf b :: bs.map Node.leaf ∨
            y = .leaf a ∧ x ∈ .leaf b :: bs.map Node.leaf :=
          hrest.imp (And.imp_right (List.mem_cons_of_mem _)) (And.imp_right (List.mem_cons_of_mem _))
        rw [if_pos hrest, if_pos hall]
      · rw [if_neg hrest]
        by_cases hnew : x = .leaf a ∧ y = .leaf b ∨ x = .leaf b ∧ y = .leaf a
        · rw [if_pos hnew]
          cases hnew with
          | inl h =>
            rw [if_pos (.inl ⟨h.1, List.mem_cons.mpr (.inl h.2)⟩), h.1, h.2, leafDistance]
          | inr h =>
            rw [if_pos (.inr ⟨h.2, List.mem_cons.mpr (.inl h.1)⟩), h.1, h.2, leafDistance, d.symm]
        · rw [if_neg hnew, if_neg]
          intro h
          cases h with
          | inl h =>
            cases List.mem_cons.mp h.2 with
            | inl hy => exact hnew (.inl ⟨h.1, hy⟩)
            | inr hy => exact hrest (.inl ⟨h.1, hy⟩)
          | inr h =>
            cases List.mem_cons.mp h.2 with
            | inl hx => exact hnew (.inr ⟨hx, h.1⟩)
            | inr hx => exact hrest (.inr ⟨h.1, hx⟩)

/-- The entries of some RTSs in their rows and columns. -/
theorem setAllInitialDistances (as bs : List ρ) (D : Matrix mem) :
    ∃ D', (as.map Node.leaf).foldlM
        (fun D c1 => (bs.map Node.leaf).foldlM (setInitialDistance d c1) D) D = .ok D' ∧
      ∀ x y, D'.entry x y =
        if x ∈ as.map Node.leaf ∧ y ∈ bs.map Node.leaf ∨
          y ∈ as.map Node.leaf ∧ x ∈ bs.map Node.leaf
        then leafDistance d x y else D.entry x y := by
  induction as generalizing D with
  | nil => exact ⟨D, rfl, by simp⟩
  | cons a as ih =>
    obtain ⟨D₁, hrow, hentry₁⟩ := setInitialDistances d a bs D
    obtain ⟨D', hrun, hentry⟩ := ih D₁
    refine ⟨D', ?_, fun x y => ?_⟩
    · rw [List.map_cons, List.foldlM_cons, hrow, Outcome.ok_bind, hrun]
    · rw [hentry, hentry₁, ← ite_or]
      refine if_congr ?_ rfl rfl
      simp only [List.map_cons, List.mem_cons]
      tauto

/-- The matrix starts with the distances of all pairs of RTSs. -/
theorem initialClustering_eq (mem : Memory (Node ρ V) V) (rtss : UnorderedSet ρ) :
    ∃ s, initialClustering mem d rtss = .ok s ∧ s.clusters = rtss.elems.map .leaf ∧
      ∀ x y, s.D.entry x y =
        if x ∈ s.clusters ∧ y ∈ s.clusters then leafDistance d x y else none := by
  obtain ⟨as, hperm, horder⟩ :=
    Traversal.exists_of_perm_map (mem.nodes.perm (rtss.elems.map .leaf))
  obtain ⟨D, hrun, hentry⟩ := setAllInitialDistances d as as (.empty : Matrix mem)
  refine ⟨⟨rtss.elems.map .leaf, D⟩, ?_, rfl, fun x y => ?_⟩
  · simp only [initialClustering, generateDistanceMatrix, horder, hrun, Outcome.ok_bind]
    rfl
  · rw [hentry, Matrix.entry_empty]
    refine if_congr ?_ rfl rfl
    rw [(hperm.map Node.leaf).mem_iff, (hperm.map Node.leaf).mem_iff, and_comm, or_self, and_comm]

end Start

/-- Every entry of two clusters is positive. -/
def Positive (s : Clustering mem) : Prop := ∀ x y d, x ≠ y → s.D.entry x y = some d → 0 < d

/-- The round that merges `ci` and `cj` at `dij`: the pair is a closest one, and the entries of
the new cluster are computed from those of the two old ones. -/
structure Merges (clstd : ℕ → ℕ → ℕ → V → V → V → V) (s : Clustering mem) (dij : V)
    (ci cj : Node ρ V) (s' : Clustering mem) : Prop where
  minimum : s.D.minimum = some (dij, ci, cj)
  pos : 0 < dij
  clusters : s'.clusters = (s.clusters.erase ci).erase cj ++ [.branch dij ci cj]
  kept : ∀ x y, x ∈ (s.clusters.erase ci).erase cj → y ∈ (s.clusters.erase ci).erase cj →
    s'.D.entry x y = s.D.entry x y
  merged : ∀ ck ∈ (s.clusters.erase ci).erase cj, ∃ dik djk,
    s.D.entry ci ck = some dik ∧ s.D.entry cj ck = some djk ∧
      s'.D.entry (.branch dij ci cj) ck =
        some (clstd ci.nelements cj.nelements ck.nelements dik djk dij)

namespace Partitions
variable {rtss : UnorderedSet ρ} {s : Clustering mem}

/-- What a round does with a closest pair at a positive distance. -/
theorem exists_merges (h : Partitions rtss s) (clstd : ℕ → ℕ → ℕ → V → V → V → V)
    {dij : V} {ci cj : Node ρ V}
    (hm : s.D.minimum = some (dij, ci, cj)) (hpos : 0 < dij) :
    ∃ s', mergeClosest clstd s = .ok s' ∧ Merges clstd s dij ci cj s' ∧ Partitions rtss s' := by
  obtain ⟨hne, hi, hj⟩ := h.mem_of_minimum hm
  have hfresh := h.branch_notMem dij cj hi
  obtain ⟨D, hrun, hremoved, hnew, hsame⟩ := h.exists_entries clstd dij hi hj
  have hother : ∀ c ∈ (s.clusters.erase ci).erase cj,
      c ≠ ci ∧ c ≠ cj ∧ c ≠ .branch dij ci cj := by
    intro c hc
    obtain ⟨hmem, hci, hcj⟩ := h.mem_others.mp hc
    exact ⟨hci, hcj, fun heq => hfresh (heq ▸ hmem)⟩
  have hmem : ∀ c, c ∈ (s.clusters.erase ci).erase cj ++ [.branch dij ci cj] ↔
      c ∈ (s.clusters.erase ci).erase cj ∨ c = .branch dij ci cj := by
    intro c
    rw [List.mem_append, List.mem_singleton]
  have hgone : ∀ c ∈ (s.clusters.erase ci).erase cj ++ [.branch dij ci cj], c ≠ ci ∧ c ≠ cj := by
    intro c hc
    cases (hmem c).mp hc with
    | inl hc => exact ⟨(hother c hc).1, (hother c hc).2.1⟩
    | inr hself =>
      rw [hself]
      exact ⟨fun heq => hfresh (heq.symm ▸ hi), fun heq => hfresh (heq.symm ▸ hj)⟩
  refine ⟨⟨(s.clusters.erase ci).erase cj ++ [.branch dij ci cj], (D.remove ci).remove cj⟩, ?_,
    ⟨hm, hpos, rfl, fun x y hx hy => ?_, hnew⟩, ⟨?_, fun x y hxy => ?_, fun x hx => ?_⟩⟩
  · simp only [mergeClosest, hm, if_pos hpos, hrun, Outcome.ok_bind]
    rfl
  · have hx' := hother x hx
    have hy' := hother y hy
    exact hsame x y (by tauto) (by tauto)
  · have hpair := (perm_others hne hi hj).flatMap_right Node.elements
    refine List.Perm.trans ?_ (hpair.symm.trans h.leaves)
    rw [List.flatMap_append, List.flatMap_singleton, Node.elements, List.flatMap_cons,
      List.flatMap_cons, ← List.append_assoc ci.elements]
    exact List.perm_append_comm
  · by_cases hout : x = ci ∨ x = cj ∨ y = ci ∨ y = cj
    · rw [hremoved x y hout]
      refine ⟨fun hsome => absurd hsome (by simp), fun hin => ?_⟩
      have hx := hgone x hin.1
      have hy := hgone y hin.2
      tauto
    · rw [hmem, hmem]
      by_cases hpair : x = .branch dij ci cj ∧ y ∈ (s.clusters.erase ci).erase cj ∨
          y = .branch dij ci cj ∧ x ∈ (s.clusters.erase ci).erase cj
      · refine iff_of_true ?_ (by tauto)
        cases hpair with
        | inl hp =>
          obtain ⟨dik, djk, -, -, hentry⟩ := hnew y hp.2
          rw [hp.1, hentry]
          rfl
        | inr hp =>
          obtain ⟨dik, djk, -, -, hentry⟩ := hnew x hp.2
          rw [hp.1, Matrix.entry_comm, hentry]
          rfl
      · rw [hsame x y hout hpair, h.pairs x y hxy, h.mem_others, h.mem_others]
        rw [h.mem_others, h.mem_others] at hpair
        have hboth : ¬ (x = .branch dij ci cj ∧ y = .branch dij ci cj) :=
          fun heq => hxy (heq.1.trans heq.2.symm)
        simp only [not_or] at hout
        constructor
        · intro hin
          exact ⟨.inl ⟨hin.1, hout.1, hout.2.1⟩, .inl ⟨hin.2, hout.2.2.1, hout.2.2.2⟩⟩
        · rintro ⟨hx | hx, hy | hy⟩
          · exact ⟨hx.1, hy.1⟩
          · exact absurd (.inr ⟨hy, hx⟩) hpair
          · exact absurd (.inl ⟨hx, hy⟩) hpair
          · exact absurd ⟨hx, hy⟩ hboth
  · by_cases hout : x = ci ∨ x = cj
    · rw [hremoved x x (by tauto)] at hx
      exact absurd hx (by simp)
    · rw [hsame x x (by tauto) fun hpair => (hother x (hpair.elim And.right And.right)).2.2
        (hpair.elim And.left And.left)] at hx
      have hin := h.own x hx
      rw [hmem, h.mem_others]
      tauto

end Partitions
end ReadexPtf.Cluster
