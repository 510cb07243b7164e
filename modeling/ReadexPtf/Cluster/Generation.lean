import ReadexPtf.Cluster.Merging
import Mathlib

/-! Which sets of RTSs have a dendrogram. -/
namespace ReadexPtf.Cluster
open ReadexPtf

section Runs
variable {ρ V : Type} [DecidableEq ρ] [Zero V] [LinearOrder V] {mem : Memory (Node ρ V) V}
  {clstd : ℕ → ℕ → ℕ → V → V → V → V} {d : VectorDistance ρ V} {rtss : UnorderedSet ρ}
  {s s' : Clustering mem}

/-- A round that returns has merged a closest pair. -/
theorem Partitions.merges (h : Partitions rtss s) (hrun : mergeClosest clstd s = .ok s') :
    ∃ dij ci cj, Merges clstd s dij ci cj s' ∧ Partitions rtss s' := by
  cases hm : s.D.minimum with
  | none => simp [mergeClosest, hm] at hrun
  | some m =>
    obtain ⟨dij, ci, cj⟩ := m
    by_cases hpos : 0 < dij
    · obtain ⟨t, ht, hmerges, hpart⟩ := h.exists_merges clstd hm hpos
      have heq : t = s' := Outcome.ok.inj (ht.symm.trans hrun)
      exact ⟨dij, ci, cj, heq ▸ hmerges, heq ▸ hpart⟩
    · simp [mergeClosest, hm, hpos] at hrun

theorem partitions_initial (h : initialClustering mem d rtss = .ok s) : Partitions rtss s := by
  obtain ⟨t, ht, hclusters, hentry⟩ := initialClustering_eq d mem rtss
  have heq : t = s := Outcome.ok.inj (ht.symm.trans h)
  subst heq
  have hleaf : ∀ x ∈ t.clusters, ∃ a ∈ rtss.elems, x = .leaf a := by
    intro x hx
    rw [hclusters, List.mem_map] at hx
    obtain ⟨a, ha, hax⟩ := hx
    exact ⟨a, ha, hax.symm⟩
  refine ⟨?_, fun x y _ => ?_, fun x hx => ?_⟩
  · rw [hclusters, List.flatMap_map]
    exact List.Perm.of_eq (by simp [Node.elements])
  · rw [hentry]
    split_ifs with hboth
    · refine iff_of_true ?_ hboth
      obtain ⟨a, -, ha⟩ := hleaf x hboth.1
      obtain ⟨b, -, hb⟩ := hleaf y hboth.2
      rw [ha, hb]
      rfl
    · exact iff_of_false (by simp) hboth
  · rw [hentry] at hx
    by_contra hnot
    simp [hnot] at hx

theorem Reaches.partitions (h : Reaches mem d clstd rtss s) : Partitions rtss s := by
  induction h with
  | start h => exact partitions_initial h
  | round hs hmore h ih =>
    obtain ⟨dij, ci, cj, -, hpart⟩ := ih.merges h
    exact hpart

theorem Merges.length_lt (hpart : Partitions rtss s) {dij : V} {ci cj : Node ρ V}
    (h : Merges clstd s dij ci cj s') : s'.clusters.length < s.clusters.length := by
  obtain ⟨hne, hi, hj⟩ := hpart.mem_of_minimum h.minimum
  rw [(Partitions.perm_others hne hi hj).length_eq, h.clusters, List.length_append]
  simp

/-- An entry of two clusters after a round was there before it, or was computed in it. -/
theorem Merges.entry_cases (hpart : Partitions rtss s) (hpart' : Partitions rtss s') {dij : V}
    {ci cj : Node ρ V} (h : Merges clstd s dij ci cj s') {x y : Node ρ V} (hne : x ≠ y) {dxy : V}
    (hentry : s'.D.entry x y = some dxy) :
    (x ∈ s.clusters ∧ y ∈ s.clusters ∧ s.D.entry x y = some dxy) ∨
      ∃ ck dik djk, ck ∈ (s.clusters.erase ci).erase cj ∧
        (x = .branch dij ci cj ∧ y = ck ∨ x = ck ∧ y = .branch dij ci cj) ∧
        s.D.entry ci ck = some dik ∧ s.D.entry cj ck = some djk ∧
        dxy = clstd ci.nelements cj.nelements ck.nelements dik djk dij := by
  have hboth := (hpart'.pairs x y hne).mp (by rw [hentry]; rfl)
  rw [h.clusters, List.mem_append, List.mem_append, List.mem_singleton, List.mem_singleton] at hboth
  cases hboth.1 with
  | inl hx =>
    cases hboth.2 with
    | inl hy =>
      rw [h.kept x y hx hy] at hentry
      exact .inl ⟨(hpart.mem_others.mp hx).1, (hpart.mem_others.mp hy).1, hentry⟩
    | inr hy =>
      obtain ⟨dik, djk, hdik, hdjk, hnew⟩ := h.merged x hx
      rw [hy, Matrix.entry_comm, hnew, Option.some.injEq] at hentry
      exact .inr ⟨x, dik, djk, hx, .inr ⟨rfl, hy⟩, hdik, hdjk, hentry.symm⟩
  | inr hx =>
    cases hboth.2 with
    | inl hy =>
      obtain ⟨dik, djk, hdik, hdjk, hnew⟩ := h.merged y hy
      rw [hx, hnew, Option.some.injEq] at hentry
      exact .inr ⟨y, dik, djk, hy, .inl ⟨hx, rfl⟩, hdik, hdjk, hentry.symm⟩
    | inr hy => exact absurd (hx.trans hy.symm) hne

/-- The merged pair is no farther apart than either of its nodes is from another cluster. -/
theorem Merges.le_entries (hpart : Partitions rtss s) {dij : V} {ci cj ck : Node ρ V}
    (h : Merges clstd s dij ci cj s') (hk : ck ∈ (s.clusters.erase ci).erase cj) {dik djk : V}
    (hik : s.D.entry ci ck = some dik) (hjk : s.D.entry cj ck = some djk) :
    dij ≤ dik ∧ dij ≤ djk := by
  obtain ⟨-, hki, hkj⟩ := hpart.mem_others.mp hk
  obtain ⟨-, -, hleast⟩ := Matrix.isMinimum_of_minimum h.minimum
  exact ⟨hleast ci ck dik hki.symm hik, hleast cj ck djk hkj.symm hjk⟩

/-- The loop ends with one cluster, as long as its distances stay positive. -/
theorem whileLoop_generates {inv : Clustering mem → Prop} (hne : rtss.elems ≠ [])
    (hpos : ∀ s m, inv s → Partitions rtss s → s.D.minimum = some m → 0 < m.1)
    (hkeep : ∀ s dij ci cj s', inv s → Partitions rtss s → Partitions rtss s' →
      Merges clstd s dij ci cj s' → inv s')
    {rounds : ℕ} (hinv : inv s) (hpart : Partitions rtss s) (hlen : s.clusters.length ≤ rounds) :
    ∃ root s', Outcome.whileLoop (fun s => s.clusters.length != 1) (mergeClosest clstd) rounds s =
      .ok s' ∧ s'.clusters = [root] ∧ Partitions rtss s' := by
  have hround : ∀ s : Clustering mem, s.clusters.length != 1 → inv s ∧ Partitions rtss s →
      ∃ s', mergeClosest clstd s = .ok s' ∧ (inv s' ∧ Partitions rtss s') ∧
        s'.clusters.length < s.clusters.length := by
    intro s hmore hs
    obtain ⟨m, hm⟩ := hs.2.exists_minimum hne (by simpa using hmore)
    obtain ⟨s', hstep, hmerges, hpart'⟩ := hs.2.exists_merges clstd hm (hpos s m hs.1 hs.2 hm)
    exact ⟨s', hstep, ⟨hkeep s _ _ _ s' hs.1 hs.2 hpart' hmerges, hpart'⟩, hmerges.length_lt hs.2⟩
  obtain ⟨s', hrun, hend, hstop⟩ := Outcome.whileLoop_total (fun s => inv s ∧ Partitions rtss s)
    (fun s => s.clusters.length) hround rounds s ⟨hinv, hpart⟩ hlen
  obtain ⟨root, hroot⟩ := List.length_eq_one_iff.mp (by simpa using hstop)
  exact ⟨root, s', hrun, hroot, hend.2⟩

end Runs

variable {ρ V : Type} [DecidableEq ρ] [Field V] [LinearOrder V] {mem : Memory (Node ρ V) V}
  {d : VectorDistance ρ V} {linkage : Linkage} {rtss : UnorderedSet ρ} {s s' : Clustering mem}

/-- The matrix has an entry of two nodes if and only if both are clusters. -/
def EntriesOfPairs (s : Clustering mem) : Prop :=
  (∀ x y, x ≠ y → (s.D.has x y ↔ x ∈ s.clusters ∧ y ∈ s.clusters)) ∧
    ∀ x, s.D.has x x → x ∈ s.clusters

/-- The round replaces two clusters by their branch, and no two are closer than they were. -/
def MergesClosest (s s' : Clustering mem) : Prop :=
  ∃ dij ci cj, ci ∈ s.clusters ∧ cj ∈ s.clusters ∧ ci ≠ cj ∧ s.D.entry ci cj = some dij ∧
    (∀ x y dxy, x ≠ y → s.D.entry x y = some dxy → dij ≤ dxy) ∧
    s'.clusters = (s.clusters.erase ci).erase cj ++ [.branch dij ci cj]

/-- Each RTS is one leaf, and an inner node has the elements of its two children. -/
def IsDendrogramOf (root : Node ρ V) (rtss : UnorderedSet ρ) : Prop :=
  root.elements.Perm rtss.elems ∧ ∀ n ∈ root.nodes, n.nelements = n.elements.length ∧
    ∀ dist left right, n = .branch dist left right →
      left.elements.Disjoint right.elements ∧
        ∀ a, a ∈ n.elements ↔ a ∈ left.elements ∨ a ∈ right.elements

/-- The run returns a dendrogram, and every round of it does what it should. -/
def GeneratesDendrogram (mem : Memory (Node ρ V) V) (d : VectorDistance ρ V) (linkage : Linkage)
    (rtss : UnorderedSet ρ) : Prop :=
  (∃ root, generateDendrogram mem d linkage.update rtss = .ok root ∧ IsDendrogramOf root rtss) ∧
    ∀ s, Reaches mem d linkage.update rtss s → EntriesOfPairs s ∧
      ∀ s', mergeClosest linkage.update s = .ok s' → MergesClosest s s'

omit [DecidableEq ρ] [Field V] [LinearOrder V] in
theorem nodup_of_mem_nodes {n root : Node ρ V} (h : n ∈ root.nodes) (hroot : root.elements.Nodup) :
    n.elements.Nodup := by
  induction root with
  | leaf a =>
    rw [Node.nodes, List.mem_singleton] at h
    exact h ▸ hroot
  | branch dist left right ihl ihr =>
    rw [Node.nodes, List.mem_cons, List.mem_append] at h
    rw [Node.elements, List.nodup_append'] at hroot
    rcases h with hself | hleft | hright
    · rw [hself, Node.elements, List.nodup_append']
      exact hroot
    · exact ihl hleft hroot.1
    · exact ihr hright hroot.2.1

omit [DecidableEq ρ] [Field V] [LinearOrder V] in
theorem isDendrogramOf {root : Node ρ V} (h : root.elements.Perm rtss.elems) :
    IsDendrogramOf root rtss := by
  refine ⟨h, fun n hn => ⟨n.length_elements.symm, ?_⟩⟩
  rintro dist left right rfl
  have hnodup := nodup_of_mem_nodes hn (h.nodup_iff.mpr rtss.nodup)
  rw [Node.elements, List.nodup_append'] at hnodup
  exact ⟨hnodup.2.2, fun a => List.mem_append⟩

theorem Reaches.entriesOfPairs {clstd : ℕ → ℕ → ℕ → V → V → V → V}
    (h : Reaches mem d clstd rtss s) : EntriesOfPairs s :=
  ⟨h.partitions.pairs, h.partitions.own⟩

theorem mergesClosest {clstd : ℕ → ℕ → ℕ → V → V → V → V} (h : Reaches mem d clstd rtss s)
    (hrun : mergeClosest clstd s = .ok s') : MergesClosest s s' := by
  obtain ⟨dij, ci, cj, hmerges, -⟩ := h.partitions.merges hrun
  obtain ⟨hne, hi, hj⟩ := h.partitions.mem_of_minimum hmerges.minimum
  obtain ⟨-, hentry, hleast⟩ := Matrix.isMinimum_of_minimum hmerges.minimum
  exact ⟨dij, ci, cj, hi, hj, hne, hentry, hleast, hmerges.clusters⟩

/-- The entries of the start are distances of two RTSs. -/
theorem initial_entry (h : initialClustering mem d rtss = .ok s) {x y : Node ρ V} {dxy : V}
    (hentry : s.D.entry x y = some dxy) :
    ∃ a ∈ rtss.elems, ∃ b ∈ rtss.elems, x = .leaf a ∧ y = .leaf b ∧ dxy = d.between a b := by
  obtain ⟨t, ht, hclusters, hentries⟩ := initialClustering_eq d mem rtss
  have heq : t = s := Outcome.ok.inj (ht.symm.trans h)
  subst heq
  rw [hentries] at hentry
  split_ifs at hentry with hboth
  rw [hclusters, List.mem_map, List.mem_map] at hboth
  obtain ⟨⟨a, ha, hax⟩, b, hb, hby⟩ := hboth
  rw [← hax, ← hby, leafDistance, Option.some.injEq] at hentry
  exact ⟨a, ha, b, hb, hax.symm, hby.symm, hentry.symm⟩

/-- No two RTSs are at distance zero. -/
def Apart (d : VectorDistance ρ V) (rtss : UnorderedSet ρ) : Prop :=
  rtss.elems.Pairwise fun a b => d.between a b ≠ 0

omit [DecidableEq ρ] in
theorem Apart.pos (h : Apart d rtss) {a b : ρ} (ha : a ∈ rtss.elems) (hb : b ∈ rtss.elems)
    (hne : a ≠ b) : 0 < d.between a b := by
  have hsymm : Std.Symm fun a b => d.between a b ≠ 0 := ⟨fun a b hab => d.symm a b ▸ hab⟩
  exact lt_of_le_of_ne (d.nonneg a b) (List.Pairwise.forall h ha hb hne).symm

theorem positive_initial (hapart : Apart d rtss) (h : initialClustering mem d rtss = .ok s) :
    Positive s := by
  intro x y dxy hne hentry
  obtain ⟨a, ha, b, hb, hx, hy, hdxy⟩ := initial_entry h hentry
  have hab : a ≠ b := fun heq => hne (hx.trans (heq ▸ hy.symm))
  exact hdxy ▸ hapart.pos ha hb hab

theorem Merges.positive [IsStrictOrderedRing V] (hpart : Partitions rtss s)
    (hpart' : Partitions rtss s') {dij : V} {ci cj : Node ρ V}
    (h : Merges linkage.update s dij ci cj s') (hpos : Positive s) : Positive s' := by
  intro x y dxy hne hentry
  rcases h.entry_cases hpart hpart' hne hentry with
    ⟨-, -, hold⟩ | ⟨ck, dik, djk, hk, -, hdik, hdjk, hnew⟩
  · exact hpos x y dxy hne hold
  · obtain ⟨hik, hjk⟩ := h.le_entries hpart hk hdik hdjk
    exact hnew ▸ linkage.update_pos ci.nelements_pos cj.nelements_pos h.pos hik hjk

/-- A run of RTSs that are apart from each other returns their dendrogram. -/
theorem exists_dendrogram [IsStrictOrderedRing V] (mem : Memory (Node ρ V) V) (linkage : Linkage)
    (hne : rtss.elems ≠ []) (hapart : Apart d rtss) :
    ∃ root, generateDendrogram mem d linkage.update rtss = .ok root ∧
      IsDendrogramOf root rtss := by
  obtain ⟨s, hstart, hclusters, -⟩ := initialClustering_eq d mem rtss
  have hlen : s.clusters.length ≤ rtss.elems.length := by rw [hclusters, List.length_map]
  obtain ⟨root, s', hrun, hroot, hpart⟩ := whileLoop_generates hne
    (fun s m hpos _ hm => by
      obtain ⟨hne, hentry, -⟩ := Matrix.isMinimum_of_minimum hm
      exact hpos _ _ _ hne hentry)
    (fun s dij ci cj s' hpos hpart hpart' hmerges => Merges.positive hpart hpart' hmerges hpos)
    (positive_initial hapart hstart) (partitions_initial hstart) hlen
  have hleaves := hpart.leaves
  rw [hroot, List.flatMap_singleton] at hleaves
  refine ⟨root, ?_, isDendrogramOf hleaves⟩
  rw [generateDendrogram, hstart, Outcome.ok_bind, hrun, Outcome.ok_bind, hroot]
  rfl

/-- Two RTSs at distance zero: the first branch fails its assertion. -/
theorem aborts_of_zero {clstd : ℕ → ℕ → ℕ → V → V → V → V} {a b : ρ} (ha : a ∈ rtss.elems)
    (hb : b ∈ rtss.elems) (hab : a ≠ b) (hzero : d.between a b = 0) :
    generateDendrogram mem d clstd rtss = .aborts := by
  obtain ⟨s, hstart, hclusters, hentries⟩ := initialClustering_eq d mem rtss
  have hleaf : (Node.leaf a : Node ρ V) ≠ .leaf b := fun heq => hab (Node.leaf.inj heq)
  have hmem : ∀ c ∈ rtss.elems, .leaf c ∈ s.clusters := fun c hc =>
    hclusters ▸ List.mem_map_of_mem hc
  have hentry : s.D.entry (.leaf a) (.leaf b) = some 0 := by
    rw [hentries, if_pos ⟨hmem a ha, hmem b hb⟩, leafDistance, hzero]
  obtain ⟨m, hm⟩ := Matrix.exists_minimum hleaf hentry
  have hnot : ¬ 0 < m.1 :=
    not_lt.mpr ((Matrix.isMinimum_of_minimum hm).2.2 _ _ 0 hleaf hentry)
  have hround : mergeClosest clstd s = .aborts := by
    simp only [mergeClosest, hm, if_neg hnot]
  have hmore : (s.clusters.length != 1) = true := by
    rw [bne_iff_ne]
    intro hone
    obtain ⟨c, hc⟩ := List.length_eq_one_iff.mp hone
    have hac := hmem a ha
    have hbc := hmem b hb
    rw [hc, List.mem_singleton] at hac hbc
    exact hleaf (hac.trans hbc.symm)
  obtain ⟨n, hn⟩ := Nat.exists_eq_succ_of_ne_zero (List.length_pos_of_mem ha).ne'
  rw [generateDendrogram, hstart, Outcome.ok_bind, hn, Outcome.whileLoop, if_pos hmore, hround]
  rfl

/-- A set of RTSs has its dendrogram exactly if no two of them are at distance zero. -/
theorem generatesDendrogram_iff [IsStrictOrderedRing V] (mem : Memory (Node ρ V) V)
    (d : VectorDistance ρ V) (linkage : Linkage) (rtss : UnorderedSet ρ) (hne : rtss.elems ≠ []) :
    GeneratesDendrogram mem d linkage rtss ↔
      rtss.elems.Pairwise fun a b => d.between a b ≠ 0 := by
  constructor
  · rintro ⟨⟨root, hrun, -⟩, -⟩
    refine rtss.nodup.imp_of_mem fun ha hb hab hzero => ?_
    rw [aborts_of_zero ha hb hab hzero] at hrun
    exact absurd hrun (by simp)
  · exact fun hapart => ⟨exists_dendrogram mem linkage hne hapart, fun s hs =>
      ⟨hs.entriesOfPairs, fun s' hrun => mergesClosest hs hrun⟩⟩

/-- The distance of numbers on a line, at which each RTS lies. -/
def onLine (position : ℕ → ℚ) : VectorDistance ℕ ℚ where
  between a b := |position a - position b|
  symm _ _ := abs_sub_comm _ _
  nonneg _ _ := abs_nonneg _

theorem generatesDendrogram_onLine :
    ([0, 1, 2].Pairwise fun a b => (onLine fun n => n * n).between a b ≠ 0) ∧
      GeneratesDendrogram .ordered (onLine fun n => n * n) .centroid ⟨[0, 1, 2], by decide⟩ := by
  have hapart : [0, 1, 2].Pairwise fun a b => (onLine fun n => n * n).between a b ≠ 0 := by
    decide +kernel
  exact ⟨hapart, (generatesDendrogram_iff .ordered _ _ ⟨[0, 1, 2], by decide⟩ (by simp)).mpr hapart⟩

/-- Two RTSs with the same configuration: the run aborts. -/
theorem not_generatesDendrogram_equal :
    ¬ ∀ rtss : UnorderedSet ℕ, rtss.elems ≠ [] →
      GeneratesDendrogram .ordered (onLine fun _ => 2400000) .centroid rtss := by
  intro h
  obtain ⟨⟨root, hrun, -⟩, -⟩ := h ⟨[0, 1], by decide⟩ (by simp)
  rw [aborts_of_zero (a := 0) (b := 1) (by simp) (by simp) (by simp) (by decide +kernel)] at hrun
  exact absurd hrun (by simp)

end ReadexPtf.Cluster
