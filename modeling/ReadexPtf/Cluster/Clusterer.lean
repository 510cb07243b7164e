import ReadexPtf.Cluster.CalinskiHarabasz
import Mathlib

/-! The hierarchical clusterer: the number of clusters with the greatest index, and when the
clusters of that cut are a partition of the RTSs. -/
namespace ReadexPtf.Cluster
open ReadexPtf

section Model
variable {ρ V : Type} [DecidableEq ρ] [Field V] [LinearOrder V] (vs : Vectors ρ V)
  (mem : Memory (Node ρ V) V)

/-- One round of the loop over the numbers of clusters. -/
def keepGreater (root : Node ρ V) (n : ℕ) (best : ℕ × Dbl V) (K : ℕ) : Outcome (ℕ × Dbl V) := do
  let clusters ← cut root K
  let ch ← calinskiHarabasz vs mem n K clusters
  return if best.2 < ch then (K, ch) else best

/-- `cut` by the index. The least value of the loop is `numeric_limits<double>::min()`. -/
def cutGreatest (least : V) (root : Node ρ V) (n : ℕ) : Outcome (List (Node ρ V)) :=
  if n = 0 then .ok []
  else if n = 1 then .ok [root]
  else do
    let best ← (List.range' 2 (n - 1)).foldlM (keepGreater vs mem root n) (0, .fin least)
    cut root best.1

/-- `hierarchical_clusterer::cluster`. -/
def cluster (clstd : ℕ → ℕ → ℕ → V → V → V → V) (least : V) (rtss : UnorderedSet ρ) :
    Outcome (List (List ρ)) := do
  let dgram ← generateDendrogram mem vs.between clstd rtss
  let nodes ← cutGreatest vs mem least dgram dgram.nelements
  (mem.nodes.order nodes).mapM fun node =>
    (mem.nodes.order (leaves node)).foldlM (fun cluster l => do
      let rts ← l.rts
      return cluster.insert rts) []

/-- Every RTS is in exactly one cluster, and no cluster is empty. -/
def IsPartition (rtss : UnorderedSet ρ) (clusters : List (List ρ)) : Prop :=
  (∀ c ∈ clusters, c ≠ []) ∧ clusters.Pairwise List.Disjoint ∧
    ∀ rts, rts ∈ rtss.elems ↔ ∃ c ∈ clusters, rts ∈ c

/-- The index of the cut into `K` clusters is greater than the least value. -/
def Exceeds (least : V) (root : Node ρ V) (K : ℕ) : Prop :=
  ∃ clusters ch, cut root K = .ok clusters ∧
    calinskiHarabasz vs mem root.nelements K clusters = .ok ch ∧ .fin least < ch

end Model

section Loop
variable {ρ V : Type} [DecidableEq ρ] [Field V] [LinearOrder V] {vs : Vectors ρ V}
  {mem : Memory (Node ρ V) V} {least : V} {root : Node ρ V}

/-- Nothing is kept yet, or a number of clusters whose index exceeds the least value. -/
def Kept (least : V) (best : ℕ × Dbl V) : Prop :=
  best = (0, .fin least) ∨ 2 ≤ best.1 ∧ .fin least < best.2

/-- A round keeps the first index that exceeds the least value, or a greater one later. -/
theorem keepGreater_spec {best best' : ℕ × Dbl V} {K : ℕ} (hK : 2 ≤ K) (hbest : Kept least best)
    (h : keepGreater vs mem root root.nelements best K = .ok best') :
    Kept least best' ∧ (best'.1 = best.1 ∨ best'.1 = K) ∧
      (best'.1 = 0 ↔ best.1 = 0 ∧ ¬ Exceeds vs mem least root K) ∧
      ∃ clusters, cut root K = .ok clusters := by
  obtain ⟨clusters, hcut, h⟩ := Outcome.bind_eq_ok.mp h
  obtain ⟨ch, hch, h⟩ := Outcome.bind_eq_ok.mp h
  have hexceeds : Exceeds vs mem least root K ↔ .fin least < ch := by
    constructor
    · rintro ⟨clusters', ch', hcut', hch', hlt⟩
      obtain rfl := Outcome.ok.inj (hcut.symm.trans hcut')
      obtain rfl := Outcome.ok.inj (hch.symm.trans hch')
      exact hlt
    · exact fun hlt => ⟨clusters, ch, hcut, hch, hlt⟩
  rw [Outcome.pure_eq, Outcome.ok.injEq] at h
  rw [hexceeds]
  split_ifs at h with hgreater
  · subst h
    have hlt : .fin least < ch := by
      rcases hbest with rfl | ⟨-, hkept⟩
      · exact hgreater
      · exact Dbl.less_trans hkept hgreater
    exact ⟨.inr ⟨hK, hlt⟩, .inr rfl, by simp [hlt]; omega, clusters, hcut⟩
  · subst h
    refine ⟨hbest, .inl rfl, ?_, clusters, hcut⟩
    rcases hbest with rfl | ⟨htwo, -⟩
    · simpa using hgreater
    · exact iff_of_false (by omega) fun h => by omega

/-- The whole loop. -/
theorem loop_spec {Ks : List ℕ} (hKs : ∀ K ∈ Ks, 2 ≤ K) : ∀ {best best' : ℕ × Dbl V},
    Kept least best → Ks.foldlM (keepGreater vs mem root root.nelements) best = .ok best' →
      Kept least best' ∧ (best'.1 = best.1 ∨ best'.1 ∈ Ks) ∧
        (best'.1 = 0 ↔ best.1 = 0 ∧ ∀ K ∈ Ks, ¬ Exceeds vs mem least root K) ∧
        ∀ K ∈ Ks, ∃ clusters, cut root K = .ok clusters := by
  induction Ks with
  | nil =>
    intro best best' hbest h
    obtain rfl := Outcome.ok.inj h
    simp [hbest]
  | cons K Ks ih =>
    intro best best' hbest h
    obtain ⟨hK, hrest⟩ := List.forall_mem_cons.mp hKs
    obtain ⟨next, hround, hloop⟩ := Outcome.bind_eq_ok.mp h
    obtain ⟨hnext, hnumber, hzero, hcut⟩ := keepGreater_spec hK hbest hround
    obtain ⟨hlast, hlater, hnone, hcuts⟩ := ih hrest hnext hloop
    refine ⟨hlast, ?_, ?_, List.forall_mem_cons.mpr ⟨hcut, hcuts⟩⟩
    · rw [List.mem_cons]
      rcases hlater with heq | hmem
      · rw [heq]
        exact hnumber.imp_right .inl
      · exact .inr (.inr hmem)
    · rw [hnone, hzero, List.forall_mem_cons, and_assoc]

end Loop

section Clusters
variable {ρ V : Type} [DecidableEq ρ] [Field V] [LinearOrder V] {vs : Vectors ρ V}
  {mem : Memory (Node ρ V) V} {least : V} {root : Node ρ V} {rtss : UnorderedSet ρ}

/-- The RTSs of a node, as they are put into a set. -/
def rtsSet (mem : Memory (Node ρ V) V) (node : Node ρ V) : List ρ :=
  (mem.nodes.order (leaves node)).foldl
    (fun cluster l => l.elements.foldl (fun cluster rts => cluster.insert rts) cluster) []

omit [Field V] in
theorem foldlM_rts (mem : Memory (Node ρ V) V) (node : Node ρ V) :
    (mem.nodes.order (leaves node)).foldlM (fun cluster l => do
      let rts ← l.rts
      return cluster.insert rts) [] = Outcome.ok (rtsSet mem node) := by
  refine Outcome.foldlM_eq_foldl (fun cluster l hl => ?_) []
  obtain ⟨a, rfl⟩ := exists_of_mem_leaves ((mem.nodes.mem_order).mp hl)
  rfl

omit [Field V] in
theorem mem_rtsSet {node : Node ρ V} {a : ρ} : a ∈ rtsSet mem node ↔ a ∈ node.elements := by
  have hset : ∀ (as cluster : List ρ),
      a ∈ as.foldl (fun cluster rts => cluster.insert rts) cluster ↔ a ∈ cluster ∨ a ∈ as := by
    intro as
    induction as with
    | nil => simp
    | cons b as ih =>
      intro cluster
      rw [List.foldl_cons, ih, List.mem_insert_iff, List.mem_cons]
      tauto
  have hsets : ∀ (ls : List (Node ρ V)) (cluster : List ρ), a ∈ ls.foldl
      (fun cluster l => l.elements.foldl (fun cluster rts => cluster.insert rts) cluster) cluster ↔
        a ∈ cluster ∨ ∃ l ∈ ls, a ∈ l.elements := by
    intro ls
    induction ls with
    | nil => simp
    | cons l ls ih =>
      intro cluster
      rw [List.foldl_cons, ih, hset, List.exists_mem_cons_iff, or_assoc]
  rw [rtsSet, hsets, or_iff_right List.not_mem_nil]
  constructor
  · rintro ⟨l, hl, ha⟩
    rw [Traversal.mem_order] at hl
    obtain ⟨b, rfl⟩ := exists_of_mem_leaves hl
    obtain rfl := List.mem_singleton.mp ha
    exact leaf_mem_leaves.mp hl
  · exact fun ha => ⟨.leaf a, (mem.nodes.mem_order).mpr (leaf_mem_leaves.mpr ha),
      List.mem_singleton.mpr rfl⟩

omit [Field V] in
/-- The clusters of a cut of the dendrogram. -/
theorem isPartition_of_isCut (mem : Memory (Node ρ V) V) {k : ℕ} {nodes : List (Node ρ V)}
    (hcut : IsCut root k nodes) (hroot : root.elements.Perm rtss.elems) :
    IsPartition rtss ((mem.nodes.order nodes).map (rtsSet mem)) := by
  obtain ⟨-, -, hdisjoint, hall⟩ := hcut
  refine ⟨fun c hc => ?_, ?_, fun rts => ?_⟩
  · obtain ⟨node, -, rfl⟩ := List.mem_map.mp hc
    obtain ⟨a, ha⟩ := List.exists_mem_of_ne_nil _ node.elements_ne_nil
    exact List.ne_nil_of_mem (mem_rtsSet.mpr ha)
  · have horder : (mem.nodes.order nodes).Pairwise fun c c' =>
        c.elements.Disjoint c'.elements :=
      ((mem.nodes.perm nodes).pairwise_iff fun h => h.symm).mpr hdisjoint
    refine List.pairwise_map.mpr (horder.imp fun h a ha ha' => ?_)
    exact h (mem_rtsSet.mp ha) (mem_rtsSet.mp ha')
  · rw [← hroot.mem_iff, hall]
    constructor
    · rintro ⟨node, hnode, ha⟩
      exact ⟨_, List.mem_map_of_mem ((mem.nodes.mem_order).mpr hnode), mem_rtsSet.mpr ha⟩
    · rintro ⟨c, hc, ha⟩
      obtain ⟨node, hnode, rfl⟩ := List.mem_map.mp hc
      exact ⟨node, (mem.nodes.mem_order).mp hnode, mem_rtsSet.mp ha⟩

/-- The clusterer after its dendrogram. -/
theorem cluster_eq {clstd : ℕ → ℕ → ℕ → V → V → V → V}
    (hrun : generateDendrogram mem vs.between clstd rtss = .ok root) :
    cluster vs mem clstd least rtss = do
      let nodes ← cutGreatest vs mem least root root.nelements
      return (mem.nodes.order nodes).map (rtsSet mem) := by
  rw [cluster, hrun, Outcome.ok_bind]
  refine bind_congr fun nodes => ?_
  exact Outcome.mapM_eq_map fun node _ => foldlM_rts mem node

/-- The index of as many clusters as there are elements exceeds nothing. -/
theorem not_exceeds_all : ¬ Exceeds vs mem least root root.nelements := by
  rintro ⟨clusters, ch, hcut, hch, hlt⟩
  have hsize := root.nelements_pos
  rw [cut, if_neg (by omega), if_pos le_rfl, Outcome.ok.injEq] at hcut
  subst hcut
  rw [calinskiHarabasz_all vs mem _ (leaves_ne_nil root) fun c hc => exists_of_mem_leaves hc,
    Outcome.ok.injEq] at hch
  subst hch
  exact hlt

/-- Without ties the loop returns, and every cut of it is one. -/
theorem cutGreatest_of_tieFree (hroot : root.elements.Nodup) (hsize : 2 ≤ root.nelements)
    (hfree : TieFree root (root.nelements - 1)) {K : ℕ} (hK : 2 ≤ K ∧ K < root.nelements)
    (hexceeds : Exceeds vs mem least root K) :
    ∃ k nodes, cutGreatest vs mem least root root.nelements = .ok nodes ∧ IsCut root k nodes := by
  have hcuts : ∀ k, 1 ≤ k → k ≤ root.nelements →
      ∃ nodes, cut root k = .ok nodes ∧ IsCut root k nodes := by
    intro k hk hle
    rcases Nat.lt_or_eq_of_le hle with hlt | rfl
    · exact cut_of_tieFree hroot hk hlt fun j hj => hfree j (by omega)
    · exact ⟨leaves root, by rw [cut, if_neg (by omega), if_pos le_rfl], leaves_isCut hroot⟩
  have hKs : ∀ k ∈ List.range' 2 (root.nelements - 1), 2 ≤ k ∧ k ≤ root.nelements := by
    intro k hk
    rw [List.mem_range'_1] at hk
    omega
  have hround : ∀ best, ∀ k ∈ List.range' 2 (root.nelements - 1),
      ∃ best', keepGreater vs mem root root.nelements best k = .ok best' := by
    intro best k hk
    obtain ⟨htwo, hle⟩ := hKs k hk
    obtain ⟨nodes, hcut, hlen, -⟩ := hcuts k (by omega) hle
    obtain ⟨ch, hch⟩ := calinskiHarabasz_returns vs mem root.nelements k
      (List.ne_nil_of_length_pos (by omega : 0 < nodes.length))
    exact ⟨_, by rw [keepGreater, hcut, Outcome.ok_bind, hch]; rfl⟩
  obtain ⟨best, hbest⟩ := Outcome.foldlM_returns hround (0, .fin least)
  obtain ⟨-, hmem, hzero, -⟩ := loop_spec (fun k hk => (hKs k hk).1) (.inl rfl) hbest
  have hne : best.1 ≠ 0 := fun h => (hzero.mp h).2 K
    (List.mem_range'_1.mpr (by omega)) hexceeds
  obtain ⟨htwo, hle⟩ := hKs _ (hmem.resolve_left hne)
  obtain ⟨nodes, hcut, hiscut⟩ := hcuts best.1 (by omega) hle
  refine ⟨best.1, nodes, ?_, hiscut⟩
  rw [cutGreatest, if_neg (by omega), if_neg (by omega), hbest, Outcome.ok_bind, hcut]

/-- What the clusterer returns for a cut of the dendrogram. -/
theorem cluster_partitions {clstd : ℕ → ℕ → ℕ → V → V → V → V} {k : ℕ} {nodes : List (Node ρ V)}
    (hrun : generateDendrogram mem vs.between clstd rtss = .ok root)
    (hroot : root.elements.Perm rtss.elems)
    (hnodes : cutGreatest vs mem least root root.nelements = .ok nodes)
    (hcut : IsCut root k nodes) :
    ∃ clusters, cluster vs mem clstd least rtss = .ok clusters ∧ IsPartition rtss clusters := by
  refine ⟨_, ?_, isPartition_of_isCut mem hcut hroot⟩
  rw [cluster_eq hrun, hnodes]
  rfl

/-- A partition shows that a number of clusters was accepted, and that no branch was lost before
the loop ended. -/
theorem tieFree_of_partition {clstd : ℕ → ℕ → ℕ → V → V → V → V} {clusters : List (List ρ)}
    (hne : rtss.elems ≠ []) (hroot : root.elements.Nodup) (hsize : 2 ≤ root.nelements)
    (hdgram : generateDendrogram mem vs.between clstd rtss = .ok root)
    (hrun : cluster vs mem clstd least rtss = .ok clusters) (hpart : IsPartition rtss clusters) :
    TieFree root (root.nelements - 1) ∧
      ∃ K, 2 ≤ K ∧ K < root.nelements ∧ Exceeds vs mem least root K := by
  rw [cluster_eq hdgram] at hrun
  obtain ⟨nodes, hnodes, hclusters⟩ := Outcome.bind_eq_ok.mp hrun
  rw [cutGreatest, if_neg (by omega), if_neg (by omega)] at hnodes
  obtain ⟨best, hloop, hcut⟩ := Outcome.bind_eq_ok.mp hnodes
  have htwo : ∀ K ∈ List.range' 2 (root.nelements - 1), 2 ≤ K := fun K hK =>
    (List.mem_range'_1.mp hK).1
  obtain ⟨-, -, hzero, hcuts⟩ := loop_spec htwo (.inl rfl) hloop
  have hchosen : best.1 ≠ 0 := by
    intro hnone
    rw [hnone, cut, if_pos rfl, Outcome.ok.injEq] at hcut
    subst hcut
    have hempty : clusters = [] := by
      rw [← Outcome.ok.inj hclusters, List.perm_nil.mp (mem.nodes.perm []), List.map_nil]
    obtain ⟨a, ha⟩ := List.exists_mem_of_ne_nil _ hne
    obtain ⟨c, hc, -⟩ := (hpart.2.2 a).mp ha
    simp [hempty] at hc
  obtain ⟨K, hK, hexceeds⟩ : ∃ K ∈ List.range' 2 (root.nelements - 1),
      Exceeds vs mem least root K := by
    by_contra hnone
    exact hchosen (hzero.mpr ⟨rfl, fun K hK h => hnone ⟨K, hK, h⟩⟩)
  have hall : K ≠ root.nelements := fun heq => not_exceeds_all (heq ▸ hexceeds)
  rw [List.mem_range'_1] at hK
  refine ⟨?_, K, hK.1, by omega, hexceeds⟩
  by_contra htie
  obtain ⟨cs, hcs⟩ := hcuts (root.nelements - 1) (List.mem_range'_1.mpr (by omega))
  exact cut_pred_of_tie hroot hsize htie cs hcs

/-- The RTSs have configurations that are apart, no two branches of their dendrogram are open
at one distance, and the index accepts a number of clusters. -/
def Clusterable (vs : Vectors ρ V) (mem : Memory (Node ρ V) V) (linkage : Linkage) (least : V)
    (rtss : UnorderedSet ρ) : Prop :=
  (rtss.elems.Pairwise fun a b => vs.vector_d (vs.to_vector a) (vs.to_vector b) ≠ 0) ∧
    ∀ root, generateDendrogram mem vs.between linkage.update rtss = .ok root →
      TieFree root (root.nelements - 1) ∧
        ∃ K, 2 ≤ K ∧ K < root.nelements ∧ Exceeds vs mem least root K

/-- The clusterer returns a partition of its RTSs exactly if there is one RTS, or if they can be
clustered, which two of them cannot. -/
theorem cluster_isPartition_iff [IsStrictOrderedRing V] (vs : Vectors ρ V) (mem : Memory (Node ρ V) V) (linkage : Linkage)
    (least : V) (rtss : UnorderedSet ρ) (hne : rtss.elems ≠ []) :
    (∃ clusters, cluster vs mem linkage.update least rtss = .ok clusters ∧
        IsPartition rtss clusters) ↔
      rtss.elems.length = 1 ∨ Clusterable vs mem linkage least rtss := by
  have hsize : ∀ root : Node ρ V, IsDendrogramOf root rtss →
      root.elements.Nodup ∧ root.nelements = rtss.elems.length := fun root hroot =>
    ⟨hroot.1.nodup_iff.mpr rtss.nodup, by rw [← root.length_elements, hroot.1.length_eq]⟩
  have hpos := List.length_pos_iff.mpr hne
  constructor
  · rintro ⟨clusters, hrun, hpart⟩
    by_cases hone : rtss.elems.length = 1
    · exact .inl hone
    have hapart : Apart vs.between rtss := by
      refine rtss.nodup.imp_of_mem fun ha hb hab hzero => ?_
      rw [cluster, aborts_of_zero ha hb hab hzero] at hrun
      exact absurd hrun (by simp)
    refine .inr ⟨hapart, fun root hdgram => ?_⟩
    obtain ⟨root', hdgram', hroot⟩ := exists_dendrogram mem linkage hne hapart
    obtain rfl := Outcome.ok.inj (hdgram'.symm.trans hdgram)
    obtain ⟨hnodup, hlen⟩ := hsize _ hroot
    exact tieFree_of_partition hne hnodup (by omega) hdgram hrun hpart
  · intro h
    by_cases hone : rtss.elems.length = 1
    · have hapart : Apart vs.between rtss := by
        obtain ⟨a, ha⟩ := List.length_eq_one_iff.mp hone
        rw [Apart, ha]
        exact List.pairwise_singleton _ _
      obtain ⟨root, hdgram, hroot⟩ := exists_dendrogram mem linkage hne hapart
      obtain ⟨-, hlen⟩ := hsize root hroot
      refine cluster_partitions hdgram hroot.1 ?_ (isCut_single root)
      rw [cutGreatest, if_neg (by omega), if_pos (by omega)]
    · obtain ⟨hapart, hroots⟩ := h.resolve_left hone
      obtain ⟨root, hdgram, hroot⟩ := exists_dendrogram (d := vs.between) mem linkage hne hapart
      obtain ⟨hnodup, hlen⟩ := hsize root hroot
      obtain ⟨hfree, K, htwo, hlt, hexceeds⟩ := hroots root hdgram
      obtain ⟨k, nodes, hnodes, hcut⟩ :=
        cutGreatest_of_tieFree hnodup (by omega) hfree ⟨htwo, hlt⟩ hexceeds
      exact cluster_partitions hdgram hroot.1 hnodes hcut

end Clusters

/-- Configurations of one tuning parameter. -/
def oneParameter (value : ℕ → ℚ) : Vectors ℕ ℚ where
  to_vector rts := [value rts]
  dimension := 1
  length _ := rfl
  vector_d v w := |v.headD 0 - w.headD 0|
  self v := by rw [sub_self, abs_zero]
  symm _ _ := abs_sub_comm _ _
  nonneg _ _ := abs_nonneg _

theorem cluster_isPartition_squares :
    ∃ clusters, cluster (oneParameter fun n => n * n) .ordered Linkage.centroid.update
        (1 / 2 ^ 1022) ⟨[0, 1, 2], by decide⟩ = .ok clusters ∧
      IsPartition ⟨[0, 1, 2], by decide⟩ clusters := by
  have hdgram : generateDendrogram .ordered (oneParameter fun n => n * n).between
      Linkage.centroid.update ⟨[0, 1, 2], by decide⟩ =
        .ok (.branch (13 / 4) (.leaf 2) (.branch 1 (.leaf 0) (.leaf 1))) := by
    decide +kernel
  have hfree : TieFree (.branch (13 / 4) (.leaf 2) (.branch 1 (.leaf 0) (.leaf 1)) : Node ℕ ℚ)
      2 := by
    intro j hj
    interval_cases j <;> decide +kernel
  have hindex : Exceeds (oneParameter fun n => n * n) .ordered (1 / 2 ^ 1022)
      (.branch (13 / 4) (.leaf 2) (.branch 1 (.leaf 0) (.leaf 1))) 2 :=
    ⟨[.branch 1 (.leaf 0) (.leaf 1), .leaf 2], .fin (49 / 3), by decide +kernel,
      by decide +kernel, by decide +kernel⟩
  refine (cluster_isPartition_iff _ .ordered .centroid _ ⟨[0, 1, 2], by decide⟩ (by simp)).mpr
    (.inr ⟨by decide +kernel, fun root hroot => ?_⟩)
  obtain rfl := Outcome.ok.inj (hdgram.symm.trans hroot)
  exact ⟨hfree, 2, le_rfl, by decide, hindex⟩

/-- Two RTSs with different configurations are in no cluster. -/
theorem not_isPartition_two :
    ¬ ∀ rtss : UnorderedSet ℕ, rtss.elems ≠ [] →
      ∃ clusters, cluster (oneParameter fun n => n) .ordered Linkage.centroid.update
          (1 / 2 ^ 1022) rtss = .ok clusters ∧ IsPartition rtss clusters := by
  intro h
  obtain ⟨clusters, hrun, hpart⟩ := h ⟨[0, 1], by decide⟩ (by simp)
  have hempty : cluster (oneParameter fun n => n) .ordered Linkage.centroid.update
      (1 / 2 ^ 1022) ⟨[0, 1], by decide⟩ = .ok [] := by
    decide +kernel
  obtain rfl := Outcome.ok.inj (hempty.symm.trans hrun)
  obtain ⟨c, hc, -⟩ := (hpart.2.2 0).mp (by simp)
  exact absurd hc List.not_mem_nil

end ReadexPtf.Cluster
