import ReadexPtf.Cluster.Generation
import Mathlib

/-! What the entries of the matrix mean: the Lance-Williams updates against the distances of
the leaves of two clusters. -/
namespace ReadexPtf.Cluster
open ReadexPtf
variable {ρ V : Type} [DecidableEq ρ] [Field V] [LinearOrder V] {mem : Memory (Node ρ V) V}
  {clstd : ℕ → ℕ → ℕ → V → V → V → V} {d : VectorDistance ρ V} {rtss : UnorderedSet ρ}
  {s s' : Clustering mem}

/-- Every entry of two nodes is in the relation `R` to them. -/
def EntriesMeet (R : Node ρ V → Node ρ V → V → Prop) (s : Clustering mem) : Prop :=
  ∀ x y dxy, x ≠ y → s.D.entry x y = some dxy → R x y dxy

/-- A round keeps what the update of its pair keeps. -/
theorem Merges.entriesMeet {R : Node ρ V → Node ρ V → V → Prop}
    (hsymm : ∀ x y dxy, R x y dxy → R y x dxy) (hpart : Partitions rtss s)
    (hpart' : Partitions rtss s') {dij : V} {ci cj : Node ρ V} (h : Merges clstd s dij ci cj s')
    (hupdate : ∀ ck ∈ (s.clusters.erase ci).erase cj, ∀ dik djk, dij ≤ dik → dij ≤ djk →
      R ci ck dik → R cj ck djk →
      R (.branch dij ci cj) ck (clstd ci.nelements cj.nelements ck.nelements dik djk dij))
    (hs : EntriesMeet R s) : EntriesMeet R s' := by
  intro x y dxy hne hentry
  rcases h.entry_cases hpart hpart' hne hentry with
    ⟨-, -, hold⟩ | ⟨ck, dik, djk, hk, hxy, hdik, hdjk, hnew⟩
  · exact hs x y dxy hne hold
  · obtain ⟨-, hki, hkj⟩ := hpart.mem_others.mp hk
    obtain ⟨hik, hjk⟩ := h.le_entries hpart hk hdik hdjk
    have hmeets := hupdate ck hk dik djk hik hjk (hs ci ck dik hki.symm hdik)
      (hs cj ck djk hkj.symm hdjk)
    cases hxy with
    | inl hxy => rw [hxy.1, hxy.2, hnew]; exact hmeets
    | inr hxy => rw [hxy.1, hxy.2, hnew]; exact hsymm _ _ _ hmeets

theorem entriesMeet_initial {R : Node ρ V → Node ρ V → V → Prop}
    (hleaf : ∀ a b, R (.leaf a) (.leaf b) (d.between a b))
    (h : initialClustering mem d rtss = .ok s) : EntriesMeet R s := by
  intro x y dxy _ hentry
  obtain ⟨a, -, b, -, hx, hy, hdxy⟩ := initial_entry h hentry
  rw [hx, hy, hdxy]
  exact hleaf a b

/-- What the update of every closest pair keeps holds in every run. -/
theorem Reaches.entriesMeet {R : Node ρ V → Node ρ V → V → Prop}
    (hleaf : ∀ a b, R (.leaf a) (.leaf b) (d.between a b))
    (hsymm : ∀ x y dxy, R x y dxy → R y x dxy)
    (hupdate : ∀ ci cj ck dij dik djk, dij ≤ dik → dij ≤ djk → R ci ck dik → R cj ck djk →
      R (.branch dij ci cj) ck (clstd ci.nelements cj.nelements ck.nelements dik djk dij))
    (h : Reaches mem d clstd rtss s) : EntriesMeet R s := by
  induction h with
  | start h => exact entriesMeet_initial hleaf h
  | round hs hmore hrun ih =>
    obtain ⟨dij, ci, cj, hmerges, hpart'⟩ := hs.partitions.merges hrun
    exact hmerges.entriesMeet hsymm hs.partitions hpart'
      (fun ck _ dik djk => hupdate ci cj ck dij dik djk) ih

omit [Field V] in
/-- Two clusters have an entry, so a relation on entries is one on clusters. -/
theorem EntriesMeet.exists_entry {R : Node ρ V → Node ρ V → V → Prop} (h : EntriesMeet R s)
    (hpart : Partitions rtss s) {x y : Node ρ V} (hx : x ∈ s.clusters) (hy : y ∈ s.clusters)
    (hne : x ≠ y) : ∃ dxy, s.D.entry x y = some dxy ∧ R x y dxy := by
  obtain ⟨dxy, hentry⟩ := Option.isSome_iff_exists.mp ((hpart.pairs x y hne).mpr ⟨hx, hy⟩)
  exact ⟨dxy, hentry, h x y dxy hne hentry⟩

section GroupAverage

/-- The sum of the distances between the leaves of two nodes. -/
def sumDistance (d : VectorDistance ρ V) (x y : Node ρ V) : V :=
  (x.elements.map fun a => (y.elements.map fun b => d.between a b).sum).sum

/-- The arithmetic mean of the distances between the leaves of two nodes. -/
def meanDistance (d : VectorDistance ρ V) (x y : Node ρ V) : V :=
  sumDistance d x y / (x.nelements * y.nelements)

omit [DecidableEq ρ] in
theorem sumDistance_comm (d : VectorDistance ρ V) (x y : Node ρ V) :
    sumDistance d x y = sumDistance d y x := by
  rw [sumDistance, sumDistance]
  generalize x.elements = as
  generalize y.elements = bs
  induction as with
  | nil => simp
  | cons a as ih =>
    rw [List.map_cons, List.sum_cons, ih, ← List.sum_map_add]
    refine congrArg List.sum (List.map_congr_left fun b _ => ?_)
    rw [List.map_cons, List.sum_cons, d.symm]

omit [DecidableEq ρ] in
theorem meanDistance_comm (d : VectorDistance ρ V) (x y : Node ρ V) :
    meanDistance d x y = meanDistance d y x := by
  rw [meanDistance, meanDistance, sumDistance_comm, mul_comm]

omit [DecidableEq ρ] in
theorem sumDistance_branch (d : VectorDistance ρ V) (dij : V) (ci cj ck : Node ρ V) :
    sumDistance d (.branch dij ci cj) ck = sumDistance d ci ck + sumDistance d cj ck := by
  simp [sumDistance, Node.elements]

variable [IsStrictOrderedRing V]

omit [DecidableEq ρ] in
/-- The mean of a merged cluster weighs the two means with the sizes of the clusters. -/
theorem meanDistance_branch (d : VectorDistance ρ V) (dij : V) (ci cj ck : Node ρ V) :
    meanDistance d (.branch dij ci cj) ck =
      ci.nelements / (ci.nelements + cj.nelements) * meanDistance d ci ck +
        cj.nelements / (ci.nelements + cj.nelements) * meanDistance d cj ck := by
  have hi : (0 : V) < ci.nelements := Nat.cast_pos.mpr ci.nelements_pos
  have hj : (0 : V) < cj.nelements := Nat.cast_pos.mpr cj.nelements_pos
  have hk : (0 : V) < ck.nelements := Nat.cast_pos.mpr ck.nelements_pos
  rw [meanDistance, sumDistance_branch, meanDistance, meanDistance, Node.nelements, Nat.cast_add]
  field_simp

omit [DecidableEq ρ] in
/-- The update of the group average is the mean of the merged cluster exactly if the two
clusters have the same size. -/
theorem group_average_iff (d : VectorDistance ρ V) {dij : V} (ci cj ck : Node ρ V)
    (hpos : 0 < meanDistance d cj ck) :
    group_average ci.nelements cj.nelements ck.nelements (meanDistance d ci ck)
        (meanDistance d cj ck) dij = meanDistance d (.branch dij ci cj) ck ↔
      ci.nelements = cj.nelements := by
  have hi : (0 : V) < ci.nelements := Nat.cast_pos.mpr ci.nelements_pos
  have hj : (0 : V) < cj.nelements := Nat.cast_pos.mpr cj.nelements_pos
  rw [group_average_eq _ _ _ cj.nelements_pos, meanDistance_branch, add_right_inj,
    mul_left_inj' hpos.ne', div_eq_div_iff two_ne_zero (by positivity), one_mul]
  constructor
  · intro h
    have hcast : (ci.nelements : V) = cj.nelements := by linarith only [h]
    exact Nat.cast_injective hcast
  · intro h
    rw [h]
    ring

/-- Every entry of two clusters is the mean distance of their leaves. -/
def MeanEntries (d : VectorDistance ρ V) (s : Clustering mem) : Prop :=
  ∀ x ∈ s.clusters, ∀ y ∈ s.clusters, x ≠ y → s.D.entry x y = some (meanDistance d x y)

omit [IsStrictOrderedRing V] in
theorem meanEntries_iff (hpart : Partitions rtss s) :
    MeanEntries d s ↔ EntriesMeet (fun x y dxy => dxy = meanDistance d x y) s := by
  constructor
  · intro h x y dxy hne hentry
    obtain ⟨hx, hy⟩ := (hpart.pairs x y hne).mp (by rw [hentry]; rfl)
    exact Option.some.inj (hentry.symm.trans (h x hx y hy hne))
  · intro h x hx y hy hne
    obtain ⟨dxy, hentry, hmean⟩ := h.exists_entry hpart hx hy hne
    rw [hentry, hmean]

/-- A merge that leaves another cluster merges two clusters of one size. -/
def MergesEqualSizes (s : Clustering mem) : Prop :=
  ∀ dij ci cj, s.D.minimum = some (dij, ci, cj) → 0 < dij →
    s.clusters.length = 2 ∨ ci.nelements = cj.nelements

/-- A round whose pair has one size keeps the means. -/
theorem Merges.meanEntries (hpart : Partitions rtss s) (hpart' : Partitions rtss s') {dij : V}
    {ci cj : Node ρ V} (h : Merges group_average s dij ci cj s')
    (hsizes : s.clusters.length = 2 ∨ ci.nelements = cj.nelements) (hs : MeanEntries d s) :
    MeanEntries d s' := by
  rw [meanEntries_iff hpart] at hs
  rw [meanEntries_iff hpart']
  refine h.entriesMeet (fun x y dxy hxy => hxy.trans (meanDistance_comm d x y)) hpart hpart' ?_ hs
  intro ck hck dik djk _ hjk hdik hdjk
  cases hsizes with
  | inl htwo =>
    -- the pair are all clusters, so there is no other one
    obtain ⟨hne, hi, hj⟩ := hpart.mem_of_minimum h.minimum
    rw [(Partitions.perm_others hne hi hj).length_eq, List.length_cons, List.length_cons] at htwo
    have hnone := List.length_eq_zero_iff.mp (by omega :
      ((s.clusters.erase ci).erase cj).length = 0)
    rw [hnone] at hck
    exact absurd hck List.not_mem_nil
  | inr hsize =>
    rw [hdik, hdjk]
    exact (group_average_iff d ci cj ck (hdjk ▸ h.pos.trans_le hjk)).mpr hsize

/-- A round that keeps the means has merged two clusters of one size. -/
theorem Merges.equalSizes (hpart : Partitions rtss s) {dij : V} {ci cj : Node ρ V}
    (h : Merges group_average s dij ci cj s') (hs : MeanEntries d s)
    (hs' : MeanEntries d s') : s.clusters.length = 2 ∨ ci.nelements = cj.nelements := by
  obtain ⟨hne, hi, hj⟩ := hpart.mem_of_minimum h.minimum
  rw [(Partitions.perm_others hne hi hj).length_eq, List.length_cons, List.length_cons]
  cases hothers : (s.clusters.erase ci).erase cj with
  | nil => exact .inl rfl
  | cons ck rest =>
    right
    have hck : ck ∈ (s.clusters.erase ci).erase cj := hothers ▸ List.mem_cons_self
    obtain ⟨hk, hki, hkj⟩ := hpart.mem_others.mp hck
    obtain ⟨dik, djk, hdik, hdjk, hnew⟩ := h.merged ck hck
    obtain ⟨-, hjk⟩ := h.le_entries hpart hck hdik hdjk
    have hik := Option.some.inj (hdik.symm.trans (hs ci hi ck hk hki.symm))
    have hjk' := Option.some.inj (hdjk.symm.trans (hs cj hj ck hk hkj.symm))
    have hbranch : .branch dij ci cj ≠ ck := fun heq => hpart.branch_notMem dij cj hi (heq ▸ hk)
    have hmean := hs' (.branch dij ci cj) (by simp [h.clusters]) ck (by simp [h.clusters, hck])
      hbranch
    rw [hnew, Option.some.injEq, hik, hjk'] at hmean
    exact (group_average_iff d ci cj ck (hjk' ▸ h.pos.trans_le hjk)).mp hmean

omit [IsStrictOrderedRing V] in
theorem meanEntries_initial (h : initialClustering mem d rtss = .ok s) : MeanEntries d s :=
  (meanEntries_iff (partitions_initial h)).mpr (entriesMeet_initial
    (fun a b => by simp [meanDistance, sumDistance, Node.elements, Node.nelements]) h)

theorem equalSizes_of_meanEntries
    (h : ∀ s, Reaches mem d group_average rtss s → MeanEntries d s)
    (hs : Reaches mem d group_average rtss s) : MergesEqualSizes s := by
  intro dij ci cj hm hpos
  obtain ⟨s', hrun, hmerges, -⟩ := hs.partitions.exists_merges group_average hm hpos
  have hmore : s.clusters.length ≠ 1 := by
    intro hone
    obtain ⟨hne, hi, hj⟩ := hs.partitions.mem_of_minimum hm
    obtain ⟨c, hc⟩ := List.length_eq_one_iff.mp hone
    rw [hc, List.mem_singleton] at hi hj
    exact hne (hi.trans hj.symm)
  exact hmerges.equalSizes hs.partitions (h s hs) (h s' (hs.round hmore hrun))

/-- The entries of a run stay the means of the leaf distances exactly if every merge that
leaves another cluster merges two clusters of the same size. -/
theorem meanEntries_iff_equalSizes (mem : Memory (Node ρ V) V) (d : VectorDistance ρ V)
    (rtss : UnorderedSet ρ) :
    (∀ s, Reaches mem d group_average rtss s → MeanEntries d s) ↔
      ∀ s, Reaches mem d group_average rtss s → MergesEqualSizes s := by
  refine ⟨fun h s => equalSizes_of_meanEntries h, fun h s hs => ?_⟩
  induction hs with
  | start hstart => exact meanEntries_initial hstart
  | round hs hmore hrun ih =>
    obtain ⟨dij, ci, cj, hmerges, hpart'⟩ := hs.partitions.merges hrun
    exact hmerges.meanEntries hs.partitions hpart' (h _ hs dij ci cj hmerges.minimum hmerges.pos) ih

/-- Two RTSs are merged in one round, after which nothing is left to compute. -/
theorem equalSizes_pair {s : Clustering (.ordered : Memory (Node ℕ ℚ) ℚ)}
    (hs : Reaches .ordered (onLine fun n => n) group_average ⟨[0, 1], by decide⟩ s) :
    MergesEqualSizes s := by
  intro dij ci cj hm _
  left
  obtain ⟨hne, hi, hj⟩ := hs.partitions.mem_of_minimum hm
  have hperm := Partitions.perm_others hne hi hj
  have hleaves := ((hperm.flatMap_right Node.elements).symm.trans hs.partitions.leaves).length_eq
  simp only [List.flatMap_cons, List.length_append, Node.length_elements, List.length_cons,
    List.length_nil] at hleaves
  have hpos := ci.nelements_pos
  have hpos' := cj.nelements_pos
  cases hothers : (s.clusters.erase ci).erase cj with
  | nil => rw [hperm.length_eq, hothers]; rfl
  | cons ck rest =>
    rw [hothers, List.flatMap_cons, List.length_append, Node.length_elements] at hleaves
    have := ck.nelements_pos
    omega

theorem meanEntries_pair :
    (∀ s : Clustering (.ordered : Memory (Node ℕ ℚ) ℚ),
      Reaches .ordered (onLine fun n => n) group_average ⟨[0, 1], by decide⟩ s →
        MergesEqualSizes s) ∧
    ∀ s : Clustering (.ordered : Memory (Node ℕ ℚ) ℚ),
      Reaches .ordered (onLine fun n => n) group_average ⟨[0, 1], by decide⟩ s →
        MeanEntries (onLine fun n => n) s :=
  ⟨fun _ => equalSizes_pair,
    (meanEntries_iff_equalSizes .ordered _ _).mpr fun _ => equalSizes_pair⟩

/-- Four points at 0, 1, 3 and 7: the pair at 0 and 1 is merged with the point at 3. -/
theorem not_meanEntries_line :
    ¬ ∀ (rtss : UnorderedSet ℕ) (s : Clustering .ordered),
      Reaches .ordered (onLine fun n => 2 ^ n - 1) group_average rtss s →
        MeanEntries (onLine fun n => 2 ^ n - 1) s := by
  intro h
  have hrun : (initialClustering .ordered (onLine fun n => 2 ^ n - 1) ⟨[0, 1, 2, 3], by decide⟩ >>=
      mergeClosest group_average).returnsWith fun s => s.clusters.length = 3 ∧
        s.D.minimum = some (5 / 2, .leaf 2, .branch 1 (.leaf 0) (.leaf 1)) := by
    decide +kernel
  obtain ⟨s, hs, hstate⟩ := Outcome.returnsWith_iff.mp hrun
  obtain ⟨start, hstart, hround⟩ := Outcome.bind_eq_ok.mp hs
  obtain ⟨hlen, hm⟩ := of_decide_eq_true hstate
  have hfour : start.clusters.length ≠ 1 := by
    obtain ⟨t, ht, hclusters, -⟩ := initialClustering_eq (onLine fun n => 2 ^ n - 1) .ordered
      ⟨[0, 1, 2, 3], by decide⟩
    rw [← Outcome.ok.inj (ht.symm.trans hstart), hclusters]
    decide
  have hequal := equalSizes_of_meanEntries (h _) (.round (.start hstart) hfour hround) _ _ _ hm
    (by norm_num)
  simp [hlen, Node.nelements] at hequal

end GroupAverage

section Extremes

/-- The distances between the leaves of two nodes. -/
def leafDistances (d : VectorDistance ρ V) (x y : Node ρ V) : Set V :=
  {v | ∃ a ∈ x.elements, ∃ b ∈ y.elements, d.between a b = v}

omit [DecidableEq ρ] in
theorem leafDistances_leaf (d : VectorDistance ρ V) (a b : ρ) :
    leafDistances d (.leaf a) (.leaf b) = {d.between a b} := by
  ext v
  simp [leafDistances, Node.elements, eq_comm]

omit [DecidableEq ρ] in
theorem leafDistances_comm (d : VectorDistance ρ V) (x y : Node ρ V) :
    leafDistances d x y = leafDistances d y x := by
  ext v
  constructor
  · rintro ⟨a, ha, b, hb, hv⟩
    exact ⟨b, hb, a, ha, (d.symm b a).trans hv⟩
  · rintro ⟨a, ha, b, hb, hv⟩
    exact ⟨b, hb, a, ha, (d.symm b a).trans hv⟩

omit [DecidableEq ρ] in
theorem leafDistances_branch (d : VectorDistance ρ V) (dij : V) (ci cj ck : Node ρ V) :
    leafDistances d (.branch dij ci cj) ck = leafDistances d ci ck ∪ leafDistances d cj ck := by
  ext v
  simp [leafDistances, Node.elements, or_and_right, exists_or]

/-- No child has a greater distance than its parent, all the way down. -/
def Rising : Node ρ V → Prop
  | .leaf _ => True
  | .branch dist left right =>
    (left.distance ≤ dist ∧ right.distance ≤ dist) ∧ Rising left ∧ Rising right

/-- The trees rise, and no entry of two nodes is below the distance of a cluster. -/
def HeightsBelow (s : Clustering mem) : Prop :=
  ∀ c ∈ s.clusters, Rising c ∧ ∀ x y dxy, x ≠ y → s.D.entry x y = some dxy → c.distance ≤ dxy

theorem heightsBelow_initial (h : initialClustering mem d rtss = .ok s) : HeightsBelow s := by
  intro c hc
  obtain ⟨t, ht, hclusters, -⟩ := initialClustering_eq d mem rtss
  rw [← Outcome.ok.inj (ht.symm.trans h), hclusters, List.mem_map] at hc
  obtain ⟨a, -, hleaf⟩ := hc
  rw [← hleaf]
  refine ⟨trivial, fun x y dxy _ hentry => ?_⟩
  obtain ⟨b, -, b', -, -, -, hdxy⟩ := initial_entry h hentry
  exact hdxy ▸ d.nonneg b b'

/-- An update that never goes below the merged pair keeps the heights below the entries. -/
theorem Merges.heightsBelow (hpart : Partitions rtss s) (hpart' : Partitions rtss s') {dij : V}
    {ci cj : Node ρ V} (h : Merges clstd s dij ci cj s')
    (hupdate : ∀ ni nj nk dik djk dij, dij ≤ dik → dij ≤ djk → dij ≤ clstd ni nj nk dik djk dij)
    (hs : HeightsBelow s) : HeightsBelow s' := by
  obtain ⟨hne, hi, hj⟩ := hpart.mem_of_minimum h.minimum
  obtain ⟨-, hentry, hleast⟩ := Matrix.isMinimum_of_minimum h.minimum
  have hbelow : ∀ x y dxy, x ≠ y → s'.D.entry x y = some dxy → dij ≤ dxy := by
    intro x y dxy hxy hdxy
    rcases h.entry_cases hpart hpart' hxy hdxy with
      ⟨-, -, hold⟩ | ⟨ck, dik, djk, hk, -, hdik, hdjk, hnew⟩
    · exact hleast x y dxy hxy hold
    · obtain ⟨hik, hjk⟩ := h.le_entries hpart hk hdik hdjk
      exact hnew ▸ hupdate _ _ _ dik djk dij hik hjk
  have hheight : ∀ c ∈ s.clusters, c.distance ≤ dij := fun c hc => (hs c hc).2 ci cj dij hne hentry
  intro c hc
  rw [h.clusters, List.mem_append, List.mem_singleton] at hc
  cases hc with
  | inl hc =>
    have hmem := (hpart.mem_others.mp hc).1
    exact ⟨(hs c hmem).1, fun x y dxy hxy hdxy =>
      (hheight c hmem).trans (hbelow x y dxy hxy hdxy)⟩
  | inr hc =>
    rw [hc]
    exact ⟨⟨⟨hheight ci hi, hheight cj hj⟩, (hs ci hi).1, (hs cj hj).1⟩, hbelow⟩

theorem Reaches.heightsBelow
    (hupdate : ∀ ni nj nk dik djk dij, dij ≤ dik → dij ≤ djk → dij ≤ clstd ni nj nk dik djk dij)
    (h : Reaches mem d clstd rtss s) : HeightsBelow s := by
  induction h with
  | start h => exact heightsBelow_initial h
  | round hs hmore hrun ih =>
    obtain ⟨dij, ci, cj, hmerges, hpart'⟩ := hs.partitions.merges hrun
    exact hmerges.heightsBelow hs.partitions hpart' hupdate ih

/-- The dendrogram that is returned is a cluster of the last state. -/
theorem exists_reaches {root : Node ρ V}
    (h : generateDendrogram mem d clstd rtss = .ok root) :
    ∃ s, Reaches mem d clstd rtss s ∧ root ∈ s.clusters := by
  obtain ⟨start, hstart, hrest⟩ := Outcome.bind_eq_ok.mp h
  obtain ⟨s, hloop, hroot⟩ := Outcome.bind_eq_ok.mp hrest
  have hround : ∀ s s' : Clustering mem, s.clusters.length != 1 → Reaches mem d clstd rtss s →
      mergeClosest clstd s = .ok s' → Reaches mem d clstd rtss s' :=
    fun s s' hmore hs hrun => hs.round (by simpa using hmore) hrun
  obtain ⟨hs, -⟩ := Outcome.whileLoop_invariant _ hround _ start s (.start hstart) hloop
  exact ⟨s, hs, List.mem_of_head? (Outcome.found_eq_ok.mp hroot)⟩

variable [IsStrictOrderedRing V]

/-- Single linkage: entries are the least distances between leaves. -/
theorem Reaches.isLeast (h : Reaches mem d single_linkage rtss s) :
    EntriesMeet (fun x y => IsLeast (leafDistances d x y)) s := by
  refine h.entriesMeet (fun a b => ?_) (fun x y dxy hxy => ?_) ?_
  · rw [leafDistances_leaf]
    exact isLeast_singleton
  · exact leafDistances_comm d x y ▸ hxy
  · intro ci cj ck dij dik djk _ _ hik hjk
    rw [single_linkage_eq_min, leafDistances_branch]
    exact hik.union hjk

/-- Complete linkage: entries are the greatest distances between leaves. -/
theorem Reaches.isGreatest (h : Reaches mem d complete_linkage rtss s) :
    EntriesMeet (fun x y => IsGreatest (leafDistances d x y)) s := by
  refine h.entriesMeet (fun a b => ?_) (fun x y dxy hxy => ?_) ?_
  · rw [leafDistances_leaf]
    exact isGreatest_singleton
  · exact leafDistances_comm d x y ▸ hxy
  · intro ci cj ck dij dik djk _ _ hik hjk
    rw [complete_linkage_eq_max, leafDistances_branch]
    exact hik.union hjk

/-- Runs with the single or the complete linkage: the entries are the extreme distances of the
leaves, and the distances of the trees do not decrease towards the root. -/
theorem extremeLinkages (mem : Memory (Node ρ V) V) (d : VectorDistance ρ V)
    (rtss : UnorderedSet ρ) :
    (∀ s, Reaches mem d single_linkage rtss s →
      (∀ x ∈ s.clusters, ∀ y ∈ s.clusters, x ≠ y →
        ∃ dxy, s.D.entry x y = some dxy ∧ IsLeast (leafDistances d x y) dxy) ∧
      ∀ c ∈ s.clusters, Rising c) ∧
    (∀ s, Reaches mem d complete_linkage rtss s →
      (∀ x ∈ s.clusters, ∀ y ∈ s.clusters, x ≠ y →
        ∃ dxy, s.D.entry x y = some dxy ∧ IsGreatest (leafDistances d x y) dxy) ∧
      ∀ c ∈ s.clusters, Rising c) ∧
    ∀ root, (generateDendrogram mem d single_linkage rtss = .ok root ∨
      generateDendrogram mem d complete_linkage rtss = .ok root) → Rising root := by
  have hsingle : ∀ ni nj nk (dik djk dij : V), dij ≤ dik → dij ≤ djk →
      dij ≤ single_linkage ni nj nk dik djk dij := fun ni nj nk dik djk dij hik hjk =>
    (single_linkage_eq_min ni nj nk dik djk dij).symm ▸ le_min hik hjk
  have hcomplete : ∀ ni nj nk (dik djk dij : V), dij ≤ dik → dij ≤ djk →
      dij ≤ complete_linkage ni nj nk dik djk dij := fun ni nj nk dik djk dij hik _ =>
    (complete_linkage_eq_max ni nj nk dik djk dij).symm ▸ hik.trans (le_max_left dik djk)
  refine ⟨fun s hs => ⟨fun x hx y hy hne => ?_, fun c hc => (hs.heightsBelow hsingle c hc).1⟩,
    fun s hs => ⟨fun x hx y hy hne => ?_, fun c hc => (hs.heightsBelow hcomplete c hc).1⟩,
    fun root hroot => ?_⟩
  · exact hs.isLeast.exists_entry hs.partitions hx hy hne
  · exact hs.isGreatest.exists_entry hs.partitions hx hy hne
  · cases hroot with
    | inl hrun =>
      obtain ⟨s, hs, hmem⟩ := exists_reaches hrun
      exact (hs.heightsBelow hsingle root hmem).1
    | inr hrun =>
      obtain ⟨s, hs, hmem⟩ := exists_reaches hrun
      exact (hs.heightsBelow hcomplete root hmem).1

theorem extremeLinkages_line :
    generateDendrogram .ordered (onLine fun n => 2 ^ n - 1) single_linkage
        ⟨[0, 1, 2, 3], by decide⟩ =
      .ok (.branch 4 (.leaf 3) (.branch 2 (.leaf 2) (.branch 1 (.leaf 0) (.leaf 1)))) ∧
    Rising (.branch 4 (.leaf 3) (.branch 2 (.leaf 2) (.branch 1 (.leaf 0) (.leaf 1))) :
      Node ℕ ℚ) := by
  have hrun : generateDendrogram .ordered (onLine fun n => 2 ^ n - 1) single_linkage
      ⟨[0, 1, 2, 3], by decide⟩ =
        .ok (.branch 4 (.leaf 3) (.branch 2 (.leaf 2) (.branch 1 (.leaf 0) (.leaf 1)))) := by
    decide +kernel
  exact ⟨hrun, (extremeLinkages .ordered (onLine fun n => 2 ^ n - 1) _).2.2 _ (.inl hrun)⟩

end Extremes
end ReadexPtf.Cluster
