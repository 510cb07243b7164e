import ReadexPtf.Cluster.CutRuns
import ReadexPtf.Cluster.LinkageRuns
import Mathlib

/-! The cut of a dendrogram at a distance. For a linkage whose distances do not decrease it gives
the clusters that the run had when no two of them were so close: with the single linkage the
connected components of the RTSs, with the complete linkage clusters of that diameter. -/
namespace ReadexPtf.Cluster
open ReadexPtf

/-- `cut` at a distance. -/
def cutAt {ρ V : Type} [DecidableEq ρ] [LinearOrder V] (value : V) : Node ρ V → List (Node ρ V)
  | .leaf rts => [.leaf rts]
  | .branch distance left right =>
    if distance ≤ value then [.branch distance left right]
    else cutAt value left ∪ cutAt value right

section Trees
variable {ρ V : Type} [DecidableEq ρ] [LinearOrder V] {value : V} {root : Node ρ V}

theorem mem_cutAt_branch {dist : V} {l r c : Node ρ V} (h : ¬ dist ≤ value) :
    c ∈ cutAt value (.branch dist l r) ↔ c ∈ cutAt value l ∨ c ∈ cutAt value r := by
  rw [cutAt, if_neg h, List.mem_union_iff]

theorem cutAt_of_le [Zero V] {n : Node ρ V} (h : n.isBranch → n.distance ≤ value) :
    cutAt value n = [n] := by
  cases n with
  | leaf a => rfl
  | branch dist l r =>
    have hle : dist ≤ value := h rfl
    rw [cutAt, if_pos hle]

theorem mem_nodes_of_mem_cutAt {n c : Node ρ V} (h : c ∈ cutAt value n) : c ∈ n.nodes := by
  induction n with
  | leaf a =>
    rw [List.mem_singleton.mp h]
    exact Node.self_mem_nodes _
  | branch dist l r ihl ihr =>
    by_cases hle : dist ≤ value
    · rw [cutAt, if_pos hle, List.mem_singleton] at h
      exact h ▸ Node.self_mem_nodes _
    · rw [Node.nodes, List.mem_cons, List.mem_append]
      exact .inr (((mem_cutAt_branch hle).mp h).imp ihl ihr)

/-- A node of the cut is a leaf or has at most the distance. -/
theorem distance_le_of_mem_cutAt [Zero V] {n c : Node ρ V} (h : c ∈ cutAt value n)
    (hc : c.isBranch) : c.distance ≤ value := by
  induction n with
  | leaf a =>
    rw [List.mem_singleton.mp h] at hc
    exact absurd hc (by simp)
  | branch dist l r ihl ihr =>
    by_cases hle : dist ≤ value
    · rw [cutAt, if_pos hle, List.mem_singleton] at h
      exact h ▸ hle
    · exact ((mem_cutAt_branch hle).mp h).elim ihl ihr

theorem cutAt_nodup {n : Node ρ V} (h : n.elements.Nodup) :
    (cutAt value n).Nodup ∧ (cutAt value n).flatMap Node.elements = n.elements := by
  induction n with
  | leaf a => simp [cutAt, Node.elements]
  | branch dist l r ihl ihr =>
    by_cases hle : dist ≤ value
    · simp [cutAt, hle]
    rw [Node.elements, List.nodup_append'] at h
    obtain ⟨hl, hr, hdisjoint⟩ := h
    obtain ⟨hnodupl, hall⟩ := ihl hl
    obtain ⟨hnodupr, halr⟩ := ihr hr
    have hapart : (cutAt value l).Disjoint (cutAt value r) := by
      intro c hcl hcr
      obtain ⟨a, ha⟩ := List.exists_mem_of_ne_nil _ c.elements_ne_nil
      refine hdisjoint (?_ : a ∈ l.elements) (?_ : a ∈ r.elements)
      · exact hall ▸ List.mem_flatMap.mpr ⟨c, hcl, ha⟩
      · exact halr ▸ List.mem_flatMap.mpr ⟨c, hcr, ha⟩
    rw [cutAt, if_neg hle, hapart.union_eq, hnodupl.dedup]
    exact ⟨List.nodup_append'.mpr ⟨hnodupl, hnodupr, hapart⟩, by
      rw [List.flatMap_append, hall, halr, Node.elements]⟩

/-- The cut has all elements once. -/
theorem cutAt_isCut (value : V) (hroot : root.elements.Nodup) :
    IsCut root (cutAt value root).length (cutAt value root) :=
  isCut_of_perm hroot (fun _ => mem_nodes_of_mem_cutAt) (.of_eq (cutAt_nodup hroot).2)

/-- Every branch of the tree is in the relation `R` to its children. -/
def Built (R : Node ρ V → Node ρ V → V → Prop) : Node ρ V → Prop
  | .leaf _ => True
  | .branch dist left right => R left right dist ∧ Built R left ∧ Built R right

omit [DecidableEq ρ] [LinearOrder V] in
theorem Built.of_mem_nodes {R : Node ρ V → Node ρ V → V → Prop} {n : Node ρ V}
    (h : Built R root) (hn : n ∈ root.nodes) : Built R n := by
  induction root with
  | leaf a => exact List.mem_singleton.mp hn ▸ h
  | branch dist l r ihl ihr =>
    rw [Node.nodes, List.mem_cons, List.mem_append] at hn
    rcases hn with heq | hl | hr
    · exact heq ▸ h
    · exact ihl h.2.1 hl
    · exact ihr h.2.2 hr

end Trees

section Runs
variable {ρ V : Type} [DecidableEq ρ] [Field V] [LinearOrder V] {mem : Memory (Node ρ V) V}
  {clstd : ℕ → ℕ → ℕ → V → V → V → V} {d : VectorDistance ρ V} {rtss : UnorderedSet ρ}
  {s s' : Clustering mem} {R : Node ρ V → Node ρ V → V → Prop} {value : V} {root : Node ρ V}

omit [DecidableEq ρ] in
theorem Rising.of_mem_nodes {n : Node ρ V} (h : Rising root) (hn : n ∈ root.nodes) : Rising n := by
  induction root with
  | leaf a => exact List.mem_singleton.mp hn ▸ h
  | branch dist l r ihl ihr =>
    rw [Node.nodes, List.mem_cons, List.mem_append] at hn
    rcases hn with heq | hl | hr
    · exact heq ▸ h
    · exact ihl h.2.1 hl
    · exact ihr h.2.2 hr

/-- What holds of all entries of a run holds of the branches it makes. -/
theorem Reaches.built (hmeet : ∀ s, Reaches mem d clstd rtss s → EntriesMeet R s)
    (h : Reaches mem d clstd rtss s) : ∀ c ∈ s.clusters, Built R c := by
  induction h with
  | @start s h =>
    obtain ⟨t, ht, hclusters, -⟩ := initialClustering_eq d mem rtss
    intro c hc
    rw [← Outcome.ok.inj (ht.symm.trans h), hclusters, List.mem_map] at hc
    obtain ⟨a, -, hleaf⟩ := hc
    exact hleaf ▸ trivial
  | round hs hmore hrun ih =>
    obtain ⟨dij, ci, cj, hmerges, -⟩ := hs.partitions.merges hrun
    obtain ⟨hne, hentry, -⟩ := Matrix.isMinimum_of_minimum hmerges.minimum
    obtain ⟨-, hi, hj⟩ := hs.partitions.mem_of_minimum hmerges.minimum
    intro c hc
    rw [hmerges.clusters, List.mem_append, List.mem_singleton] at hc
    cases hc with
    | inl hc => exact ih c (hs.partitions.mem_others.mp hc).1
    | inr hc => exact hc ▸ ⟨hmeet _ hs ci cj dij hne hentry, ih ci hi, ih cj hj⟩

/-- No cluster is above the value yet, or all entries are, and the nodes of the cuts are far
from each other. -/
def CutFar (R : Node ρ V → Node ρ V → V → Prop) (value : V) (s : Clustering mem) : Prop :=
  (∀ c ∈ s.clusters, c.isBranch → c.distance ≤ value) ∨
    (∀ x y dxy, x ≠ y → s.D.entry x y = some dxy → value < dxy) ∧
      ∀ x ∈ s.clusters.flatMap (cutAt value), ∀ y ∈ s.clusters.flatMap (cutAt value), x ≠ y →
        ∃ dxy, value < dxy ∧ R x y dxy

/-- A merge at a greater distance leaves the nodes of the cut. -/
theorem Merges.mem_cuts {dij : V} {ci cj : Node ρ V} (h : Merges clstd s dij ci cj s')
    (hpart : Partitions rtss s) (habove : ¬ dij ≤ value) {x : Node ρ V}
    (hx : x ∈ s'.clusters.flatMap (cutAt value)) : x ∈ s.clusters.flatMap (cutAt value) := by
  obtain ⟨-, hi, hj⟩ := hpart.mem_of_minimum h.minimum
  rw [h.clusters, List.flatMap_append, List.mem_append, List.mem_flatMap, List.flatMap_singleton,
    mem_cutAt_branch habove] at hx
  rw [List.mem_flatMap]
  rcases hx with ⟨c, hc, hx⟩ | hx | hx
  · exact ⟨c, (hpart.mem_others.mp hc).1, hx⟩
  · exact ⟨ci, hi, hx⟩
  · exact ⟨cj, hj, hx⟩

theorem Merges.cutFar (hpart : Partitions rtss s) (hpart' : Partitions rtss s') {dij : V}
    {ci cj : Node ρ V} (h : Merges clstd s dij ci cj s')
    (hupdate : ∀ ni nj nk dik djk dij, dij ≤ dik → dij ≤ djk → dij ≤ clstd ni nj nk dik djk dij)
    (hmeet : EntriesMeet R s) (hs : CutFar R value s) : CutFar R value s' := by
  obtain ⟨hne, hentry, hleast⟩ := Matrix.isMinimum_of_minimum h.minimum
  by_cases hle : dij ≤ value
  · refine .inl fun c hc hbranch => ?_
    rw [h.clusters, List.mem_append, List.mem_singleton] at hc
    cases hc with
    | inr hc => exact hc ▸ hle
    | inl hc =>
      cases hs with
      | inl hbelow => exact hbelow c (hpart.mem_others.mp hc).1 hbranch
      | inr hfar => exact absurd (hfar.1 ci cj dij hne hentry) (not_lt.mpr hle)
  · have hentries : ∀ x y dxy, x ≠ y → s.D.entry x y = some dxy → value < dxy :=
      fun x y dxy hxy hdxy => (not_le.mp hle).trans_le (hleast x y dxy hxy hdxy)
    refine .inr ⟨fun x y dxy hxy hdxy => ?_, fun x hx y hy hxy => ?_⟩
    · rcases h.entry_cases hpart hpart' hxy hdxy with
        ⟨-, -, hold⟩ | ⟨ck, dik, djk, hk, -, hdik, hdjk, hnew⟩
      · exact hentries x y dxy hxy hold
      · obtain ⟨hik, hjk⟩ := h.le_entries hpart hk hdik hdjk
        exact hnew ▸ (not_le.mp hle).trans_le (hupdate _ _ _ dik djk dij hik hjk)
    · have hx' := h.mem_cuts hpart hle hx
      have hy' := h.mem_cuts hpart hle hy
      cases hs with
      | inr hfar => exact hfar.2 x hx' y hy' hxy
      | inl hbelow =>
        -- so far the cut of a cluster is the cluster
        have hself : ∀ z ∈ s.clusters.flatMap (cutAt value), z ∈ s.clusters := by
          intro z hz
          obtain ⟨c, hc, hz⟩ := List.mem_flatMap.mp hz
          rw [cutAt_of_le (hbelow c hc), List.mem_singleton] at hz
          exact hz ▸ hc
        obtain ⟨dxy, hdxy, hR⟩ := hmeet.exists_entry hpart (hself x hx') (hself y hy') hxy
        exact ⟨dxy, hentries x y dxy hxy hdxy, hR⟩

theorem Reaches.cutFar
    (hupdate : ∀ ni nj nk dik djk dij, dij ≤ dik → dij ≤ djk → dij ≤ clstd ni nj nk dik djk dij)
    (hmeet : ∀ s, Reaches mem d clstd rtss s → EntriesMeet R s) (value : V)
    (h : Reaches mem d clstd rtss s) : CutFar R value s := by
  induction h with
  | @start s h =>
    obtain ⟨t, ht, hclusters, -⟩ := initialClustering_eq d mem rtss
    refine .inl fun c hc hbranch => ?_
    rw [← Outcome.ok.inj (ht.symm.trans h), hclusters, List.mem_map] at hc
    obtain ⟨a, -, hleaf⟩ := hc
    rw [← hleaf] at hbranch
    exact absurd hbranch (by simp)
  | round hs hmore hrun ih =>
    obtain ⟨dij, ci, cj, hmerges, hpart'⟩ := hs.partitions.merges hrun
    exact hmerges.cutFar hs.partitions hpart' hupdate (hmeet _ hs) ih

/-- The dendrogram that is returned is the only cluster of the last state. -/
theorem exists_last (h : generateDendrogram mem d clstd rtss = .ok root) :
    ∃ s, Reaches mem d clstd rtss s ∧ s.clusters = [root] := by
  obtain ⟨start, hstart, hrest⟩ := Outcome.bind_eq_ok.mp h
  obtain ⟨s, hloop, hroot⟩ := Outcome.bind_eq_ok.mp hrest
  have hround : ∀ s s' : Clustering mem, s.clusters.length != 1 → Reaches mem d clstd rtss s →
      mergeClosest clstd s = .ok s' → Reaches mem d clstd rtss s' :=
    fun s s' hmore hs hrun => hs.round (by simpa using hmore) hrun
  obtain ⟨hs, hstop⟩ := Outcome.whileLoop_invariant _ hround _ start s (.start hstart) hloop
  obtain ⟨last, hlast⟩ := List.length_eq_one_iff.mp (by simpa using hstop)
  rw [Outcome.found_eq_ok, hlast, List.head?_cons, Option.some.injEq] at hroot
  exact ⟨s, hs, hroot ▸ hlast⟩

/-- The cut of a returned dendrogram: its nodes are built as the entries are, and two of them are
farther from each other than the value. -/
theorem cutAt_of_run
    (hupdate : ∀ ni nj nk dik djk dij, dij ≤ dik → dij ≤ djk → dij ≤ clstd ni nj nk dik djk dij)
    (hmeet : ∀ s, Reaches mem d clstd rtss s → EntriesMeet R s)
    (hrun : generateDendrogram mem d clstd rtss = .ok root) (value : V) :
    root.elements.Perm rtss.elems ∧ (∀ c ∈ cutAt value root, Built R c ∧ Rising c) ∧
      ∀ x ∈ cutAt value root, ∀ y ∈ cutAt value root, x ≠ y → ∃ dxy, value < dxy ∧ R x y dxy := by
  obtain ⟨s, hs, hlast⟩ := exists_last hrun
  have hroot : root ∈ s.clusters := hlast ▸ List.mem_singleton.mpr rfl
  have hbuilt := hs.built hmeet root hroot
  have hrising := (hs.heightsBelow hupdate root hroot).1
  refine ⟨?_, fun c hc => ?_, fun x hx y hy hne => ?_⟩
  · have hleaves := hs.partitions.leaves
    rwa [hlast, List.flatMap_singleton] at hleaves
  · have hnode := mem_nodes_of_mem_cutAt hc
    exact ⟨hbuilt.of_mem_nodes hnode, hrising.of_mem_nodes hnode⟩
  · cases hs.cutFar hupdate hmeet value with
    | inl hbelow =>
      rw [cutAt_of_le (hbelow root hroot), List.mem_singleton] at hx hy
      exact absurd (hx.trans hy.symm) hne
    | inr hfar =>
      exact hfar.2 x (List.mem_flatMap.mpr ⟨root, hroot, hx⟩) y
        (List.mem_flatMap.mpr ⟨root, hroot, hy⟩) hne

end Runs

section Linkages
variable {ρ V : Type} [DecidableEq ρ] [Field V] [LinearOrder V] [IsStrictOrderedRing V]
  {mem : Memory (Node ρ V) V} {d : VectorDistance ρ V} {rtss : UnorderedSet ρ} {value : V}
  {root : Node ρ V}

theorem le_single_linkage (ni nj nk : ℕ) (dik djk dij : V) (hik : dij ≤ dik) (hjk : dij ≤ djk) :
    dij ≤ single_linkage ni nj nk dik djk dij := by
  rw [single_linkage_eq_min]
  exact le_min hik hjk

theorem le_complete_linkage (ni nj nk : ℕ) (dik djk dij : V) (hik : dij ≤ dik) (_ : dij ≤ djk) :
    dij ≤ complete_linkage ni nj nk dik djk dij := by
  rw [complete_linkage_eq_max]
  exact hik.trans (le_max_left dik djk)

/-- Two RTSs whose distance is at most the value. -/
def Near (d : VectorDistance ρ V) (rtss : UnorderedSet ρ) (value : V) (a b : ρ) : Prop :=
  a ∈ rtss.elems ∧ b ∈ rtss.elems ∧ d.between a b ≤ value

/-- Two RTSs of one node of the cut. -/
def Together (value : V) (root : Node ρ V) (a b : ρ) : Prop :=
  ∃ c ∈ cutAt value root, a ∈ c.elements ∧ b ∈ c.elements

omit [DecidableEq ρ] [IsStrictOrderedRing V] in
theorem Near.symm {a b : ρ} (h : Near d rtss value a b) : Near d rtss value b a :=
  ⟨h.2.1, h.1, d.symm a b ▸ h.2.2⟩

omit [DecidableEq ρ] [IsStrictOrderedRing V] in
/-- The least distances connect the leaves of a tree whose branches are at most the value. -/
theorem connected_of_built {n : Node ρ V}
    (hbuilt : Built (fun x y => IsLeast (leafDistances d x y)) n) (hrising : Rising n)
    (hle : n.isBranch → n.distance ≤ value) (hmem : ∀ a ∈ n.elements, a ∈ rtss.elems) :
    ∀ a ∈ n.elements, ∀ b ∈ n.elements, Relation.ReflTransGen (Near d rtss value) a b := by
  induction n with
  | leaf c =>
    intro a ha b hb
    rw [List.mem_singleton.mp ha, List.mem_singleton.mp hb]
  | branch dist l r ihl ihr =>
    obtain ⟨⟨⟨x, hx, y, hy, hxy⟩, -⟩, hbl, hbr⟩ := hbuilt
    obtain ⟨⟨hdl, hdr⟩, hrl, hrr⟩ := hrising
    have hdist : dist ≤ value := hle rfl
    have hmeml : ∀ a ∈ l.elements, a ∈ rtss.elems := fun a ha =>
      hmem a (List.mem_append_left _ ha)
    have hmemr : ∀ a ∈ r.elements, a ∈ rtss.elems := fun a ha =>
      hmem a (List.mem_append_right _ ha)
    have hleft := ihl hbl hrl (fun _ => hdl.trans hdist) hmeml
    have hright := ihr hbr hrr (fun _ => hdr.trans hdist) hmemr
    have hbridge : Near d rtss value x y := ⟨hmeml x hx, hmemr y hy, hxy.trans_le hdist⟩
    intro a ha b hb
    rw [Node.elements, List.mem_append] at ha hb
    rcases ha with ha | ha <;> rcases hb with hb | hb
    · exact hleft a ha b hb
    · exact ((hleft a ha x hx).tail hbridge).trans (hright y hy b hb)
    · exact ((hright a ha y hy).tail hbridge.symm).trans (hleft x hx b hb)
    · exact hright a ha b hb

/-- The single linkage: the cut at a value gives the connected components of the RTSs, two of
which are connected if their distance is at most the value. -/
theorem cutAt_components (mem : Memory (Node ρ V) V) (d : VectorDistance ρ V)
    (rtss : UnorderedSet ρ) (root : Node ρ V)
    (hrun : generateDendrogram mem d single_linkage rtss = .ok root) (value : V) :
    IsCut root (cutAt value root).length (cutAt value root) ∧ root.elements.Perm rtss.elems ∧
      ∀ a ∈ rtss.elems, ∀ b ∈ rtss.elems, (Together value root a b ↔
        Relation.ReflTransGen (Near d rtss value) a b) := by
  obtain ⟨hperm, hbuilt, hfar⟩ :=
    cutAt_of_run le_single_linkage (fun s hs => Reaches.isLeast hs) hrun value
  have hcut := cutAt_isCut value (hperm.nodup_iff.mpr rtss.nodup)
  refine ⟨hcut, hperm, fun a ha b hb => ⟨?_, fun hpath => ?_⟩⟩
  · rintro ⟨c, hc, hac, hbc⟩
    refine connected_of_built (hbuilt c hc).1 (hbuilt c hc).2 (distance_le_of_mem_cutAt hc)
      (fun x hx => hperm.mem_iff.mp ((hcut.2.2.2 x).mpr ⟨c, hc, hx⟩)) a hac b hbc
  · induction hpath with
    | refl =>
      obtain ⟨c, hc, hac⟩ := (hcut.2.2.2 a).mp (hperm.mem_iff.mpr ha)
      exact ⟨c, hc, hac, hac⟩
    | @tail x y hpath hnear ih =>
      obtain ⟨hx, hy, hxy⟩ := hnear
      obtain ⟨c, hc, hac, hxc⟩ := ih hx
      obtain ⟨c', hc', hyc'⟩ := (hcut.2.2.2 y).mp (hperm.mem_iff.mpr hy)
      by_cases hsame : c = c'
      · exact ⟨c, hc, hac, hsame ▸ hyc'⟩
      · obtain ⟨dxy, hlt, -, hleast⟩ := hfar c hc c' hc' hsame
        have hle : dxy ≤ d.between x y := hleast ⟨x, hxc, y, hyc', rfl⟩
        exact absurd (hlt.trans_le (hle.trans hxy)) (lt_irrefl value)

/-- Points at 0, 1, 3 and 7: those up to 3 are connected by steps of at most 2. -/
theorem cutAt_components_line :
    Relation.ReflTransGen (Near (onLine fun n => 2 ^ n - 1) ⟨[0, 1, 2, 3], by decide⟩ 2) 0 2 ∧
    ¬ Relation.ReflTransGen (Near (onLine fun n => 2 ^ n - 1) ⟨[0, 1, 2, 3], by decide⟩ 2) 0 3 := by
  have hrun : generateDendrogram .ordered (onLine fun n => 2 ^ n - 1) single_linkage
      ⟨[0, 1, 2, 3], by decide⟩ =
        .ok (.branch 4 (.leaf 3) (.branch 2 (.leaf 2) (.branch 1 (.leaf 0) (.leaf 1)))) := by
    decide +kernel
  have hcut : cutAt 2 (.branch 4 (.leaf 3) (.branch 2 (.leaf 2) (.branch 1 (.leaf 0) (.leaf 1))) :
      Node ℕ ℚ) = [.leaf 3, .branch 2 (.leaf 2) (.branch 1 (.leaf 0) (.leaf 1))] := by
    decide +kernel
  obtain ⟨-, -, htogether⟩ := cutAt_components .ordered (onLine fun n => 2 ^ n - 1) _ _ hrun 2
  refine ⟨(htogether 0 (by simp) 2 (by simp)).mp ?_, fun hpath => ?_⟩
  · exact ⟨.branch 2 (.leaf 2) (.branch 1 (.leaf 0) (.leaf 1)), by simp [hcut],
      by simp [Node.elements]⟩
  · obtain ⟨c, hc, h0, h3⟩ := (htogether 0 (by simp) 3 (by simp)).mpr hpath
    rw [hcut] at hc
    simp only [List.mem_cons, List.not_mem_nil, or_false] at hc
    rcases hc with rfl | rfl <;> simp [Node.elements] at h0 h3

omit [DecidableEq ρ] [IsStrictOrderedRing V] in
/-- The greatest distances bound those of the leaves of a tree. -/
theorem between_le_of_built {n : Node ρ V}
    (hbuilt : Built (fun x y => IsGreatest (leafDistances d x y)) n) (hrising : Rising n)
    (hle : n.isBranch → n.distance ≤ value) :
    ∀ a ∈ n.elements, ∀ b ∈ n.elements, a ≠ b → d.between a b ≤ value := by
  induction n with
  | leaf c =>
    intro a ha b hb hne
    exact absurd ((List.mem_singleton.mp ha).trans (List.mem_singleton.mp hb).symm) hne
  | branch dist l r ihl ihr =>
    obtain ⟨⟨-, hgreatest⟩, hbl, hbr⟩ := hbuilt
    obtain ⟨⟨hdl, hdr⟩, hrl, hrr⟩ := hrising
    have hdist : dist ≤ value := hle rfl
    have hcross : ∀ x ∈ l.elements, ∀ y ∈ r.elements, d.between x y ≤ value :=
      fun x hx y hy => (hgreatest ⟨x, hx, y, hy, rfl⟩).trans hdist
    intro a ha b hb hne
    rw [Node.elements, List.mem_append] at ha hb
    rcases ha with ha | ha <;> rcases hb with hb | hb
    · exact ihl hbl hrl (fun _ => hdl.trans hdist) a ha b hb hne
    · exact hcross a ha b hb
    · exact d.symm b a ▸ hcross b hb a ha
    · exact ihr hbr hrr (fun _ => hdr.trans hdist) a ha b hb hne

/-- The complete linkage: the RTSs of a node of the cut are at most the value apart, and no two
nodes could be one. -/
theorem cutAt_diameters (mem : Memory (Node ρ V) V) (d : VectorDistance ρ V)
    (rtss : UnorderedSet ρ) (root : Node ρ V)
    (hrun : generateDendrogram mem d complete_linkage rtss = .ok root) (value : V) :
    IsCut root (cutAt value root).length (cutAt value root) ∧ root.elements.Perm rtss.elems ∧
      (∀ a b, a ≠ b → Together value root a b → d.between a b ≤ value) ∧
      ∀ x ∈ cutAt value root, ∀ y ∈ cutAt value root, x ≠ y →
        ∃ a ∈ x.elements, ∃ b ∈ y.elements, value < d.between a b := by
  obtain ⟨hperm, hbuilt, hfar⟩ :=
    cutAt_of_run le_complete_linkage (fun s hs => Reaches.isGreatest hs) hrun value
  refine ⟨cutAt_isCut value (hperm.nodup_iff.mpr rtss.nodup), hperm, ?_, fun x hx y hy hne => ?_⟩
  · rintro a b hne ⟨c, hc, hac, hbc⟩
    exact between_le_of_built (hbuilt c hc).1 (hbuilt c hc).2 (distance_le_of_mem_cutAt hc)
      a hac b hbc hne
  · obtain ⟨dxy, hlt, ⟨a, ha, b, hb, hab⟩, -⟩ := hfar x hx y hy hne
    exact ⟨a, ha, b, hb, hab ▸ hlt⟩

/-- The same points: those up to 3 have this diameter, and 7 is farther from one of them. -/
theorem cutAt_diameters_line :
    ∃ a ∈ [2, 0, 1], ∃ b ∈ [3], 3 < (onLine fun n => 2 ^ n - 1).between a b := by
  have hrun : generateDendrogram .ordered (onLine fun n => 2 ^ n - 1) complete_linkage
      ⟨[0, 1, 2, 3], by decide⟩ =
        .ok (.branch 7 (.leaf 3) (.branch 3 (.leaf 2) (.branch 1 (.leaf 0) (.leaf 1)))) := by
    decide +kernel
  have hcut : cutAt 3 (.branch 7 (.leaf 3) (.branch 3 (.leaf 2) (.branch 1 (.leaf 0) (.leaf 1))) :
      Node ℕ ℚ) = [.leaf 3, .branch 3 (.leaf 2) (.branch 1 (.leaf 0) (.leaf 1))] := by
    decide +kernel
  exact (cutAt_diameters .ordered (onLine fun n => 2 ^ n - 1) _ _ hrun 3).2.2.2
    (.branch 3 (.leaf 2) (.branch 1 (.leaf 0) (.leaf 1))) (by simp [hcut]) (.leaf 3)
    (by simp [hcut]) (by simp)

end Linkages
end ReadexPtf.Cluster
