import ReadexPtf.Cluster.Cut
import Mathlib

/-! Runs of the cut: the set of branches to visit holds the open nodes of the tree until two of
them have one distance, and elements that are lost then do not come back. -/
namespace ReadexPtf.Cluster
open ReadexPtf

namespace Visit
variable {ρ V : Type} [Zero V] [LinearOrder V]

/-- The clusters and the branches to visit. -/
def nodes (s : Visit ρ V) : List (Node ρ V) := s.clusters ++ s.to_visit.entries.map Prod.snd

omit [Zero V] in
theorem weight_nodes (s : Visit ρ V) :
    weight s.nodes = weight s.clusters + weight (s.to_visit.entries.map Prod.snd) :=
  weight_append _ _

/-- Each branch is where its distance puts it. -/
def Keyed (s : Visit ρ V) : Prop := ∀ e ∈ s.to_visit.entries, e.1 = e.2.distance

/-- The set holds exactly the open nodes of a list. -/
structure Follows (s : Visit ρ V) (ns : List (Node ρ V)) : Prop where
  clusters : s.clusters.Perm (ns.filter fun n => ¬ n.isBranch)
  branches : (s.to_visit.entries.map Prod.snd).Perm (branches ns)
  keyed : s.Keyed

variable {s : Visit ρ V} {ns : List (Node ρ V)}

theorem Follows.widths_perm (h : s.Follows ns) : s.to_visit.keys.Perm (widths ns) := by
  have hkeys : s.to_visit.keys = (s.to_visit.entries.map Prod.snd).map Node.distance := by
    rw [OrdMap.keys, List.map_map]
    exact List.map_congr_left h.keyed
  rw [hkeys]
  exact h.branches.map Node.distance

theorem Follows.widths_nodup (h : s.Follows ns) : (widths ns).Nodup :=
  h.widths_perm.nodup_iff.mp s.to_visit.keys_nodup

theorem Follows.nodes_perm (h : s.Follows ns) : s.nodes.Perm ns := by
  have hsplit := List.filter_append_perm Node.isBranch ns
  refine ((h.clusters.append h.branches).trans List.perm_append_comm).trans ?_
  simpa [Cluster.branches] using hsplit

theorem Follows.length_eq (h : s.Follows ns) :
    s.to_visit.entries.length + s.clusters.length = ns.length := by
  rw [← h.nodes_perm.length_eq, nodes, List.length_append, List.length_map, Nat.add_comm]

theorem Follows.dist_notMem_iff (h : s.Follows ns) {dist : V} {l r : Node ρ V} :
    (widths (ns ++ [.branch dist l r])).Nodup ↔ dist ∉ s.to_visit.keys := by
  have hwidths : widths (ns ++ [.branch dist l r]) = widths ns ++ [dist] := by
    rw [widths, Cluster.branches, List.filter_append, List.map_append]
    rfl
  rw [hwidths, List.nodup_append', h.widths_perm.mem_iff]
  simp [h.widths_nodup]

theorem Keyed.erase (h : s.Keyed) (n : Node ρ V) : (s.erase n).Keyed :=
  fun e he => h e (List.mem_filter.mp he).1

/-- Erasing a branch that is there leaves the others. -/
theorem Keyed.entries_erase_perm (h : s.Keyed) {e : V × Node ρ V}
    (he : e ∈ s.to_visit.entries) :
    s.to_visit.entries.Perm (e :: (s.erase e.2).to_visit.entries) := by
  rw [Visit.erase, ← h e he]
  exact OrdMap.Entries.filter_ne_perm s.to_visit.sorted he

theorem Keyed.weight_erase (h : s.Keyed) {e : V × Node ρ V} (he : e ∈ s.to_visit.entries) :
    weight s.nodes = weight (s.erase e.2).nodes + e.2.nelements := by
  have hperm := (h.entries_erase_perm he).map Prod.snd
  rw [weight_nodes, weight_nodes, weight_perm hperm, List.map_cons, weight_cons, Visit.erase]
  dsimp only
  omega

/-- The last branch of the set is the widest one. -/
theorem Follows.getLast (h : s.Follows ns) {n : Node ρ V} (hmem : n ∈ Cluster.branches ns)
    (hmax : ∀ m ∈ Cluster.branches ns, m.distance ≤ n.distance) :
    ∃ e, s.to_visit.entries.getLast? = some e ∧ e ∈ s.to_visit.entries ∧ e.2 = n := by
  obtain ⟨e', he', hsnd⟩ := List.mem_map.mp (h.branches.mem_iff.mpr hmem)
  cases hlast : s.to_visit.entries.getLast? with
  | none => exact absurd he' (by simp [List.getLast?_eq_none_iff.mp hlast])
  | some e =>
    have he := List.mem_of_getLast? hlast
    have hle : e.2.distance ≤ n.distance :=
      hmax e.2 (h.branches.mem_iff.mp (List.mem_map_of_mem he))
    have hge := OrdMap.le_getLast hlast e' he'
    rw [h.keyed e' he', h.keyed e he, hsnd] at hge
    have hkey : e'.1 = e.1 := by
      rw [h.keyed e' he', h.keyed e he, hsnd]
      exact le_antisymm hge hle
    have hsame : e' = e := List.inj_on_of_nodup_map s.to_visit.keys_nodup he' he hkey
    exact ⟨e, rfl, he, hsame ▸ hsnd⟩

variable [DecidableEq ρ]

theorem addChild_leaf (s : Visit ρ V) (a : ρ) :
    s.addChild (.leaf a) = { s with clusters := s.clusters.insert (.leaf a) } := rfl

theorem addChild_branch (s : Visit ρ V) (dist : V) (l r : Node ρ V) :
    s.addChild (.branch dist l r) =
      { s with to_visit := s.to_visit.insertNew dist (.branch dist l r) } := rfl

/-- A child is added, unless it is a branch with the distance of an open one. -/
theorem Follows.addChild (h : s.Follows ns) {c : Node ρ V} (hnew : c ∉ ns)
    (hwidths : (widths (ns ++ [c])).Nodup) : (s.addChild c).Follows (ns ++ [c]) := by
  cases c with
  | leaf a =>
    have hclusters : Node.leaf a ∉ s.clusters := fun hmem =>
      hnew (List.mem_filter.mp (h.clusters.mem_iff.mp hmem)).1
    refine ⟨?_, ?_, h.keyed⟩
    · rw [addChild_leaf, List.insert_of_not_mem hclusters]
      simpa using (h.clusters.cons (Node.leaf a)).trans
        (List.perm_append_singleton (Node.leaf a) _).symm
    · simpa [addChild_leaf, Cluster.branches] using h.branches
  | branch dist l r =>
    have hperm := OrdMap.entries_insertNew_perm (h.dist_notMem_iff.mp hwidths) (.branch dist l r)
    refine ⟨?_, ?_, fun e he => ?_⟩
    · simpa [addChild_branch] using h.clusters
    · have hbranches : Cluster.branches (ns ++ [.branch dist l r]) =
          Cluster.branches ns ++ [.branch dist l r] := by
        simp [Cluster.branches]
      rw [addChild_branch, hbranches]
      exact (hperm.map Prod.snd).trans ((h.branches.cons _).trans
        (List.perm_append_singleton _ _).symm)
    · rw [addChild_branch, hperm.mem_iff, List.mem_cons] at he
      cases he with
      | inl he => exact he ▸ rfl
      | inr he => exact h.keyed e he

/-- Adding a child adds its elements or none. -/
theorem weight_addChild_le (s : Visit ρ V) (c : Node ρ V) :
    weight (s.addChild c).nodes ≤ weight s.nodes + c.nelements := by
  rw [weight_nodes, weight_nodes]
  cases c with
  | leaf a =>
    have hinsert := weight_insert_le s.clusters (.leaf a)
    rw [addChild_leaf]
    dsimp only
    omega
  | branch dist l r =>
    rw [addChild_branch]
    by_cases hmem : dist ∈ s.to_visit.keys
    · rw [OrdMap.insertNew_of_mem hmem]
      exact Nat.le_add_right _ _
    · have hperm := (OrdMap.entries_insertNew_perm hmem (.branch dist l r)).map Prod.snd
      rw [weight_perm hperm, List.map_cons, weight_cons]
      dsimp only
      omega

/-- A branch with the distance of an open one is lost, with two elements at least. -/
theorem Follows.weight_addChild_lost (h : s.Follows ns) {c : Node ρ V}
    (hwidths : ¬ (widths (ns ++ [c])).Nodup) :
    weight (s.addChild c).nodes + 2 ≤ weight s.nodes + c.nelements := by
  cases c with
  | leaf a =>
    have hsame : widths (ns ++ [.leaf a]) = widths ns := by
      simp [widths, Cluster.branches]
    exact absurd (hsame ▸ h.widths_nodup) hwidths
  | branch dist l r =>
    rw [h.dist_notMem_iff, not_not] at hwidths
    have hl := l.nelements_pos
    have hr := r.nelements_pos
    rw [addChild_branch, OrdMap.insertNew_of_mem hwidths, Node.nelements]
    exact Nat.add_le_add_left (by omega) (weight s.nodes)

theorem Keyed.addChild (h : s.Keyed) (c : Node ρ V) : (s.addChild c).Keyed := by
  cases c with
  | leaf a => exact h
  | branch dist l r =>
    rw [addChild_branch]
    by_cases hmem : dist ∈ s.to_visit.keys
    · rw [OrdMap.insertNew_of_mem hmem]
      exact h
    · intro e he
      rw [(OrdMap.entries_insertNew_perm hmem (.branch dist l r)).mem_iff, List.mem_cons] at he
      cases he with
      | inl he => exact he ▸ rfl
      | inr he => exact h e he

theorem Follows.erase (h : s.Follows ns) {e : V × Node ρ V} (he : e ∈ s.to_visit.entries)
    (hmem : e.2 ∈ ns) (hbranch : e.2.isBranch) : (s.erase e.2).Follows (ns.erase e.2) := by
  have hns := List.perm_cons_erase hmem
  have hleaves := hns.filter fun n => ¬ n.isBranch
  have hbranches := hns.filter Node.isBranch
  rw [List.filter_cons_of_neg (by simpa using hbranch)] at hleaves
  rw [List.filter_cons_of_pos hbranch] at hbranches
  refine ⟨h.clusters.trans hleaves, ?_, h.keyed.erase e.2⟩
  exact (((h.keyed.entries_erase_perm he).map Prod.snd).symm.trans
    (h.branches.trans hbranches)).cons_inv

/-- A round visits the widest open branch: the children take its place, and a branch is lost
if an open one comes to have the distance of another one. -/
theorem Follows.visitMax (h : s.Follows ns) (hns : (ns.flatMap Node.elements).Nodup)
    (hopen : Cluster.branches ns ≠ []) :
    ∃ s', visitMax s = .ok s' ∧
      ((widths (openWidest ns)).Nodup → s'.Follows (openWidest ns)) ∧
      (¬ (widths (openWidest ns)).Nodup → weight s'.nodes + 2 ≤ weight s.nodes) := by
  obtain ⟨n, hmem, hbranch, hmax, hopened⟩ :=
    (openWidest_cases ns).resolve_left fun hnone => hopen hnone.1
  obtain ⟨e, hlast, he, heq⟩ := h.getLast (List.mem_filter.mpr ⟨hmem, hbranch⟩) hmax
  subst heq
  have hrest := h.erase he hmem hbranch
  have hweight := h.keyed.weight_erase he
  cases hn : e.2 with
  | leaf a => simp [hn] at hbranch
  | branch dist l r =>
    have hchildren : openWidest ns = ns.erase e.2 ++ [l] ++ [r] := by
      rw [hopened, hn, Node.children, List.append_assoc]
      rfl
    have hnodup := (openWidest_perm ns).nodup_iff.mpr hns
    rw [hchildren] at hnodup ⊢
    have hr := notMem_of_nodup hnodup
    have hl : l ∉ ns.erase e.2 := by
      rw [List.flatMap_append] at hnodup
      exact notMem_of_nodup hnodup.of_append_left
    have hsize : e.2.nelements = l.nelements + r.nelements := by rw [hn, Node.nelements]
    have hleft := weight_addChild_le (s.erase e.2) l
    have hright := weight_addChild_le ((s.erase e.2).addChild l) r
    refine ⟨((s.erase e.2).addChild l).addChild r, ?_, fun hwidths => ?_, fun hwidths => ?_⟩
    · rw [Cluster.visitMax, hlast]
      simp only [hn]
    · have hfirst : (widths (ns.erase e.2 ++ [l])).Nodup := by
        rw [widths, Cluster.branches, List.filter_append, List.map_append] at hwidths
        exact hwidths.of_append_left
      exact (hrest.addChild hl hfirst).addChild hr hwidths
    · by_cases hfirst : (widths (ns.erase e.2 ++ [l])).Nodup
      · have hlost := (hrest.addChild hl hfirst).weight_addChild_lost hwidths
        omega
      · have hlost := hrest.weight_addChild_lost hfirst
        omega

/-- No round adds elements. -/
theorem Keyed.visitMax {s' : Visit ρ V} (h : s.Keyed) (hrun : visitMax s = .ok s') :
    s'.Keyed ∧ weight s'.nodes ≤ weight s.nodes := by
  rw [Cluster.visitMax] at hrun
  cases hlast : s.to_visit.entries.getLast? with
  | none => simp [hlast] at hrun
  | some e =>
    have he := List.mem_of_getLast? hlast
    have hweight := h.weight_erase he
    rw [hlast] at hrun
    dsimp only at hrun
    cases hn : e.2 with
    | leaf a => simp [hn] at hrun
    | branch dist l r =>
      have hs' : ((s.erase e.2).addChild l).addChild r = s' := by
        rw [hn] at hrun ⊢
        exact Outcome.ok.inj hrun
      have hsize : e.2.nelements = l.nelements + r.nelements := by rw [hn, Node.nelements]
      have hleft := weight_addChild_le (s.erase e.2) l
      have hright := weight_addChild_le ((s.erase e.2).addChild l) r
      refine ⟨hs' ▸ ((h.erase e.2).addChild l).addChild r, ?_⟩
      rw [← hs']
      omega

end Visit

variable {ρ V : Type} [DecidableEq ρ] [Zero V] [LinearOrder V] {root : Node ρ V} {k : ℕ}

omit [Zero V] in
theorem leaves_eq {n : Node ρ V} (h : n.elements.Nodup) : leaves n = n.elements.map .leaf := by
  induction n with
  | leaf a => rfl
  | branch dist l r ihl ihr =>
    rw [Node.elements, List.nodup_append'] at h
    obtain ⟨hl, hr, hdisjoint⟩ := h
    have hinj : Function.Injective (Node.leaf : ρ → Node ρ V) := fun _ _ => Node.leaf.inj
    have hleaves : (l.elements.map (Node.leaf : ρ → Node ρ V)).Disjoint (r.elements.map .leaf) :=
      List.disjoint_map hinj hdisjoint
    rw [leaves, ihl hl, ihr hr, hleaves.union_eq, (hl.map hinj).dedup, Node.elements,
      List.map_append]

omit [Zero V] in
theorem leaves_isCut (hroot : root.elements.Nodup) : IsCut root root.nelements (leaves root) := by
  have hall : ((root.elements.map (Node.leaf : ρ → Node ρ V)).flatMap Node.elements) =
      root.elements := by
    rw [List.flatMap_map]
    exact List.flatMap_singleton' root.elements
  have hnodes : ∀ c ∈ leaves root, c ∈ root.nodes := by
    intro c hc
    rw [leaves_eq hroot, List.mem_map] at hc
    obtain ⟨a, ha, hac⟩ := hc
    exact hac ▸ leaf_mem_nodes ha
  have hcut := isCut_of_perm hroot hnodes (by rw [leaves_eq hroot, hall])
  have hlen : (leaves root).length = root.nelements := by
    rw [leaves_eq hroot, List.length_map, root.length_elements]
  exact hlen ▸ hcut

/-- The state before the first round. -/
theorem follows_start (hroot : root.isBranch) :
    Visit.Follows ⟨[], OrdMap.empty.set root.distance root⟩ (opened root 0) := by
  refine ⟨?_, ?_, fun e he => ?_⟩
  · simp [opened, hroot]
  · rw [opened, branches, List.filter_cons_of_pos hroot]
    exact .refl _
  · rw [List.mem_singleton.mp he]

/-- With fewer nodes than elements there is a branch to open. -/
theorem branches_ne_nil {j : ℕ} (h : j + 1 < root.nelements) : branches (opened root j) ≠ [] := by
  intro hnone
  have hlen := opened_length root (by omega : j < root.nelements)
  have hweight := weight_of_branches_nil hnone
  rw [weight_eq, (opened_perm root j).length_eq, root.length_elements] at hweight
  omega

theorem cut_of_tieFree (hroot : root.elements.Nodup) (hk : 1 ≤ k) (hn : k < root.nelements)
    (h : TieFree root k) : ∃ cs, cut root k = .ok cs ∧ IsCut root k cs := by
  have hnodup : ∀ j, ((opened root j).flatMap Node.elements).Nodup :=
    fun j => (opened_perm root j).nodup_iff.mpr hroot
  have hround : ∀ s : Visit ρ V, (s.to_visit.entries.length + s.clusters.length != k) = true →
      (∃ j < k, s.Follows (opened root j)) →
      ∃ s', visitMax s = .ok s' ∧ (∃ j < k, s'.Follows (opened root j)) ∧
        k - (s'.to_visit.entries.length + s'.clusters.length) <
          k - (s.to_visit.entries.length + s.clusters.length) := by
    intro s hmore hfollows
    obtain ⟨j, hj, hs⟩ := hfollows
    have hlen := hs.length_eq
    rw [opened_length root (by omega)] at hlen
    rw [bne_iff_ne, hlen] at hmore
    obtain ⟨s', hrun, hnext, -⟩ := hs.visitMax (hnodup j) (branches_ne_nil (by omega))
    have hs' : s'.Follows (opened root (j + 1)) := hnext (h (j + 1) (by omega))
    have hlen' := hs'.length_eq
    rw [opened_length root (by omega)] at hlen'
    exact ⟨s', hrun, ⟨j + 1, by omega, hs'⟩, by omega⟩
  obtain ⟨s, hloop, hend, hstop⟩ := Outcome.whileLoop_total
    (fun s : Visit ρ V => ∃ j < k, s.Follows (opened root j))
    (fun s => k - (s.to_visit.entries.length + s.clusters.length)) hround root.nelements _
    ⟨0, by omega, follows_start (isBranch_of_lt hn hk)⟩ (by omega)
  obtain ⟨j, hj, hs⟩ := hend
  have hsize : s.nodes.length = k := by
    rw [Visit.nodes, List.length_append, List.length_map]
    simp only [bne_iff_ne, ne_eq, not_not] at hstop
    omega
  have hperm := hs.nodes_perm
  have hdistinct : s.nodes.Nodup := by
    have hflat := (hperm.flatMap_right Node.elements).nodup_iff.mpr (hnodup j)
    refine (List.nodup_flatMap.mp hflat).2.imp fun hdisj heq => ?_
    rename_i x y
    obtain ⟨a, ha⟩ := List.exists_mem_of_ne_nil _ x.elements_ne_nil
    exact hdisj ha (heq ▸ ha)
  have hset := foldl_insert_perm hdistinct
  refine ⟨(s.to_visit.entries.map Prod.snd).foldl (fun cs n => cs.insert n) s.clusters, ?_, ?_⟩
  · rw [cut, if_neg (by omega), if_neg (by omega), hloop]
    rfl
  · have hcut := isCut_of_perm hroot
      (fun c hc => opened_mem_nodes root j c (hperm.mem_iff.mp (hset.mem_iff.mp hc)))
      (((hset.trans hperm).flatMap_right Node.elements).trans (opened_perm root j))
    rwa [hset.length_eq, ← Visit.nodes, hsize] at hcut

/-- After a tie a branch is missing where the loop ends. -/
theorem lost_of_tie (hroot : root.elements.Nodup) (hk : 1 ≤ k) (hn : k < root.nelements)
    (h : ¬ TieFree root k) {cs : List (Node ρ V)} (hrun : cut root k = .ok cs) :
    ∃ s : Visit ρ V, s.nodes.length = k ∧ weight s.nodes + 2 ≤ root.nelements ∧
      cs = (s.to_visit.entries.map Prod.snd).foldl (fun cs n => cs.insert n) s.clusters := by
  have hnodup : ∀ j, ((opened root j).flatMap Node.elements).Nodup :=
    fun j => (opened_perm root j).nodup_iff.mpr hroot
  obtain ⟨j, ⟨hj, htie⟩, hfirst⟩ : ∃ j, (j < k ∧ ¬ (widths (opened root j)).Nodup) ∧
      ∀ i < j, (widths (opened root i)).Nodup := by
    rw [TieFree] at h
    have hex : ∃ j, j < k ∧ ¬ (widths (opened root j)).Nodup := by simpa using h
    refine ⟨Nat.find hex, Nat.find_spec hex, fun i hi => ?_⟩
    have hlt := (Nat.find_spec hex).1
    by_contra hnot
    exact Nat.find_min hex hi ⟨by omega, hnot⟩
  have hstart := follows_start (isBranch_of_lt hn hk)
  have hpos : 0 < j := by
    by_contra hzero
    rw [show j = 0 by omega] at htie
    exact htie hstart.widths_nodup
  have hweight : ∀ (s : Visit ρ V) i, s.Follows (opened root i) →
      weight s.nodes = root.nelements := by
    intro s i hs
    rw [weight_perm hs.nodes_perm, weight_eq, (opened_perm root i).length_eq, root.length_elements]
  have hround : ∀ s s' : Visit ρ V, (s.to_visit.entries.length + s.clusters.length != k) = true →
      s.Keyed ∧ (weight s.nodes + 2 ≤ root.nelements ∨ ∃ i < j, s.Follows (opened root i)) →
      visitMax s = .ok s' →
      s'.Keyed ∧ (weight s'.nodes + 2 ≤ root.nelements ∨
        ∃ i < j, s'.Follows (opened root i)) := by
    intro s s' _ hs hvisit
    obtain ⟨hkeyed, hless⟩ := hs.1.visitMax hvisit
    refine ⟨hkeyed, ?_⟩
    cases hs.2 with
    | inl hlost => exact .inl (by omega)
    | inr hfollows =>
      obtain ⟨i, hi, hs⟩ := hfollows
      obtain ⟨t, ht, hnext, hlost⟩ := hs.visitMax (hnodup i) (branches_ne_nil (by omega))
      rw [← Outcome.ok.inj (ht.symm.trans hvisit)]
      by_cases hlast : i + 1 = j
      · rw [← hweight s i hs]
        have htie' : ¬ (widths (opened root (i + 1))).Nodup := by
          rw [hlast]
          exact htie
        exact .inl (hlost htie')
      · exact .inr ⟨i + 1, by omega, hnext (hfirst (i + 1) (by omega))⟩
  rw [cut, if_neg (by omega), if_neg (by omega)] at hrun
  obtain ⟨s, hloop, hret⟩ := Outcome.bind_eq_ok.mp hrun
  obtain ⟨⟨-, hend⟩, hstop⟩ := Outcome.whileLoop_invariant _ hround root.nelements _ s
    ⟨hstart.keyed, .inr ⟨0, hpos, hstart⟩⟩ hloop
  simp only [bne_iff_ne, ne_eq, not_not] at hstop
  refine ⟨s, ?_, hend.resolve_right fun hfollows => ?_, (Outcome.ok.inj hret).symm⟩
  · rw [Visit.nodes, List.length_append, List.length_map]
    omega
  · obtain ⟨i, hi, hs⟩ := hfollows
    have hlen := hs.length_eq
    rw [opened_length root (by omega)] at hlen
    omega

/-- After a tie elements are missing, whatever the cut returns. -/
theorem not_isCut_of_tie (hroot : root.elements.Nodup) (hk : 1 ≤ k) (hn : k < root.nelements)
    (h : ¬ TieFree root k) {cs : List (Node ρ V)} (hrun : cut root k = .ok cs) :
    ¬ IsCut root k cs := by
  obtain ⟨s, -, hlost, hcs⟩ := lost_of_tie hroot hk hn h hrun
  intro hcut
  have hfull := hcut.weight_eq hroot
  have hle := weight_foldl_insert_le (s.to_visit.entries.map Prod.snd) s.clusters
  rw [← hcs, ← Visit.nodes] at hle
  omega

/-- The cut into all clusters but one does not end after a tie: too few elements are left. -/
theorem cut_pred_of_tie (hroot : root.elements.Nodup) (hsize : 2 ≤ root.nelements)
    (h : ¬ TieFree root (root.nelements - 1)) (cs : List (Node ρ V)) :
    cut root (root.nelements - 1) ≠ .ok cs := by
  intro hrun
  obtain ⟨s, hlen, hlost, -⟩ := lost_of_tie hroot (by omega) (by omega) h hrun
  have hle := length_le_weight s.nodes
  omega

/-- The cut of a dendrogram into `k` clusters is right exactly if all elements are asked for,
or if no two of the branches that are open at one time have the same distance. -/
theorem cut_iff_tieFree (root : Node ρ V) (hroot : root.elements.Nodup) (k : ℕ) (hk : 1 ≤ k)
    (hn : k ≤ root.nelements) :
    (∃ cs, cut root k = .ok cs ∧ IsCut root k cs) ↔ k = root.nelements ∨ TieFree root k := by
  by_cases hall : k = root.nelements
  · refine iff_of_true ⟨leaves root, ?_, hall ▸ leaves_isCut hroot⟩ (.inl hall)
    rw [cut, if_neg (by omega), if_pos (by omega)]
  · constructor
    · rintro ⟨cs, hrun, hcut⟩
      refine .inr ?_
      by_contra htie
      exact not_isCut_of_tie hroot hk (by omega) htie hrun hcut
    · exact fun h => cut_of_tieFree hroot hk (by omega) (h.resolve_left hall)

/-- Three of four elements, no two branches of which have the same distance. -/
theorem cut_iff_tieFree_four :
    TieFree (.branch 4 (.leaf 3) (.branch 2 (.leaf 2) (.branch 1 (.leaf 0) (.leaf 1))) :
      Node ℕ ℚ) 3 ∧
    ∃ cs, cut (.branch 4 (.leaf 3) (.branch 2 (.leaf 2) (.branch 1 (.leaf 0) (.leaf 1))) :
        Node ℕ ℚ) 3 = .ok cs ∧
      IsCut (.branch 4 (.leaf 3) (.branch 2 (.leaf 2) (.branch 1 (.leaf 0) (.leaf 1)))) 3 cs := by
  have hfree : TieFree (.branch 4 (.leaf 3) (.branch 2 (.leaf 2) (.branch 1 (.leaf 0) (.leaf 1))) :
      Node ℕ ℚ) 3 := by
    intro j hj
    interval_cases j <;> decide +kernel
  exact ⟨hfree, (cut_iff_tieFree _ (by decide) 3 (by decide) (by decide)).mpr (.inr hfree)⟩

/-- Points at 0, 1, 10 and 11: both pairs are merged at distance 1, and the cut into three
clusters reads the last element of an empty set. -/
theorem not_cut_pairs :
    ¬ ∀ (rtss : UnorderedSet ℕ) (root : Node ℕ ℚ),
      generateDendrogram .ordered (onLine fun n => if n < 2 then n else n + 8) centroid rtss =
        .ok root →
      ∀ k, 1 ≤ k → k ≤ root.nelements → ∃ cs, cut root k = .ok cs ∧ IsCut root k cs := by
  intro h
  have hrun : (generateDendrogram .ordered (onLine fun n => if n < 2 then n else n + 8) centroid
      ⟨[0, 1, 2, 3], by decide⟩).returnsWith fun root =>
        3 ≤ root.nelements ∧ cut root 3 = .undefined := by
    decide +kernel
  obtain ⟨root, hroot, hprop⟩ := Outcome.returnsWith_iff.mp hrun
  obtain ⟨hsize, hcut⟩ := of_decide_eq_true hprop
  obtain ⟨cs, hcs, -⟩ := h _ root hroot 3 (by decide) hsize
  exact absurd (hcut.symm.trans hcs) (by simp)

end ReadexPtf.Cluster
