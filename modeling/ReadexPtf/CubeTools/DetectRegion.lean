import ReadexPtf.CubeTools.SignificantRegions

/-! The search as the tool runs it on a call tree: where its candidates come from, when
it ends, and when the regions it returns are nested. -/
namespace ReadexPtf.CubeTools
open ReadexPtf Relation Peeling

variable {t : CallTree}

/-- The lists `traverseTree` appends to. -/
structure Gathering (t : CallTree) where
  sig_region_names : List String
  list_cnames : Regions
  sign_nodes : List t.Cnode

/-- What the traversal does at a node it does not leave. -/
def Gathering.add (g : Gathering t) (call_node : t.Cnode) : Gathering t :=
  if t.callee call_node ≠ "" ∧ t.callee call_node ∉ g.sig_region_names then
    { sig_region_names := g.sig_region_names ++ [t.callee call_node]
      list_cnames := g.list_cnames ++ [t.callee call_node]
      sign_nodes := g.sign_nodes ++ [call_node] }
  else g

theorem lt_of_mem_children {p c : t.Cnode} (h : c ∈ t.children p) : p < c :=
  t.parent_lt c p (of_decide_eq_true (List.mem_filter.mp h).2)

/-- `filtered` stands for the tests that make the traversal return at a node (its kind, the
coarse node list, parallel events and the granularity), `descends` for those on its children. -/
def traverseTree (filtered descends : t.Cnode → Bool) (call_node : t.Cnode) (g : Gathering t) :
    Gathering t :=
  if filtered call_node then g
  else
    let g := g.add call_node
    if descends call_node then
      (t.children call_node).attach.foldl (fun g c => traverseTree filtered descends c.1 g) g
    else g
termination_by t.size - call_node.val
decreasing_by
  have hlt : call_node.val < c.1.val := lt_of_mem_children c.2
  omega

/-- The candidates are distinct non-empty names of nodes in the phase's subtree. -/
structure Candidates (phase_node : t.Cnode) (can_cnodes : List t.Cnode) (names : List String) :
    Prop where
  nodup : names.Nodup
  nonempty : "" ∉ names
  called : ∀ name ∈ names, ∃ c ∈ can_cnodes, t.callee c = name
  below : ∀ c ∈ can_cnodes, c = phase_node ∨ t.Below phase_node c

theorem Candidates.sublist {phase_node : t.Cnode} {can_cnodes : List t.Cnode}
    {names names' : List String} (h : Candidates phase_node can_cnodes names)
    (hnodup : names'.Nodup) (hsub : ∀ x ∈ names', x ∈ names) :
    Candidates phase_node can_cnodes names' :=
  ⟨hnodup, fun hmem => h.nonempty (hsub _ hmem), fun x hx => h.called x (hsub x hx), h.below⟩

/-- The names gathered are those mapped, and each has the node it was gathered from. -/
def Gathering.Sound (phase_node : t.Cnode) (g : Gathering t) : Prop :=
  g.list_cnames = g.sig_region_names ∧ Candidates phase_node g.sign_nodes g.sig_region_names

theorem Gathering.Sound.add {phase_node call_node : t.Cnode} {g : Gathering t}
    (h : g.Sound phase_node) (hbelow : call_node = phase_node ∨ t.Below phase_node call_node) :
    (g.add call_node).Sound phase_node := by
  rw [Gathering.add]
  split_ifs with hnew
  · obtain ⟨hsame, hcandidates⟩ := h
    refine ⟨by simp only [hsame], ?_, ?_, fun name hname => ?_, fun c hc => ?_⟩
    · exact List.Nodup.append hcandidates.nodup (List.nodup_singleton _)
        (List.disjoint_singleton.mpr hnew.2)
    · rw [List.mem_append, List.mem_singleton]
      exact fun hempty => hempty.elim hcandidates.nonempty fun heq => hnew.1 heq.symm
    · cases List.mem_append.mp hname with
      | inl hold =>
        obtain ⟨c, hc, heq⟩ := hcandidates.called name hold
        exact ⟨c, List.mem_append_left _ hc, heq⟩
      | inr hself =>
        exact ⟨call_node, List.mem_append_right _ (List.mem_singleton_self _),
          (List.mem_singleton.mp hself).symm⟩
    · cases List.mem_append.mp hc with
      | inl hold => exact hcandidates.below c hold
      | inr hself => exact (List.mem_singleton.mp hself) ▸ hbelow
  · exact h

theorem below_of_mem_children {phase_node p c : t.Cnode}
    (hp : p = phase_node ∨ t.Below phase_node p) (hc : c ∈ t.children p) :
    t.Below phase_node c := by
  have hedge : t.parent c = some p := of_decide_eq_true (List.mem_filter.mp hc).2
  cases hp with
  | inl heq => exact .single (heq ▸ hedge)
  | inr hbelow => exact hbelow.tail hedge

/-- The traversal from the phase keeps the gathered names sound. -/
theorem sound_traverseTree (filtered descends : t.Cnode → Bool) {phase_node : t.Cnode} :
    ∀ (call_node : t.Cnode) (g : Gathering t), g.Sound phase_node →
      (call_node = phase_node ∨ t.Below phase_node call_node) →
      (traverseTree filtered descends call_node g).Sound phase_node := by
  intro call_node
  induction hn : t.size - call_node.val using Nat.strong_induction_on generalizing call_node with
  | _ n ih =>
    intro g hg hbelow
    rw [traverseTree]
    split_ifs with hfiltered hdescends
    · exact hg
    · have hfold : ∀ (cs : List { c // c ∈ t.children call_node }) (g : Gathering t),
          g.Sound phase_node →
          (cs.foldl (fun g c => traverseTree filtered descends c.1 g) g).Sound phase_node := by
        intro cs
        induction cs with
        | nil => exact fun _ h => h
        | cons c cs hrest =>
          intro g h
          have hlt : call_node.val < c.1.val := lt_of_mem_children c.2
          exact hrest _ (ih _ (by omega) c.1 rfl g h (.inr (below_of_mem_children hbelow c.2)))
      exact hfold _ _ (hg.add hbelow)
    · exact hg.add hbelow

/-- The candidates lie in the subtree that the adjacency matrix is filled from. -/
theorem Candidates.occurs {get_whole_subtree : t.Cnode → List t.Cnode} {phase_node : t.Cnode}
    {can_cnodes : List t.Cnode} {names : List String} (hgws : WholeSubtree get_whole_subtree)
    (h : Candidates phase_node can_cnodes names) {name : String} (hname : name ∈ names) :
    ∃ c, occurrence get_whole_subtree phase_node name = some c ∧
      (c = phase_node ∨ t.Below phase_node c) := by
  rw [occurrence]
  split_ifs with hphase
  · exact ⟨phase_node, rfl, .inl rfl⟩
  · obtain ⟨c, hc, hcallee⟩ := h.called name hname
    have hbelow : t.Below phase_node c :=
      (h.below c hc).resolve_left fun heq => hphase (heq ▸ hcallee.symm)
    cases hfind : getCnode name (get_whole_subtree phase_node) with
    | none =>
      rw [getCnode, List.find?_eq_none] at hfind
      exact absurd (decide_eq_true hcallee) (hfind c (hgws.descendant _ _ hbelow))
    | some d => exact ⟨d, rfl, hgws.only _ _ (callee_getCnode hfind).1⟩

theorem Candidates.exists_getCnode {phase_node : t.Cnode} {can_cnodes : List t.Cnode}
    {names : List String} (h : Candidates phase_node can_cnodes names) {name : String}
    (hname : name ∈ names) : ∃ c, getCnode name can_cnodes = some c ∧ t.callee c = name := by
  obtain ⟨c, hc, hcallee⟩ := h.called name hname
  cases hfind : getCnode name can_cnodes with
  | none =>
    rw [getCnode, List.find?_eq_none] at hfind
    exact absurd (decide_eq_true hcallee) (hfind c hc)
  | some d => exact ⟨d, rfl, (callee_getCnode hfind).2⟩

section Driver
variable (get_whole_subtree : t.Cnode → List t.Cnode)

/-- What `detectRegion` does between finding the phase and printing the significant regions:
the state the search begins with and the nodes it looks names up in. -/
def detectRegion (filtered descends : t.Cnode → Bool) (phase_node : t.Cnode) :
    Outcome (Option (Search × List t.Cnode)) :=
  if (t.children phase_node).isEmpty then .ok none
  else
    let g := traverseTree filtered descends phase_node ⟨[], [], []⟩
    if g.sig_region_names.isEmpty then .ok none
    else do
      let a_m ← generateAdjacencyMatrix get_whole_subtree g.list_cnames.length phase_node
        g.list_cnames
      let (candidate_list, a_m, can_region_mapping) ←
        getCandidateRegions get_whole_subtree phase_node a_m g.list_cnames g.sig_region_names
      .ok (some (⟨candidate_list, can_region_mapping, a_m, []⟩, g.sign_nodes))

variable {get_whole_subtree}

/-- Collecting the strongly connected regions reads names inside the mapping only. -/
theorem collect_returns (a_m : Matrix) (regions : Regions) :
    ∃ names, (List.range regions.length).foldlM (fun names i =>
      (List.range regions.length).foldlM (fun names j =>
        if i ≠ j ∧ a_m i j ∧ a_m j i then do
          let name_i ← getRegionName i regions
          let name_j ← getRegionName j regions
          let names := if names.isEmpty then [name_i, name_j] else names
          let names := if name_i ∈ names then names else names ++ [name_i]
          .ok (if name_j ∈ names then names else names ++ [name_j])
        else .ok names) names) ([] : List String) = .ok names := by
  refine Outcome.foldlM_returns (fun names i hi => ?_) []
  refine Outcome.foldlM_returns (fun names j hj => ?_) names
  by_cases hmutual : i ≠ j ∧ a_m i j ∧ a_m j i
  · rw [if_pos hmutual, getRegionName_eq (List.getElem?_eq_getElem (List.mem_range.mp hi)),
      getRegionName_eq (List.getElem?_eq_getElem (List.mem_range.mp hj))]
    exact ⟨_, rfl⟩
  · rw [if_neg hmutual]
    exact ⟨_, rfl⟩

/-- Candidates without the strongly connected regions, mapping and matrix rebuilt for them. -/
theorem getCandidateRegions_spec {phase_node : t.Cnode} {names : List String} {s : Search}
    (hbegin : beginSearch get_whole_subtree phase_node names = .ok s)
    (hnodup : names.Nodup)
    (hoccur : ∀ name ∈ names, ∃ c, occurrence get_whole_subtree phase_node name = some c) :
    ∃ candidate_list a_m can_region_mapping,
      getCandidateRegions get_whole_subtree phase_node s.a_m names names =
        .ok (candidate_list, a_m, can_region_mapping) ∧
      candidate_list.Nodup ∧ (∀ x ∈ candidate_list, x ∈ names) ∧
      (candidate_list ≠ [] → beginSearch get_whole_subtree phase_node candidate_list =
        .ok ⟨candidate_list, can_region_mapping, a_m, []⟩) := by
  obtain ⟨can_r_names, hcollect⟩ := collect_returns s.a_m names
  by_cases hnone : can_r_names.isEmpty = true
  · refine ⟨names, s.a_m, names, ?_, hnodup, fun _ h => h, fun _ => ?_⟩
    · rw [getCandidateRegions, hcollect, Outcome.ok_bind, if_pos hnone]
    · obtain ⟨m, hgenerate, hs⟩ := Outcome.bind_eq_ok.mp hbegin
      rw [beginSearch, hgenerate, ← Outcome.ok.inj hs]
      rfl
  · obtain ⟨-, hrest, hmem⟩ := getRestCandidates_spec can_r_names [] hnodup
    generalize hresult : getRestCandidates can_r_names [] names = rest at hrest hmem
    have hsub : ∀ x ∈ rest.2, x ∈ names := fun x hx => ((hmem x).mp hx).1
    obtain ⟨a_m, regions, hrebuild, hmatrix⟩ := reconstructMatrix_spec hrest
      (fun x hx => hoccur x (hsub x hx)) s.a_m names
    refine ⟨rest.2, a_m, regions, ?_, hrest, hsub, fun hne => ?_⟩
    · rw [getCandidateRegions, hcollect, Outcome.ok_bind, if_neg hnone]
      simp only [hresult, hrebuild, Outcome.ok_bind]
    · have hfalse : ¬ rest.2.isEmpty = true := fun h => hne (List.isEmpty_iff.mp h)
      rw [reconstructMatrix, if_neg hfalse] at hrebuild
      obtain ⟨m, hgenerate, hm⟩ := Outcome.bind_eq_ok.mp hrebuild
      have hpair := Prod.mk.inj (Outcome.ok.inj hm)
      rw [beginSearch, hgenerate, ← hpair.1, ← hpair.2]
      rfl

/-- The tool reaches the search with candidates from the phase's subtree, and with the
mapping and the matrix that belong to them. -/
theorem detectRegion_spec (hgws : WholeSubtree get_whole_subtree)
    (filtered descends : t.Cnode → Bool) (phase_node : t.Cnode) :
    ∃ result, detectRegion get_whole_subtree filtered descends phase_node = .ok result ∧
      ∀ s can_cnodes, result = some (s, can_cnodes) →
        Candidates phase_node can_cnodes s.candidate_list ∧
        (s.candidate_list ≠ [] →
          beginSearch get_whole_subtree phase_node s.candidate_list = .ok s) := by
  rw [detectRegion]
  split_ifs with hleaf
  · exact ⟨none, rfl, fun _ _ h => absurd h (by simp)⟩
  · have hstart : (⟨[], [], []⟩ : Gathering t).Sound phase_node :=
      ⟨rfl, List.nodup_nil, by simp, by simp, by simp⟩
    have hsound := sound_traverseTree filtered descends phase_node _ hstart (.inl rfl)
    generalize traverseTree filtered descends phase_node ⟨[], [], []⟩ = g at hsound
    obtain ⟨hsame, hcandidates⟩ := hsound
    simp only
    split_ifs with hempty
    · exact ⟨none, rfl, fun _ _ h => absurd h (by simp)⟩
    · have hoccur : ∀ name ∈ g.sig_region_names,
          ∃ c, occurrence get_whole_subtree phase_node name = some c := fun name hname =>
        (hcandidates.occurs hgws hname).imp fun _ h => h.1
      obtain ⟨m, hgenerate, -⟩ := generateAdjacencyMatrix_spec hcandidates.nodup hoccur
      have hbegin : beginSearch get_whole_subtree phase_node g.sig_region_names =
          .ok ⟨g.sig_region_names, g.sig_region_names, m, []⟩ := by
        rw [beginSearch, hgenerate]
        rfl
      obtain ⟨candidates, a_m, regions, hrun, hnodup, hsub, hrest⟩ :=
        getCandidateRegions_spec hbegin hcandidates.nodup hoccur
      refine ⟨some (⟨candidates, regions, a_m, []⟩, g.sign_nodes), ?_, fun s cs hsome => ?_⟩
      · rw [hsame, hgenerate, Outcome.ok_bind]
        simp only [hrun, Outcome.ok_bind]
      · obtain ⟨hs, hcs⟩ := Prod.mk.inj (Option.some.inj hsome)
        exact hs ▸ hcs ▸ ⟨hcandidates.sublist hnodup hsub, hrest⟩

/-- A phase that calls `solve`, which calls `dot`, and `norm`. -/
def phaseTree : CallTree where
  size := 4
  callee := !["phase", "solve", "dot", "norm"]
  parent := ![none, some 0, some 1, some 0]
  parent_lt := by decide

theorem detectRegion_spec_phase :
    ∃ result, detectRegion phaseTree.descendants (fun _ => false) (fun _ => true)
      ⟨0, by decide⟩ = .ok result ∧
      ∀ s can_cnodes, result = some (s, can_cnodes) → "" ∉ s.candidate_list := by
  obtain ⟨result, hrun, hresult⟩ := detectRegion_spec (wholeSubtree_descendants phaseTree)
    (fun _ => false) (fun _ => true) ⟨0, by decide⟩
  exact ⟨result, hrun, fun s cs hsome => (hresult s cs hsome).1.nonempty⟩

end Driver
end ReadexPtf.CubeTools
