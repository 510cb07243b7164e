import ReadexPtf.CubeTools.SearchResults

/-! For which regions the influenced region is found: the call node that stands for a candidate
has a parent unless it is the phase and a root. -/
namespace ReadexPtf.CubeTools
open ReadexPtf Relation

variable {t : CallTree}

theorem Gathering.prefix_add (g : Gathering t) (call_node : t.Cnode) :
    g.sign_nodes <+: (g.add call_node).sign_nodes := by
  rw [Gathering.add]
  split_ifs
  · exact List.prefix_append _ _
  · exact List.prefix_rfl

/-- The nodes that were gathered before stay in front. -/
theorem prefix_foldl {α : Type} {f : Gathering t → α → Gathering t} {cs : List α}
    (hf : ∀ c ∈ cs, ∀ g, g.sign_nodes <+: (f g c).sign_nodes) (g : Gathering t) :
    g.sign_nodes <+: (cs.foldl f g).sign_nodes := by
  induction cs generalizing g with
  | nil => exact List.prefix_rfl
  | cons c cs ih =>
    rw [List.foldl_cons]
    have hrest := ih (fun d hd => hf d (List.mem_cons_of_mem c hd)) (f g c)
    exact (hf c List.mem_cons_self g).trans hrest

theorem prefix_traverseTree (filtered descends : t.Cnode → Bool) :
    ∀ (call_node : t.Cnode) (g : Gathering t),
      g.sign_nodes <+: (traverseTree filtered descends call_node g).sign_nodes := by
  intro call_node
  induction hn : t.size - call_node.val using Nat.strong_induction_on generalizing call_node with
  | _ n ih =>
    intro g
    rw [traverseTree]
    split_ifs
    · exact List.prefix_rfl
    · refine (g.prefix_add call_node).trans (prefix_foldl (fun c _ g => ?_) _)
      have hlt : call_node.val < c.1.val := lt_of_mem_children c.2
      exact ih _ (by omega) c.1 rfl g
    · exact g.prefix_add call_node

/-- The phase is gathered first, if anything is. -/
theorem getCnode_phase (filtered descends : t.Cnode → Bool) {phase_node : t.Cnode}
    (hname : t.callee phase_node ∈
      (traverseTree filtered descends phase_node ⟨[], [], []⟩).sig_region_names)
    (hnonempty : t.callee phase_node ≠ "") :
    getCnode (t.callee phase_node)
      (traverseTree filtered descends phase_node ⟨[], [], []⟩).sign_nodes = some phase_node := by
  have hkept : ¬ filtered phase_node = true := by
    intro hfiltered
    rw [traverseTree, if_pos hfiltered] at hname
    exact absurd hname List.not_mem_nil
  have hadd : ((⟨[], [], []⟩ : Gathering t).add phase_node).sign_nodes = [phase_node] := by
    rw [Gathering.add, if_pos ⟨hnonempty, List.not_mem_nil⟩]
    rfl
  have hprefix : [phase_node] <+:
      (traverseTree filtered descends phase_node ⟨[], [], []⟩).sign_nodes := by
    rw [traverseTree, if_neg hkept, ← hadd]
    dsimp only
    split_ifs
    · exact prefix_foldl (fun c _ g => prefix_traverseTree filtered descends c.1 g) _
    · exact List.prefix_rfl
  obtain ⟨nodes, hnodes⟩ := hprefix
  rw [← hnodes, getCnode, List.singleton_append, List.find?_cons_of_pos (by simp)]

section Influence
variable {V : Type} [Zero V] [Add V] [Sub V] [Mul V] [LT V] [DecidableLT V] (input : Cube t V)

theorem getInfluencedRegion_returns (phase_node callnode : t.Cnode) :
    (∃ region, getInfluencedRegion input phase_node (some callnode) = .ok region) ↔
      ∃ parent, t.parent callnode = some parent := by
  rw [getInfluencedRegion]
  cases t.parent callnode with
  | none => simp
  | some parent =>
    dsimp only
    split_ifs <;> simp

end Influence

theorem parent_of_below {p c : t.Cnode} (h : t.Below p c) : ∃ parent, t.parent c = some parent := by
  cases h with
  | single hparent => exact ⟨p, hparent⟩
  | tail _ hparent => exact ⟨_, hparent⟩

/-- The candidates of the tool are names that the traversal has gathered. -/
theorem detectRegion_gathered {get_whole_subtree : t.Cnode → List t.Cnode}
    {filtered descends : t.Cnode → Bool} {phase_node : t.Cnode} {s : Search}
    {can_cnodes : List t.Cnode}
    (h : detectRegion get_whole_subtree filtered descends phase_node = .ok (some (s, can_cnodes))) :
    let g := traverseTree filtered descends phase_node ⟨[], [], []⟩
    can_cnodes = g.sign_nodes ∧ ∀ name ∈ s.candidate_list, name ∈ g.sig_region_names := by
  have hstart : (⟨[], [], []⟩ : Gathering t).Sound phase_node :=
    ⟨rfl, List.nodup_nil, by simp, by simp, by simp⟩
  have hsound := sound_traverseTree filtered descends phase_node _ hstart (.inl rfl)
  rw [detectRegion] at h
  dsimp only at h
  have hfound : ¬ (some (s, can_cnodes) = (none : Option (Search × List t.Cnode))) := by simp
  split_ifs at h
  · exact absurd (Outcome.ok.inj h).symm hfound
  · exact absurd (Outcome.ok.inj h).symm hfound
  obtain ⟨a_m, _, h⟩ := Outcome.bind_eq_ok.mp h
  obtain ⟨⟨candidate_list, a_m', regions⟩, hcandidates, h⟩ := Outcome.bind_eq_ok.mp h
  cases h
  refine ⟨rfl, fun name hname => ?_⟩
  obtain ⟨names, _, hcandidates⟩ := Outcome.bind_eq_ok.mp hcandidates
  split_ifs at hcandidates
  · cases hcandidates
    exact hname
  · obtain ⟨⟨matrix, mapping⟩, _, hcandidates⟩ := Outcome.bind_eq_ok.mp hcandidates
    cases hcandidates
    exact (((getRestCandidates_spec names [] hsound.2.nodup).2.2 name).mp hname).1

/-- The parent of a call node is read unchecked. The tool asks for a node without one exactly
where its phase is a root and a candidate. -/
theorem getInfluencedRegion_returns_iff {V : Type} [Zero V] [Add V] [Sub V] [Mul V] [LT V]
    [DecidableLT V] (input : Cube t V) (get_whole_subtree : t.Cnode → List t.Cnode)
    (filtered descends : t.Cnode → Bool) (phase_node : t.Cnode) :
    (∀ callnode, (∃ region, getInfluencedRegion input phase_node (some callnode) = .ok region) ↔
      ∃ parent, t.parent callnode = some parent) ∧
    ∀ s can_cnodes, detectRegion get_whole_subtree filtered descends phase_node =
        .ok (some (s, can_cnodes)) →
      ∀ name ∈ s.candidate_list,
        (∃ region, getInfluencedRegion input phase_node (getCnode name can_cnodes) =
          .ok region) ↔
        (name = t.callee phase_node → ∃ parent, t.parent phase_node = some parent) := by
  have hreturns := getInfluencedRegion_returns input phase_node
  refine ⟨hreturns, fun s can_cnodes hrun name hname => ?_⟩
  have hgathered := detectRegion_gathered hrun
  have hmem := hgathered.2 name hname
  have hstart : (⟨[], [], []⟩ : Gathering t).Sound phase_node :=
    ⟨rfl, List.nodup_nil, by simp, by simp, by simp⟩
  have hcandidates :=
    (sound_traverseTree filtered descends phase_node _ hstart (.inl rfl)).2
  rw [hgathered.1]
  by_cases hphase : name = t.callee phase_node
  · subst hphase
    have hnonempty : t.callee phase_node ≠ "" := fun hempty =>
      hcandidates.nonempty (hempty ▸ hmem)
    rw [getCnode_phase filtered descends hmem hnonempty, hreturns]
    exact ⟨fun h _ => h, fun h => h rfl⟩
  · obtain ⟨c, hc, hcallee⟩ := hcandidates.exists_getCnode hmem
    have hbelow := (hcandidates.below c (callee_getCnode hc).1).resolve_left fun hsame =>
      hphase (hcallee ▸ hsame ▸ rfl)
    rw [hc, hreturns]
    exact iff_of_true (parent_of_below hbelow) fun hsame => absurd hsame hphase

/-- A main function that is the phase, and calls another one. -/
abbrev mainPhase : CallTree where
  size := 2
  callee := !["main", "foo"]
  parent := ![none, some 0]
  parent_lt := by decide

/-- The main function is the only candidate, and has no caller. -/
theorem not_getInfluencedRegion_returns :
    ¬ ∀ (t : CallTree) (input : Cube t ℤ) (filtered descends : t.Cnode → Bool)
      (phase_node : t.Cnode) (s : Search) (can_cnodes : List t.Cnode),
      detectRegion t.descendants filtered descends phase_node = .ok (some (s, can_cnodes)) →
      ∀ name ∈ s.candidate_list,
        ∃ region, getInfluencedRegion input phase_node (getCnode name can_cnodes) =
          .ok region := by
  intro h
  have hgathered : traverseTree (t := mainPhase) (fun c => c ≠ 0) (fun _ => true) 0
      ⟨[], [], []⟩ = ⟨["main"], ["main"], [0]⟩ := by
    have hchildren : CallTree.children mainPhase 0 = [1] := by decide
    have hfoo : ∀ g, traverseTree (t := mainPhase) (fun c => c ≠ 0) (fun _ => true) 1 g = g := by
      intro g
      rw [traverseTree, if_pos (by decide)]
    rw [traverseTree, if_neg (by decide)]
    dsimp only
    rw [if_pos rfl]
    refine List.foldl_fixed' (fun c => ?_) _
    have hc : c.1 = 1 := List.mem_singleton.mp (hchildren ▸ c.2)
    rw [hc]
    exact hfoo _
  have hrun : ∃ s, detectRegion mainPhase.descendants (fun c => c ≠ 0) (fun _ => true) 0 =
      .ok (some (s, [0])) ∧ s.candidate_list = ["main"] := by
    unfold detectRegion
    rw [hgathered]
    exact ⟨_, rfl, rfl⟩
  obtain ⟨s, hs, hlist⟩ := hrun
  obtain ⟨region, hregion⟩ := h mainPhase (zeroCube mainPhase) _ _ 0 s _ hs "main" (by simp [hlist])
  cases hregion

end ReadexPtf.CubeTools
