import ReadexPtf.CubeTools.AdjacencyMatrix

/-! The search for significant regions: each pass of its loop evaluates the candidates
that call no other and takes them, and what leads to a significant one, off the list. -/
namespace ReadexPtf.CubeTools
open ReadexPtf Relation Peeling

/-- The variables of `getSignificantRegions` that the loop carries on. -/
structure Search where
  candidate_list : List String
  can_region_mapping : Regions
  a_m : Matrix
  sig_r_names : List String

/-- The variables of one pass. -/
structure Scan where
  parent_names : List String
  non_sig_list : List String
  sig_r_names : List String

section Tree
variable {t : CallTree} (get_whole_subtree : t.Cnode → List t.Cnode)

section Influence
variable {V : Type} [Zero V] [Add V] [Sub V] [Mul V] [LT V] [DecidableLT V] (input : Cube t V)

def computeExclusiveValueOfParent (parent : t.Cnode) : V :=
  input.tauSum parent -
    (t.children parent).foldl (fun t_cnodes cnode => t_cnodes + input.tauSum cnode) 0

/-- The name of the call node if its time is significant beside its parent's, else the
empty name. The parent is read unchecked. -/
def getInfluencedRegion (phasenode : t.Cnode) (callnode : Option t.Cnode) : Outcome String :=
  match callnode with
  | none => .undefined
  | some c =>
    match t.parent c with
    | none => .undefined
    | some parent =>
      if parent = phasenode then .ok (t.callee c)
      else
        let (time_call, time_parent) :=
          if input.tauAtomic c then
            (input.tauN c * input.tauAvg c, computeExclusiveValueOfParent input parent)
          else (input.inclusive c, input.exclusive parent)
        if time_parent < time_call then .ok (t.callee c) else .ok ""

/-- `influenced` is `getInfluencedRegion` of the call node of a name. -/
theorem getInfluencedRegion_cases (phasenode c : t.Cnode) :
    getInfluencedRegion input phasenode (some c) = .ok (t.callee c) ∨
    getInfluencedRegion input phasenode (some c) = .ok "" ∨
    getInfluencedRegion input phasenode (some c) = .undefined ∧ t.parent c = none := by
  simp only [getInfluencedRegion]
  cases hparent : t.parent c with
  | none => exact .inr (.inr ⟨rfl, rfl⟩)
  | some parent =>
    simp only
    split_ifs
    all_goals simp

end Influence

/-- `reconstructMatrix`, which leaves matrix and mapping alone when no candidate remains. -/
def reconstructMatrix (a_m : Matrix) (phase_node : t.Cnode) (candidateNodes : List String)
    (list_cnames : Regions) : Outcome (Matrix × Regions) :=
  if candidateNodes.isEmpty then .ok (a_m, list_cnames)
  else do
    let a_m ← generateAdjacencyMatrix get_whole_subtree candidateNodes.length phase_node
      candidateNodes
    .ok (a_m, candidateNodes)

/-- Takes the regions of strongly connected components of two regions or more off the
candidates. -/
def getCandidateRegions (phase_node : t.Cnode) (a_m : Matrix) (can_sig_regions : Regions)
    (candidate_list : List String) : Outcome (List String × Matrix × Regions) := do
  let size := can_sig_regions.length
  let can_r_names ← (List.range size).foldlM (fun names i =>
    (List.range size).foldlM (fun names j =>
      if i ≠ j ∧ a_m i j ∧ a_m j i then do
        let name_i ← getRegionName i can_sig_regions
        let name_j ← getRegionName j can_sig_regions
        let names := if names.isEmpty then [name_i, name_j] else names
        let names := if name_i ∈ names then names else names ++ [name_i]
        .ok (if name_j ∈ names then names else names ++ [name_j])
      else .ok names) names) []
  if can_r_names.isEmpty then .ok (candidate_list, a_m, can_sig_regions)
  else do
    let (_, candidate_list) := getRestCandidates can_r_names [] candidate_list
    let (a_m, can_sig_regions) ←
      reconstructMatrix get_whole_subtree a_m phase_node candidate_list can_sig_regions
    .ok (candidate_list, a_m, can_sig_regions)

section Search
variable (influenced : Option t.Cnode → Outcome String) (can_cnodes : List t.Cnode)

/-- One round of the loop over the regions: only a region without a mark in its row is
looked at. -/
def visit (can_region_mapping : Regions) (a_m : Matrix) (s : Scan) (i : Nat) : Outcome Scan := do
  let size := can_region_mapping.length
  let name ← getRegionName i can_region_mapping
  if (List.range size).any (fun j => a_m i j) then .ok s
  else do
    let modified_name ← influenced (getCnode name can_cnodes)
    if modified_name = "" then .ok { s with non_sig_list := s.non_sig_list ++ [name] }
    else
      let sig_r_names := if s.sig_r_names.isEmpty then [modified_name] else s.sig_r_names
      let non_sig_list := if name ≠ modified_name then s.non_sig_list ++ [name] else s.non_sig_list
      match getIndex modified_name can_region_mapping with
      | none => .undefined
      | some i_i => do
        let rem_r_names ← getParentRegName i_i size a_m can_region_mapping s.parent_names
        .ok {
          parent_names := s.parent_names ++ rem_r_names
          non_sig_list
          sig_r_names :=
            if modified_name ∈ sig_r_names then sig_r_names else sig_r_names ++ [modified_name] }

/-- One pass of the `while` loop. -/
def pass (phase_node : t.Cnode) (s : Search) : Outcome Search := do
  let scan ← (List.range s.can_region_mapping.length).foldlM
    (visit influenced can_cnodes s.can_region_mapping s.a_m) ⟨[], [], s.sig_r_names⟩
  let (sig_r_names, candidate_list) := getRestCandidates scan.sig_r_names
    (scan.parent_names ++ scan.non_sig_list) s.candidate_list
  let (a_m, can_region_mapping) ← reconstructMatrix get_whole_subtree s.a_m phase_node
    candidate_list s.can_region_mapping
  .ok { candidate_list, can_region_mapping, a_m, sig_r_names }

/-- The loop, `none` while `fuel` passes are not enough. -/
def getSignificantRegions (phase_node : t.Cnode) : Nat → Search → Option (Outcome Search)
  | fuel, s =>
    if s.candidate_list.isEmpty then some (.ok s)
    else
      match fuel with
      | 0 => none
      | fuel + 1 =>
        match pass get_whole_subtree influenced can_cnodes phase_node s with
        | .ok s' => getSignificantRegions phase_node fuel s'
        | .throws message => some (.throws message)
        | .aborts => some .aborts
        | .undefined => some .undefined

/-- The search over candidates whose mapping and matrix were built from them. -/
def beginSearch (phase_node : t.Cnode) (candidate_list : List String) : Outcome Search := do
  let a_m ← generateAdjacencyMatrix get_whole_subtree candidate_list.length phase_node
    candidate_list
  .ok ⟨candidate_list, candidate_list, a_m, []⟩

/-- The states that passes lead to. -/
inductive Reached (phase_node : t.Cnode) (s : Search) : Search → Prop where
  | refl : Reached phase_node s s
  | pass {s' s'' : Search} : Reached phase_node s s' → s'.candidate_list ≠ [] →
      pass get_whole_subtree influenced can_cnodes phase_node s' = .ok s'' →
      Reached phase_node s s''

/-- The search over the candidates returns the regions `sig`. -/
def Returned (phase_node : t.Cnode) (candidate_list sig : List String) : Prop :=
  ∃ s, beginSearch get_whole_subtree phase_node candidate_list = .ok s ∧
    ∃ fuel s', getSignificantRegions get_whole_subtree influenced can_cnodes phase_node fuel s =
      some (.ok s') ∧ s'.sig_r_names = sig

/-- The search returns, and each of its passes shrinks the candidate list. -/
def Terminates (phase_node : t.Cnode) (candidate_list : List String) : Prop :=
  ∃ s, beginSearch get_whole_subtree phase_node candidate_list = .ok s ∧
    (∃ fuel s', getSignificantRegions get_whole_subtree influenced can_cnodes phase_node fuel s =
      some (.ok s')) ∧
    ∀ s', Reached get_whole_subtree influenced can_cnodes phase_node s s' →
      s'.candidate_list ≠ [] →
      ∃ s'', pass get_whole_subtree influenced can_cnodes phase_node s' = .ok s'' ∧
        s''.candidate_list.length < s'.candidate_list.length

variable {get_whole_subtree influenced can_cnodes} in
theorem Terminates.returned {phase_node : t.Cnode} {candidate_list : List String}
    (h : Terminates get_whole_subtree influenced can_cnodes phase_node candidate_list) :
    ∃ sig, Returned get_whole_subtree influenced can_cnodes phase_node candidate_list sig := by
  obtain ⟨s, hbegin, ⟨fuel, s', hrun⟩, -⟩ := h
  exact ⟨s'.sig_r_names, s, hbegin, fuel, s', hrun, rfl⟩

end Search
end Tree
section Spec
variable {t : CallTree} {get_whole_subtree : t.Cnode → List t.Cnode} {phase_node : t.Cnode}
variable {influenced : Option t.Cnode → Outcome String} {can_cnodes : List t.Cnode}

/-- The call node of the name is significant beside its parent. -/
def Passes (influenced : Option t.Cnode → Outcome String) (can_cnodes : List t.Cnode)
    (name : String) : Prop :=
  influenced (getCnode name can_cnodes) = .ok name

/-- The names are evaluated to themselves, to nothing, or not at all. -/
def Evaluates (influenced : Option t.Cnode → Outcome String) (can_cnodes : List t.Cnode)
    (names : List String) : Prop :=
  ∀ name ∈ names, name ≠ "" ∧ (Passes influenced can_cnodes name ∨
    influenced (getCnode name can_cnodes) = .ok "" ∨
    influenced (getCnode name can_cnodes) = .undefined)

/-- The matrix holds the routes among distinct regions. -/
structure MatrixOf (R : String → String → Prop) (regions : Regions) (a_m : Matrix) : Prop where
  nodup : regions.Nodup
  entry : ∀ i j, a_m i j = true ↔ ∃ a b, regions[i]? = some a ∧ regions[j]? = some b ∧
    Within R regions.toFinset a b

theorem MatrixOf.leaf_iff {R : String → String → Prop} {regions : Regions} {a_m : Matrix}
    (h : MatrixOf R regions a_m) {i : Nat} {name : String} (hi : regions[i]? = some name) :
    (List.range regions.length).any (fun j => a_m i j) = false ↔
      Leaf R regions.toFinset name := by
  have hname : name ∈ regions.toFinset := List.mem_toFinset.mpr (List.mem_of_getElem? hi)
  rw [List.any_eq_false]
  constructor
  · refine fun hrow => ⟨hname, fun c hc hedge => ?_⟩
    obtain ⟨j, hj⟩ := List.mem_iff_getElem?.mp (List.mem_toFinset.mp hc)
    have hlt := (List.getElem?_eq_some_iff.mp hj).1
    exact hrow j (List.mem_range.mpr hlt)
      ((h.entry i j).mpr ⟨name, c, hi, hj, .single ⟨hedge, hname, hc⟩⟩)
  · intro hleaf j _ hmark
    obtain ⟨a, b, ha, -, hwithin⟩ := (h.entry i j).mp hmark
    have heq : a = name := Option.some.inj (ha.symm.trans hi)
    obtain ⟨c, hedge, -⟩ := TransGen.head'_iff.mp hwithin
    exact hleaf.2 c hedge.2.2 (heq ▸ hedge.1)

theorem getRegionName_eq {regions : Regions} {i : Nat} {name : String}
    (hi : regions[i]? = some name) : getRegionName i regions = .ok name := by
  simp [getRegionName, Outcome.elementAt, hi]

/-- The parents found are the regions with a route to the leaf, less those known already. -/
theorem getParentRegName_spec {R : String → String → Prop} {regions : Regions} {a_m : Matrix}
    (h : MatrixOf R regions a_m) {i : Nat} {name : String} (hi : regions[i]? = some name)
    (parent_names : List String) :
    ∃ rem, getParentRegName i regions.length a_m regions parent_names = .ok rem ∧
      ∀ x, x ∈ parent_names ∨ x ∈ rem ↔ x ∈ parent_names ∨ Within R regions.toFinset x name := by
  have hfold : ∀ (is : List Nat), (∀ k ∈ is, k < regions.length) → ∀ acc,
      ∃ rem, is.foldlM (fun p_names src =>
          if a_m src i then do
            let name ← getRegionName src regions
            .ok (if name ∈ parent_names then p_names else p_names ++ [name])
          else .ok p_names) acc = .ok rem ∧
        ∀ x, x ∈ parent_names ∨ x ∈ rem ↔ x ∈ parent_names ∨ x ∈ acc ∨
          ∃ k ∈ is, regions[k]? = some x ∧ a_m k i = true := by
    intro is
    induction is with
    | nil => exact fun _ acc => ⟨acc, rfl, by simp⟩
    | cons k is ih =>
      intro his acc
      obtain ⟨hk, his⟩ := List.forall_mem_cons.mp his
      by_cases hmark : a_m k i = true
      · obtain ⟨rem, hrun, hrem⟩ := ih his
          (if regions[k] ∈ parent_names then acc else acc ++ [regions[k]])
        have hkname : regions[k]? = some regions[k] := List.getElem?_eq_getElem hk
        refine ⟨rem, ?_, fun x => ?_⟩
        · rw [List.foldlM_cons, if_pos hmark, getRegionName_eq hkname]
          exact hrun
        · have hself : some regions[k] = some x ↔ x = regions[k] := by
            rw [Option.some.injEq, eq_comm]
          rw [hrem]
          simp only [List.mem_cons, exists_eq_or_imp, hkname, hself, hmark, and_true]
          by_cases hin : regions[k] ∈ parent_names
          · by_cases hx : x = regions[k]
            · simp [hx, hin]
            · simp [hx, hin]
          · simp only [if_neg hin, List.mem_append, List.mem_singleton, or_assoc]
      · obtain ⟨rem, hrun, hrem⟩ := ih his acc
        refine ⟨rem, ?_, fun x => ?_⟩
        · rw [List.foldlM_cons, if_neg hmark]
          exact hrun
        · rw [hrem]
          simp [hmark]
  obtain ⟨rem, hrun, hrem⟩ := hfold (List.range regions.length) (by simp) []
  refine ⟨rem, hrun, fun x => ?_⟩
  rw [hrem]
  refine or_congr_right ?_
  simp only [List.not_mem_nil, false_or, List.mem_range, h.entry]
  constructor
  · intro ⟨k, _, hk, a, b, ha, hb, hwithin⟩
    have hax : a = x := Option.some.inj (ha.symm.trans hk)
    have hbn : b = name := Option.some.inj (hb.symm.trans hi)
    exact hax ▸ hbn ▸ hwithin
  · intro hwithin
    obtain ⟨c, hedge, -⟩ := TransGen.head'_iff.mp hwithin
    obtain ⟨k, hk⟩ := List.mem_iff_getElem?.mp (List.mem_toFinset.mp hedge.2.1)
    exact ⟨k, (List.getElem?_eq_some_iff.mp hk).1, hk, x, name, hk, hi, hwithin⟩

/-- What a pass collects from the regions of the indices `is`. -/
structure Scanned (R : String → String → Prop) (Keep : String → Prop) (regions : Regions)
    (is : List Nat) (s s' : Scan) : Prop where
  parent : ∀ x, x ∈ s'.parent_names ↔ x ∈ s.parent_names ∨ ∃ i ∈ is, ∃ b, regions[i]? = some b ∧
    Leaf R regions.toFinset b ∧ Keep b ∧ Within R regions.toFinset x b
  non_sig : ∀ x, x ∈ s'.non_sig_list ↔ x ∈ s.non_sig_list ∨ ∃ i ∈ is, regions[i]? = some x ∧
    Leaf R regions.toFinset x ∧ ¬ Keep x
  sig : ∀ x, x ∈ s'.sig_r_names ↔ x ∈ s.sig_r_names ∨ ∃ i ∈ is, regions[i]? = some x ∧
    Leaf R regions.toFinset x ∧ Keep x

theorem Scanned.nil (R : String → String → Prop) (Keep : String → Prop) (regions : Regions)
    (s : Scan) : Scanned R Keep regions [] s s :=
  ⟨by simp, by simp, by simp⟩

theorem Scanned.cons {R : String → String → Prop} {Keep : String → Prop} {regions : Regions}
    {i : Nat} {is : List Nat} {s s' s'' : Scan} (h : Scanned R Keep regions [i] s s')
    (h' : Scanned R Keep regions is s' s'') : Scanned R Keep regions (i :: is) s s'' where
  parent := fun x => by rw [h'.parent, h.parent]; simp [or_assoc]
  non_sig := fun x => by rw [h'.non_sig, h.non_sig]; simp [or_assoc]
  sig := fun x => by rw [h'.sig, h.sig]; simp [or_assoc]

/-- The order in which a significant name is added does not matter. -/
theorem mem_added {name x : String} (names : List String) :
    x ∈ (if name ∈ (if names.isEmpty then [name] else names) then
        (if names.isEmpty then [name] else names)
      else (if names.isEmpty then [name] else names) ++ [name]) ↔ x ∈ names ∨ x = name := by
  cases names with
  | nil => simp
  | cons y names =>
    simp only [List.isEmpty_cons, Bool.false_eq_true, if_false]
    split_ifs with hmem
    · refine ⟨.inl, fun h => ?_⟩
      cases h with
      | inl hx => exact hx
      | inr heq => exact heq ▸ hmem
    · rw [List.mem_append, List.mem_singleton]

section Visit
variable {R : String → String → Prop} {regions : Regions} {a_m : Matrix} {i : Nat} {name : String}

theorem visit_of_not_leaf (h : MatrixOf R regions a_m) (hi : regions[i]? = some name)
    (hleaf : ¬ Leaf R regions.toFinset name) (s : Scan) :
    visit influenced can_cnodes regions a_m s i = .ok s := by
  have hrow : (List.range regions.length).any (fun j => a_m i j) = true := by
    by_contra hnot
    exact hleaf ((h.leaf_iff hi).mp (Bool.eq_false_of_not_eq_true hnot))
  rw [visit, getRegionName_eq hi, Outcome.ok_bind, if_pos hrow]

theorem visit_of_undefined (h : MatrixOf R regions a_m) (hi : regions[i]? = some name)
    (hleaf : Leaf R regions.toFinset name)
    (hinfluenced : influenced (getCnode name can_cnodes) = .undefined) (s : Scan) :
    visit influenced can_cnodes regions a_m s i = .undefined := by
  have hrow := (h.leaf_iff hi).mpr hleaf
  rw [visit, getRegionName_eq hi, Outcome.ok_bind, hrow, hinfluenced]
  rfl

theorem visit_of_insignificant (h : MatrixOf R regions a_m) (hi : regions[i]? = some name)
    (hleaf : Leaf R regions.toFinset name)
    (hinfluenced : influenced (getCnode name can_cnodes) = .ok "") (s : Scan) :
    visit influenced can_cnodes regions a_m s i =
      .ok { s with non_sig_list := s.non_sig_list ++ [name] } := by
  have hrow := (h.leaf_iff hi).mpr hleaf
  rw [visit, getRegionName_eq hi, Outcome.ok_bind, hrow, hinfluenced]
  rfl

theorem visit_of_passes (h : MatrixOf R regions a_m) (hi : regions[i]? = some name)
    (hleaf : Leaf R regions.toFinset name) (hname : name ≠ "")
    (hpasses : Passes influenced can_cnodes name) (s : Scan) :
    ∃ parent_names sig_r_names, visit influenced can_cnodes regions a_m s i =
        .ok { s with parent_names, sig_r_names } ∧
      (∀ x, x ∈ parent_names ↔ x ∈ s.parent_names ∨ Within R regions.toFinset x name) ∧
      ∀ x, x ∈ sig_r_names ↔ x ∈ s.sig_r_names ∨ x = name := by
  have hrow := (h.leaf_iff hi).mpr hleaf
  have hinfluenced : influenced (getCnode name can_cnodes) = .ok name := hpasses
  obtain ⟨rem, hparents, hrem⟩ := getParentRegName_spec h hi s.parent_names
  refine ⟨s.parent_names ++ rem, _, ?_, fun x => by rw [List.mem_append, hrem],
    fun x => mem_added s.sig_r_names⟩
  rw [visit, getRegionName_eq hi, Outcome.ok_bind, hrow, hinfluenced, Outcome.ok_bind]
  simp only [Bool.false_eq_true, if_false, hname, ne_eq, not_true_eq_false,
    (getIndex_eq_some h.nodup).mpr hi, hparents, Outcome.ok_bind]

/-- One round of the loop over the regions. -/
theorem visit_spec (h : MatrixOf R regions a_m) (heval : Evaluates influenced can_cnodes regions)
    (hi : regions[i]? = some name)
    (hdefined : Leaf R regions.toFinset name →
      influenced (getCnode name can_cnodes) ≠ .undefined) (s : Scan) :
    ∃ s', visit influenced can_cnodes regions a_m s i = .ok s' ∧
      Scanned R (Passes influenced can_cnodes) regions [i] s s' := by
  have honly : ∀ x, some name = some x ↔ x = name := fun x => by rw [Option.some.injEq, eq_comm]
  by_cases hleaf : Leaf R regions.toFinset name
  · obtain ⟨hne, hcases⟩ := heval name (List.mem_of_getElem? hi)
    by_cases hpasses : Passes influenced can_cnodes name
    · obtain ⟨parents, sig, hvisit, hparents, hsig⟩ := visit_of_passes h hi hleaf hne hpasses s
      refine ⟨_, hvisit, fun x => ?_, fun x => ?_, fun x => ?_⟩
      · simp [hparents, hi, hleaf, hpasses]
      · by_cases hx : x = name <;> simp [hi, honly, hx, hpasses]
      · by_cases hx : x = name <;> simp [hsig, hi, honly, hx, hleaf, hpasses]
    · have hempty : influenced (getCnode name can_cnodes) = .ok "" :=
        (hcases.resolve_left hpasses).resolve_right (hdefined hleaf)
      refine ⟨_, visit_of_insignificant h hi hleaf hempty s, fun x => ?_, fun x => ?_, fun x => ?_⟩
      · simp [hi, hpasses]
      · by_cases hx : x = name <;> simp [hi, honly, hx, hleaf, hpasses]
      · by_cases hx : x = name <;> simp [hi, honly, hx, hpasses]
  · refine ⟨s, visit_of_not_leaf h hi hleaf s, fun x => ?_, fun x => ?_, fun x => ?_⟩
    · simp [hi, hleaf]
    · by_cases hx : x = name <;> simp [hi, honly, hx, hleaf]
    · by_cases hx : x = name <;> simp [hi, honly, hx, hleaf]

end Visit

/-- The whole loop over the regions, if every leaf can be evaluated. -/
theorem scan_spec {R : String → String → Prop} {regions : Regions} {a_m : Matrix}
    (h : MatrixOf R regions a_m) (heval : Evaluates influenced can_cnodes regions)
    (hdefined : ∀ b, Leaf R regions.toFinset b →
      influenced (getCnode b can_cnodes) ≠ .undefined) :
    ∀ (is : List Nat), (∀ i ∈ is, i < regions.length) → ∀ s,
      ∃ s', is.foldlM (visit influenced can_cnodes regions a_m) s = .ok s' ∧
        Scanned R (Passes influenced can_cnodes) regions is s s' := by
  intro is
  induction is with
  | nil => exact fun _ s => ⟨s, rfl, .nil _ _ _ s⟩
  | cons i is ih =>
    intro his s
    obtain ⟨hi, his⟩ := List.forall_mem_cons.mp his
    obtain ⟨s', hvisit, hs'⟩ := visit_spec h heval (List.getElem?_eq_getElem hi) (hdefined _) s
    obtain ⟨s'', hrest, hs''⟩ := ih his s'
    exact ⟨s'', by rw [List.foldlM_cons, hvisit, Outcome.ok_bind, hrest], hs'.cons hs''⟩

/-- A leaf that cannot be evaluated ends the loop over the regions. -/
theorem scan_undefined {R : String → String → Prop} {regions : Regions} {a_m : Matrix}
    (h : MatrixOf R regions a_m) (heval : Evaluates influenced can_cnodes regions) :
    ∀ (is : List Nat), (∀ i ∈ is, i < regions.length) →
      (∃ i ∈ is, ∃ b, regions[i]? = some b ∧ Leaf R regions.toFinset b ∧
        influenced (getCnode b can_cnodes) = .undefined) →
      ∀ s, is.foldlM (visit influenced can_cnodes regions a_m) s = .undefined := by
  intro is
  induction is with
  | nil => exact fun _ hfault => absurd hfault (by simp)
  | cons i is ih =>
    intro his hfault s
    obtain ⟨hi, his⟩ := List.forall_mem_cons.mp his
    have hname : regions[i]? = some regions[i] := List.getElem?_eq_getElem hi
    by_cases hhead : Leaf R regions.toFinset regions[i] ∧
        influenced (getCnode regions[i] can_cnodes) = .undefined
    · rw [List.foldlM_cons, visit_of_undefined h hname hhead.1 hhead.2]
      rfl
    · obtain ⟨s', hvisit, -⟩ := visit_spec h heval hname (fun hl hu => hhead ⟨hl, hu⟩) s
      rw [List.foldlM_cons, hvisit, Outcome.ok_bind]
      refine ih his ?_ s'
      obtain ⟨j, hj, b, hb, hfaulty⟩ := hfault
      cases List.mem_cons.mp hj with
      | inl hself =>
        have heq : regions[i] = b := Option.some.inj (hname.symm.trans (hself ▸ hb))
        exact absurd (heq ▸ hfaulty) hhead
      | inr hrest => exact ⟨j, hrest, b, hb, hfaulty⟩

/-- What the callers promise about the candidates: distinct non-empty names that occur in
the phase's subtree, each evaluated to its own name, to nothing or not at all. -/
structure Gathered (get_whole_subtree : t.Cnode → List t.Cnode) (phase_node : t.Cnode)
    (influenced : Option t.Cnode → Outcome String) (can_cnodes : List t.Cnode)
    (names : List String) : Prop where
  nodup : names.Nodup
  occurs : ∀ name ∈ names, ∃ c, occurrence get_whole_subtree phase_node name = some c
  evaluates : Evaluates influenced can_cnodes names

/-- The edges among the candidates the search began with. -/
abbrev Edge (get_whole_subtree : t.Cnode → List t.Cnode) (phase_node : t.Cnode)
    (names : List String) : String → String → Prop :=
  Among (Calls get_whole_subtree phase_node) names.toFinset

/-- The state between two passes. -/
structure Progress (get_whole_subtree : t.Cnode → List t.Cnode) (phase_node : t.Cnode)
    (influenced : Option t.Cnode → Outcome String) (can_cnodes : List t.Cnode)
    (names : List String) (s : Search) : Prop where
  nodup : s.candidate_list.Nodup
  matrix : s.candidate_list ≠ [] → s.can_region_mapping = s.candidate_list ∧
    MatrixOf (Calls get_whole_subtree phase_node) s.candidate_list s.a_m
  remaining : Remaining (Edge get_whole_subtree phase_node names) (Passes influenced can_cnodes)
    names.toFinset s.candidate_list.toFinset
  sig : ∀ x, x ∈ s.sig_r_names ↔ x ∈ names ∧ x ∉ s.candidate_list ∧
    Quiet (Edge get_whole_subtree phase_node names) (Passes influenced can_cnodes) x ∧
    Passes influenced can_cnodes x
  defined : ∀ x ∈ names, x ∉ s.candidate_list →
    Quiet (Edge get_whole_subtree phase_node names) (Passes influenced can_cnodes) x →
    influenced (getCnode x can_cnodes) ≠ .undefined

theorem Progress.subset {names : List String} {s : Search}
    (h : Progress get_whole_subtree phase_node influenced can_cnodes names s) {x : String}
    (hx : x ∈ s.candidate_list) : x ∈ names :=
  List.mem_toFinset.mp (h.remaining.subset (List.mem_toFinset.mpr hx))

theorem Progress.evaluates {names : List String} {s : Search}
    (h : Progress get_whole_subtree phase_node influenced can_cnodes names s)
    (hnames : Gathered get_whole_subtree phase_node influenced can_cnodes names) :
    Evaluates influenced can_cnodes s.candidate_list :=
  fun x hx => hnames.evaluates x (h.subset hx)

/-- Scanning all regions collects by name: the indices do not matter. -/
theorem Scanned.by_name {R : String → String → Prop} {Keep : String → Prop} {regions : Regions}
    {s s' : Scan} (h : Scanned R Keep regions (List.range regions.length) s s') :
    (∀ x, x ∈ s'.parent_names ↔ x ∈ s.parent_names ∨ ∃ b, Leaf R regions.toFinset b ∧ Keep b ∧
      Within R regions.toFinset x b) ∧
    (∀ x, x ∈ s'.non_sig_list ↔ x ∈ s.non_sig_list ∨ Leaf R regions.toFinset x ∧ ¬ Keep x) ∧
    ∀ x, x ∈ s'.sig_r_names ↔ x ∈ s.sig_r_names ∨ Leaf R regions.toFinset x ∧ Keep x := by
  have hindex : ∀ {x}, Leaf R regions.toFinset x →
      ∃ i ∈ List.range regions.length, regions[i]? = some x := by
    intro x hleaf
    obtain ⟨i, hi⟩ := List.mem_iff_getElem?.mp (List.mem_toFinset.mp hleaf.1)
    exact ⟨i, List.mem_range.mpr (List.getElem?_eq_some_iff.mp hi).1, hi⟩
  refine ⟨fun x => (h.parent x).trans (or_congr_right ?_),
    fun x => (h.non_sig x).trans (or_congr_right ?_), fun x => (h.sig x).trans (or_congr_right ?_)⟩
  · refine ⟨fun ⟨_, _, b, _, hb⟩ => ⟨b, hb⟩, fun ⟨b, hb⟩ => ?_⟩
    obtain ⟨i, hi, hib⟩ := hindex hb.1
    exact ⟨i, hi, b, hib, hb⟩
  · refine ⟨fun ⟨_, _, _, hx⟩ => hx, fun hx => ?_⟩
    obtain ⟨i, hi, hix⟩ := hindex hx.1
    exact ⟨i, hi, hix, hx⟩
  · refine ⟨fun ⟨_, _, _, hx⟩ => hx, fun hx => ?_⟩
    obtain ⟨i, hi, hix⟩ := hindex hx.1
    exact ⟨i, hi, hix, hx⟩

/-- Rebuilding the matrix gives that of the remaining candidates, if there are any. -/
theorem reconstructMatrix_spec {candidates : List String} (hnodup : candidates.Nodup)
    (hoccur : ∀ name ∈ candidates, ∃ c, occurrence get_whole_subtree phase_node name = some c)
    (a_m : Matrix) (regions : Regions) :
    ∃ a_m' regions', reconstructMatrix get_whole_subtree a_m phase_node candidates regions =
        .ok (a_m', regions') ∧
      (candidates ≠ [] → regions' = candidates ∧
        MatrixOf (Calls get_whole_subtree phase_node) candidates a_m') := by
  cases candidates with
  | nil => exact ⟨a_m, regions, rfl, fun hne => absurd rfl hne⟩
  | cons name names =>
    obtain ⟨m, hgenerate, hm⟩ := generateAdjacencyMatrix_spec hnodup hoccur
    refine ⟨m, name :: names, ?_, fun _ => ⟨rfl, hnodup, hm⟩⟩
    rw [reconstructMatrix, hgenerate]
    rfl

/-- A pass over candidates whose leaves can be evaluated is one round of peeling. -/
theorem pass_spec {names : List String} {s : Search}
    (hnames : Gathered get_whole_subtree phase_node influenced can_cnodes names)
    (h : Progress get_whole_subtree phase_node influenced can_cnodes names s)
    (hne : s.candidate_list ≠ [])
    (hdefined : ∀ b, Leaf (Calls get_whole_subtree phase_node) s.candidate_list.toFinset b →
      influenced (getCnode b can_cnodes) ≠ .undefined) :
    ∃ s', pass get_whole_subtree influenced can_cnodes phase_node s = .ok s' ∧
      Progress get_whole_subtree phase_node influenced can_cnodes names s' ∧
      Round (Edge get_whole_subtree phase_node names) (Passes influenced can_cnodes)
        s.candidate_list.toFinset s'.candidate_list.toFinset := by
  obtain ⟨hmapping, hmatrix⟩ := h.matrix hne
  have hM : s.candidate_list.toFinset ⊆ names.toFinset := h.remaining.subset
  obtain ⟨scan, hrun, hscan⟩ := scan_spec hmatrix (h.evaluates hnames) hdefined
    (List.range s.candidate_list.length) (by simp) ⟨[], [], s.sig_r_names⟩
  obtain ⟨hparent, hnon_sig, hsig⟩ := hscan.by_name
  obtain ⟨hperm, hnodup, hrest⟩ := getRestCandidates_spec scan.sig_r_names
    (scan.parent_names ++ scan.non_sig_list) h.nodup
  generalize hresult : getRestCandidates scan.sig_r_names
    (scan.parent_names ++ scan.non_sig_list) s.candidate_list = rest at hperm hnodup hrest
  have hremain : ∀ x, x ∈ rest.2 ↔ x ∈ s.candidate_list ∧
      ¬ Peeled (Calls get_whole_subtree phase_node) (Passes influenced can_cnodes)
        s.candidate_list.toFinset x := by
    intro x
    rw [hrest, hsig, List.mem_append, hparent, hnon_sig, Peeled]
    refine and_congr_right fun hx => ?_
    have hold : x ∉ s.sig_r_names := fun hsig => ((h.sig x).mp hsig).2.1 hx
    simp only [List.not_mem_nil, false_or, hold]
    by_cases hkeep : Passes influenced can_cnodes x
    · simp [hkeep]
    · simpa [hkeep] using and_comm
  have hround : Round (Edge get_whole_subtree phase_node names) (Passes influenced can_cnodes)
      s.candidate_list.toFinset rest.2.toFinset := by
    intro x
    rw [List.mem_toFinset, List.mem_toFinset, hremain, peeled_among hM]
  have hsub : ∀ x ∈ rest.2, x ∈ s.candidate_list := fun x hx => ((hremain x).mp hx).1
  obtain ⟨a_m, regions, hrebuild, hmatrix'⟩ := reconstructMatrix_spec hnodup
    (fun x hx => hnames.occurs x (h.subset (hsub x hx))) s.a_m s.can_region_mapping
  -- a quiet candidate that this pass takes off the list was one of its leaves
  have hleaf : ∀ x, x ∈ s.candidate_list → x ∉ rest.2 →
      Quiet (Edge get_whole_subtree phase_node names) (Passes influenced can_cnodes) x →
      Leaf (Calls get_whole_subtree phase_node) s.candidate_list.toFinset x := by
    intro x hx hx' hquiet
    refine (leaf_among hM).mp (leaf_of_quiet hround (List.mem_toFinset.mpr hx) ?_ hquiet)
    exact fun hmem => hx' (List.mem_toFinset.mp hmem)
  refine ⟨⟨rest.2, regions, a_m, rest.1⟩, ?_, ⟨hnodup, hmatrix', h.remaining.round hround,
    fun x => ?_, fun x hx hx' hquiet => ?_⟩, hround⟩
  · rw [pass, hmapping, hrun, Outcome.ok_bind]
    simp only [hresult]
    rw [← hmapping, hrebuild]
    rfl
  · rw [hperm.mem_iff, hsig, h.sig]
    constructor
    · intro hx
      cases hx with
      | inl hold => exact ⟨hold.1, fun hmem => hold.2.1 (hsub x hmem), hold.2.2⟩
      | inr hnew =>
        have hx : x ∈ s.candidate_list := List.mem_toFinset.mp hnew.1.1
        exact ⟨h.subset hx, fun hmem => ((hremain x).mp hmem).2 (.inl hnew.1),
          h.remaining.quiet_of_leaf ((leaf_among hM).mpr hnew.1), hnew.2⟩
    · intro hall
      obtain ⟨hx, hx', hquiet, hkeep⟩ := hall
      by_cases hmem : x ∈ s.candidate_list
      · exact .inr ⟨hleaf x hmem hx' hquiet, hkeep⟩
      · exact .inl ⟨hx, hmem, hquiet, hkeep⟩
  · by_cases hmem : x ∈ s.candidate_list
    · exact hdefined x (hleaf x hmem hx' hquiet)
    · exact h.defined x hx hmem hquiet

/-- A pass that meets a leaf that cannot be evaluated is undefined. -/
theorem pass_undefined {names : List String} {s : Search}
    (hnames : Gathered get_whole_subtree phase_node influenced can_cnodes names)
    (h : Progress get_whole_subtree phase_node influenced can_cnodes names s)
    (hne : s.candidate_list ≠ []) {b : String}
    (hleaf : Leaf (Calls get_whole_subtree phase_node) s.candidate_list.toFinset b)
    (hb : influenced (getCnode b can_cnodes) = .undefined) :
    pass get_whole_subtree influenced can_cnodes phase_node s = .undefined := by
  obtain ⟨hmapping, hmatrix⟩ := h.matrix hne
  obtain ⟨i, hi⟩ := List.mem_iff_getElem?.mp (List.mem_toFinset.mp hleaf.1)
  have hscan := scan_undefined hmatrix (h.evaluates hnames) (List.range s.candidate_list.length)
    (by simp) ⟨i, List.mem_range.mpr (List.getElem?_eq_some_iff.mp hi).1, b, hi, hleaf, hb⟩
    ⟨[], [], s.sig_r_names⟩
  rw [pass, hmapping, hscan]
  rfl

/-- Every cycle leads to a significant candidate that leads to no cycle. -/
def CyclesEnd (E : String → String → Prop) (P : String → Prop) : Prop :=
  ∀ z, TransGen E z z → ∃ b, TransGen E z b ∧ Acyclic E b ∧ P b

section Run
variable {names : List String}
  (hnames : Gathered get_whole_subtree phase_node influenced can_cnodes names)
include hnames

/-- A pass that returns was a round of peeling. -/
theorem Progress.pass {s s' : Search}
    (h : Progress get_whole_subtree phase_node influenced can_cnodes names s)
    (hne : s.candidate_list ≠ [])
    (hpass : pass get_whole_subtree influenced can_cnodes phase_node s = .ok s') :
    Progress get_whole_subtree phase_node influenced can_cnodes names s' ∧
      Round (Edge get_whole_subtree phase_node names) (Passes influenced can_cnodes)
        s.candidate_list.toFinset s'.candidate_list.toFinset := by
  have hdefined : ∀ b, Leaf (Calls get_whole_subtree phase_node) s.candidate_list.toFinset b →
      influenced (getCnode b can_cnodes) ≠ .undefined := by
    intro b hleaf hundefined
    rw [pass_undefined hnames h hne hleaf hundefined] at hpass
    exact absurd hpass (by simp)
  obtain ⟨s'', hpass', hprogress, hround⟩ := pass_spec hnames h hne hdefined
  have heq : s'' = s' := Outcome.ok.inj (hpass'.symm.trans hpass)
  exact heq ▸ ⟨hprogress, hround⟩

/-- Without a leaf a pass leaves the candidates as they are; with one it takes it away. -/
theorem Progress.shrinks {s s' : Search}
    (h : Progress get_whole_subtree phase_node influenced can_cnodes names s)
    (hne : s.candidate_list ≠ [])
    (hpass : CubeTools.pass get_whole_subtree influenced can_cnodes phase_node s = .ok s') :
    s'.candidate_list.length < s.candidate_list.length ↔
      ∃ b, Leaf (Edge get_whole_subtree phase_node names) s.candidate_list.toFinset b := by
  obtain ⟨h', hround⟩ := h.pass hnames hne hpass
  rw [← List.toFinset_card_of_nodup h.nodup, ← List.toFinset_card_of_nodup h'.nodup]
  constructor
  · intro hlt
    by_contra hnone
    have hsame : s'.candidate_list.toFinset = s.candidate_list.toFinset := by
      ext x
      rw [hround x]
      refine ⟨And.left, fun hx => ⟨hx, fun hpeeled => hnone ?_⟩⟩
      cases hpeeled with
      | inl hleaf => exact ⟨x, hleaf⟩
      | inr hroute => exact ⟨hroute.choose, hroute.choose_spec.1⟩
    exact hlt.ne (congrArg Finset.card hsame)
  · intro ⟨b, hleaf⟩
    refine Finset.card_lt_card (Finset.ssubset_iff_of_subset ?_ |>.mpr ⟨b, hleaf.1, ?_⟩)
    · exact fun x hx => ((hround x).mp hx).1
    · exact fun hmem => ((hround b).mp hmem).2 (.inl hleaf)

omit hnames in
theorem Progress.exists_leaf {s : Search}
    (h : Progress get_whole_subtree phase_node influenced can_cnodes names s)
    (hne : s.candidate_list ≠ [])
    (hcycles : CyclesEnd (Edge get_whole_subtree phase_node names)
      (Passes influenced can_cnodes)) :
    ∃ b, Leaf (Edge get_whole_subtree phase_node names) s.candidate_list.toFinset b := by
  by_contra hnone
  obtain ⟨x, hx⟩ := List.exists_mem_of_ne_nil _ hne
  obtain ⟨z, -, hcycle, hstuck⟩ := h.remaining.cycle_of_stuck (fun _ _ hedge => hedge.2.2)
    (fun b hb => hnone ⟨b, hb⟩) (List.mem_toFinset.mpr hx)
  obtain ⟨b, hzb, hacyclic, hb⟩ := hcycles z hcycle
  exact hstuck b hzb hacyclic hb

/-- One more pass is defined and shrinks the list. -/
theorem Progress.next {s : Search}
    (h : Progress get_whole_subtree phase_node influenced can_cnodes names s)
    (hne : s.candidate_list ≠ [])
    (hcycles : CyclesEnd (Edge get_whole_subtree phase_node names) (Passes influenced can_cnodes))
    (hdefined : ∀ x ∈ names, Quiet (Edge get_whole_subtree phase_node names)
      (Passes influenced can_cnodes) x → influenced (getCnode x can_cnodes) ≠ .undefined) :
    ∃ s', CubeTools.pass get_whole_subtree influenced can_cnodes phase_node s = .ok s' ∧
      Progress get_whole_subtree phase_node influenced can_cnodes names s' ∧
      s'.candidate_list.length < s.candidate_list.length := by
  obtain ⟨s', hpass, h', -⟩ := pass_spec hnames h hne fun b hleaf =>
    hdefined b (h.subset (List.mem_toFinset.mp hleaf.1))
      (h.remaining.quiet_of_leaf ((leaf_among h.remaining.subset).mpr hleaf))
  exact ⟨s', hpass, h', (h.shrinks hnames hne hpass).mpr (h.exists_leaf hne hcycles)⟩

theorem Progress.returns
    (hcycles : CyclesEnd (Edge get_whole_subtree phase_node names) (Passes influenced can_cnodes))
    (hdefined : ∀ x ∈ names, Quiet (Edge get_whole_subtree phase_node names)
      (Passes influenced can_cnodes) x → influenced (getCnode x can_cnodes) ≠ .undefined)
    (fuel : Nat) : ∀ {s : Search}, s.candidate_list.length ≤ fuel →
    Progress get_whole_subtree phase_node influenced can_cnodes names s →
    ∃ s', getSignificantRegions get_whole_subtree influenced can_cnodes phase_node fuel s =
      some (.ok s') := by
  induction fuel with
  | zero =>
    intro s hlen _
    have hempty : s.candidate_list.isEmpty = true := by simpa using hlen
    exact ⟨s, by rw [getSignificantRegions, if_pos hempty]⟩
  | succ fuel ih =>
    intro s hlen h
    by_cases hempty : s.candidate_list.isEmpty = true
    · exact ⟨s, by rw [getSignificantRegions, if_pos hempty]⟩
    · have hne : s.candidate_list ≠ [] := fun hnil => hempty (List.isEmpty_iff.mpr hnil)
      obtain ⟨s', hpass, h', hlt⟩ := h.next hnames hne hcycles hdefined
      obtain ⟨s'', hrest⟩ := ih (by omega) h'
      refine ⟨s'', ?_⟩
      rw [getSignificantRegions, if_neg hempty]
      simp only [hpass, hrest]

end Run

end Spec
end ReadexPtf.CubeTools
