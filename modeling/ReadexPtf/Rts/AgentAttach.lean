import ReadexPtf.Rts.AgentLeftovers

/-! `insertNode` as the recursion that it is, with its index into the buffer: it ends with the
whole buffer consumed, and what it attaches has the shape and the names of the encoded trees. -/
namespace ReadexPtf.Rtstree
open ReadexPtf

section Recursion
variable (regions : RegionMapping)

/-- The branch of `insertNode` for a record whose parent is `node`. -/
def insertBelow (agent : Agent) (node : ℕ) (record : CallTreeDef) : Outcome (Agent × ℕ) := do
  let rtsRegion ← ptfId regions record.regionId
  match findNode agent.tree node record with
  | some returnval =>
    return ({ agent with
      tree := reassignScorepID agent.tree returnval record
      scorepidToRts := agent.scorepidToRts.insertNew record.scorepId returnval }, returnval)
  | none =>
    let newnode := agent.tree.length
    let data ← (Rts.ofRecord record rtsRegion).extractParameter newnode (dataOf agent.tree node)
    return ({ agent with
      tree := agent.tree.attach node data
      scorepidToRts := agent.scorepidToRts.insertNew record.scorepId newnode
      rtsToSerialize := agent.rtsToSerialize ++ [newnode] }, newnode)

/-- The recursion of `insertNode` as deep as `fuel`. It returns `buffer_index`, and beside it the
nodes that the records went to. -/
def insertNodeAt (buffer : List CallTreeDef) : ℕ → Agent → ℕ → ℕ →
    Outcome (Agent × ℕ × List ℕ)
  | 0, _, _, _ => .undefined
  | fuel + 1, agent, node, bufferIndex =>
    match buffer[bufferIndex]? with
    | none => return (agent, bufferIndex, [])
    | some record =>
      if record.parentScorepId = 0 then do
        let (agent, bufferIndex, nodes) ← insertNodeAt buffer fuel
          { agent with tree := reassignScorepID agent.tree 0 record } 0 (bufferIndex + 1)
        return (agent, bufferIndex, 0 :: nodes)
      else do
        let cell ← Outcome.found agent.tree[node]?
        if record.parentScorepId = cell.data.scorepId then do
          let (agent, returnval) ← insertBelow regions agent node record
          let (agent, bufferIndex, nodes) ←
            insertNodeAt buffer fuel agent returnval (bufferIndex + 1)
          return (agent, bufferIndex, returnval :: nodes)
        else do
          -- `node->parent` is null at the root
          let parent ← Outcome.found cell.parent
          insertNodeAt buffer fuel agent parent bufferIndex

/-- The recursion returns, from some depth on. -/
def Returns (buffer : List CallTreeDef) (s : Agent × ℕ) (bufferIndex : ℕ)
    (result : Agent × ℕ × List ℕ) : Prop :=
  ∃ fuel, ∀ depth, fuel ≤ depth →
    insertNodeAt regions buffer depth s.1 s.2 bufferIndex = .ok result

end Recursion

section Returns
variable {regions : RegionMapping} {buffer : List CallTreeDef}

/-- One call more. -/
theorem Returns.call {s s' : Agent × ℕ} {i i' : ℕ} {result result' : Agent × ℕ × List ℕ}
    (h : Returns regions buffer s' i' result)
    (hcall : ∀ depth, insertNodeAt regions buffer depth s'.1 s'.2 i' = .ok result →
      insertNodeAt regions buffer (depth + 1) s.1 s.2 i = .ok result') :
    Returns regions buffer s i result' := by
  obtain ⟨fuel, hfuel⟩ := h
  refine ⟨fuel + 1, fun depth hdepth => ?_⟩
  obtain ⟨depth, rfl⟩ := Nat.exists_eq_succ_of_ne_zero (by omega : depth ≠ 0)
  exact hcall depth (hfuel depth (by omega))

theorem Returns.functional {s : Agent × ℕ} {i : ℕ} {result result' : Agent × ℕ × List ℕ}
    (h : Returns regions buffer s i result) (h' : Returns regions buffer s i result') :
    result = result' := by
  obtain ⟨fuel, hfuel⟩ := h
  obtain ⟨fuel', hfuel'⟩ := h'
  have heq := hfuel (max fuel fuel') (Nat.le_max_left _ _)
  rw [hfuel' (max fuel fuel') (Nat.le_max_right _ _)] at heq
  exact (Outcome.ok.inj heq).symm

theorem returns_end {s : Agent × ℕ} {i : ℕ} (hi : buffer[i]? = none) :
    Returns regions buffer s i (s.1, i, []) := by
  refine ⟨1, fun depth hdepth => ?_⟩
  obtain ⟨depth, rfl⟩ := Nat.exists_eq_succ_of_ne_zero (by omega : depth ≠ 0)
  rw [insertNodeAt, hi]
  rfl

theorem Returns.root {s : Agent × ℕ} {i : ℕ} {record : CallTreeDef} {agent : Agent} {j : ℕ}
    {nodes : List ℕ} (hi : buffer[i]? = some record) (hparent : record.parentScorepId = 0)
    (h : Returns regions buffer ({ s.1 with tree := reassignScorepID s.1.tree 0 record }, 0) (i + 1)
      (agent, j, nodes)) : Returns regions buffer s i (agent, j, 0 :: nodes) := by
  apply h.call
  intro depth hdepth
  rw [insertNodeAt, hi]
  simp only [hparent, if_true, hdepth, Outcome.ok_bind]
  rfl

/-- The calls `insertNode( node->parent, … )` end at the parent of the record. -/
theorem Returns.up {agent : Agent} {i p : ℕ} {record : CallTreeDef} {result : Agent × ℕ × List ℕ}
    (hi : buffer[i]? = some record) (hparent : record.parentScorepId ≠ 0)
    (h : Returns regions buffer (agent, p) i result) : ∀ {depth node : ℕ},
      enclosing agent.tree record.parentScorepId depth node = .ok p →
      Returns regions buffer (agent, node) i result := by
  intro depth
  induction depth with
  | zero =>
    intro node henclosing
    rw [enclosing] at henclosing
    cases henclosing
  | succ depth ih =>
    intro node henclosing
    rw [enclosing] at henclosing
    obtain ⟨cell, hcell, hrest⟩ := Outcome.bind_eq_ok.mp henclosing
    split_ifs at hrest with hid
    · rw [Outcome.ok.inj hrest]
      exact h
    · obtain ⟨parent, hup, hrest⟩ := Outcome.bind_eq_ok.mp hrest
      apply (ih hrest).call
      intro depth hdepth
      rw [insertNodeAt, hi]
      simp only [hparent, if_false, hcell, Outcome.ok_bind, hid, hup]
      exact hdepth

theorem Returns.below {s s₁ : Agent × ℕ} {i p : ℕ} {record : CallTreeDef} {agent : Agent} {j : ℕ}
    {nodes : List ℕ} (hi : buffer[i]? = some record) (hparent : record.parentScorepId ≠ 0)
    (henclosing : enclosing s.1.tree record.parentScorepId s.1.tree.length s.2 = .ok p)
    (hrecord : insertRecord regions s record = .ok s₁)
    (h : Returns regions buffer s₁ (i + 1) (agent, j, nodes)) :
    Returns regions buffer s i (agent, j, s₁.2 :: nodes) := by
  obtain ⟨cell, hcell, hid⟩ := enclosing_eq_ok henclosing
  have hbelow : insertBelow regions s.1 p record = .ok s₁ := by
    obtain ⟨agent, node⟩ := s
    simp only [insertRecord, hparent, if_false, henclosing, Outcome.ok_bind] at hrecord
    exact hrecord
  apply Returns.up hi hparent _ henclosing
  apply h.call
  intro depth hdepth
  rw [insertNodeAt, hi]
  simp only [hparent, if_false, hcell, Outcome.found, Outcome.ok_bind, if_pos hid, hbelow, hdepth]
  rfl

theorem getElem?_of_drop {α : Type*} {xs rest : List α} {x : α} {i : ℕ}
    (h : xs.drop i = x :: rest) : xs[i]? = some x ∧ xs.drop (i + 1) = rest := by
  constructor
  · rw [← Nat.add_zero i, ← List.getElem?_drop, h]
    rfl
  · rw [← List.drop_drop, h]
    rfl

/-- The records of a forest are consumed one after another. -/
theorem Inserts.returns {pid p : ℕ} {forest : CallForest} {s s' : Agent × ℕ} {places : List ℕ}
    (h : Inserts regions pid p forest s places s') : ∀ {i j : ℕ} {rest : List CallTreeDef}
      {agent : Agent} {nodes : List ℕ}, buffer.drop i = forest.preorder pid ++ rest →
      Returns regions buffer s' (i + (forest.preorder pid).length) (agent, j, nodes) →
      Returns regions buffer s i (agent, j, places ++ nodes) := by
  induction h with
  | nil => exact fun _ hrest => hrest
  | @cons pid p scorepId regionId name children siblings s s₁ s₂ s₃ places places' hparent henclosing
      hrecord _ _ ihchildren ihsiblings =>
    intro i j rest agent nodes hdrop hrest
    rw [CallForest.preorder, List.cons_append, List.append_assoc] at hdrop
    obtain ⟨hi, hnext⟩ := getElem?_of_drop hdrop
    rw [CallForest.preorder, List.length_cons, List.length_append] at hrest
    rw [List.cons_append, List.append_assoc]
    apply Returns.below hi hparent henclosing hrecord
    apply ihchildren hnext
    apply ihsiblings
    · rw [← List.drop_drop, hnext, List.drop_left]
    · have hlength : i + 1 + (children.preorder scorepId).length + (siblings.preorder pid).length =
          i + ((children.preorder scorepId).length + (siblings.preorder pid).length + 1) := by
        omega
      rw [hlength]
      exact hrest

theorem InsertsThreads.returns {forest : CallForest} {s s' : Agent × ℕ} {places : List ℕ}
    (h : InsertsThreads regions forest s places s') : ∀ {i j : ℕ} {rest : List CallTreeDef}
      {agent : Agent} {nodes : List ℕ}, buffer.drop i = forest.preorder 0 ++ rest →
      Returns regions buffer s' (i + (forest.preorder 0).length) (agent, j, nodes) →
      Returns regions buffer s i (agent, j, places ++ nodes) := by
  induction h with
  | nil => exact fun _ hrest => hrest
  | @cons scorepId regionId name children siblings s s₁ s₂ s₃ places places' hroot hchildren _ ih =>
    intro i j rest agent nodes hdrop hrest
    rw [CallForest.preorder, List.cons_append, List.append_assoc] at hdrop
    obtain ⟨hi, hnext⟩ := getElem?_of_drop hdrop
    rw [CallForest.preorder, List.length_cons, List.length_append] at hrest
    rw [List.cons_append, List.append_assoc]
    apply Returns.root hi rfl
    rw [← hroot]
    apply hchildren.returns hnext
    apply ih
    · rw [← List.drop_drop, hnext, List.drop_left]
    · have hlength : i + 1 + (children.preorder scorepId).length + (siblings.preorder 0).length =
          i + ((children.preorder scorepId).length + (siblings.preorder 0).length + 1) := by
        omega
      rw [hlength]
      exact hrest

end Returns

section Shape
variable {regions : RegionMapping} {tree tree' : Cells Rts}

/-- The nodes are below `p` as the records are in the forest. -/
inductive Mirrors (tree : Cells Rts) : ℕ → CallForest → List ℕ → Prop
  | nil (p : ℕ) : Mirrors tree p .nil []
  | cons {p c scorepId regionId : ℕ} {name : String} {children siblings : CallForest}
      {nodes nodes' : List ℕ} (hchild : c ∈ tree.childrenOf p)
      (hchildren : Mirrors tree c children nodes) (hsiblings : Mirrors tree p siblings nodes') :
      Mirrors tree p (.cons scorepId name regionId children siblings) (c :: (nodes ++ nodes'))

theorem Mirrors.length_eq {p : ℕ} {forest : CallForest} {nodes : List ℕ}
    (h : Mirrors tree p forest nodes) : ∀ pid, nodes.length = (forest.preorder pid).length := by
  induction h with
  | nil p => exact fun pid => rfl
  | @cons p c scorepId regionId name children siblings nodes nodes' _ _ _ ihchildren ihsiblings =>
    intro pid
    rw [CallForest.preorder, List.length_cons, List.length_cons, List.length_append,
      List.length_append, ihchildren scorepId, ihsiblings pid]

theorem Mirrors.mono {p : ℕ} {forest : CallForest} {nodes added : List ℕ}
    (h : Mirrors tree p forest nodes) (hgrown : Grown tree tree' added) :
    Mirrors tree' p forest nodes := by
  induction h with
  | nil p => exact .nil p
  | cons hchild _ _ ihchildren ihsiblings =>
    exact .cons (hgrown.child hchild) ihchildren ihsiblings

theorem Mirrors.lt_length {p : ℕ} {forest : CallForest} {nodes : List ℕ}
    (h : Mirrors tree p forest nodes) (hr : tree.Rooted) : ∀ a ∈ nodes, a < tree.length := by
  induction h with
  | nil p => exact fun a ha => absurd ha List.not_mem_nil
  | cons hchild _ _ ihchildren ihsiblings =>
    intro a ha
    cases List.mem_cons.mp ha with
    | inl heq => exact heq ▸ (hr.child_lt hchild).2
    | inr hin => exact (List.mem_append.mp hin).elim (ihchildren a) (ihsiblings a)

theorem Inserts.mirrors {pid p : ℕ} {forest : CallForest} {s s' : Agent × ℕ} {nodes : List ℕ}
    (h : Inserts regions pid p forest s nodes s') (hsound : s.1.Sound) :
    Mirrors s'.1.tree p forest nodes := by
  induction h with
  | nil pid p s => exact .nil p
  | cons hparent henclosing hrecord hchildren hsiblings ihchildren ihsiblings =>
    have hplaced := insertRecord_placed hsound hparent henclosing hrecord
    obtain ⟨hsound₂, hgrown₂⟩ := hchildren.grown hplaced.sound
    have hgrown₃ := (hsiblings.grown hsound₂).2
    exact .cons (hgrown₃.child (hgrown₂.child hplaced.child))
      ((ihchildren hplaced.sound).mono hgrown₃) (ihsiblings hsound₂)

/-- The nodes have the names of the records. -/
def Named (tree : Cells Rts) (nodes : List ℕ) (records : List CallTreeDef) : Prop :=
  nodes.map (nameOf tree) = records.map fun record => some record.name

theorem Named.cons_append_iff {c : ℕ} {nodes nodes' : List ℕ} {record : CallTreeDef}
    {records records' : List CallTreeDef} (hlength : nodes.length = records.length) :
    Named tree (c :: (nodes ++ nodes')) (record :: (records ++ records')) ↔
      nameOf tree c = some record.name ∧ Named tree nodes records ∧
        Named tree nodes' records' := by
  rw [Named, List.map_cons, List.map_cons, List.cons.injEq, List.map_append, List.map_append]
  have hlengths : (nodes.map (nameOf tree)).length =
      (records.map fun record => some record.name).length := by
    rw [List.length_map, List.length_map, hlength]
  exact and_congr_right fun _ => ⟨fun h => List.append_inj h hlengths,
    fun h => congrArg₂ (· ++ ·) h.1 h.2⟩

/-- Names that are there stay. -/
theorem Grown.nameOf_eq {nodes : List ℕ} (h : Grown tree tree' nodes) {a : ℕ}
    (ha : a < tree.length) : nameOf tree' a = nameOf tree a := by
  have hname : nameOf tree a = some tree[a].data.regionName := by
    rw [nameOf, dataOf, List.getElem?_eq_getElem ha]
    rfl
  rw [hname, h.names a _ hname]

theorem Grown.named_iff {nodes added : List ℕ} (h : Grown tree tree' added)
    (hlt : ∀ a ∈ nodes, a < tree.length) (records : List CallTreeDef) :
    Named tree' nodes records ↔ Named tree nodes records := by
  have hsame : nodes.map (nameOf tree') = nodes.map (nameOf tree) :=
    List.map_congr_left fun a ha => h.nameOf_eq (hlt a ha)
  rw [Named, Named, hsame]

theorem insertRecord_named {s s' : Agent × ℕ} {p : ℕ} {record : CallTreeDef}
    (hparent : record.parentScorepId ≠ 0)
    (henclosing : enclosing s.1.tree record.parentScorepId s.1.tree.length s.2 = .ok p)
    (h : insertRecord regions s record = .ok s') :
    Recognised s record ↔ nameOf s'.1.tree s'.2 = some record.name := by
  have hhere : Recognised s record ↔
      ∀ c, findNode s.1.tree p record = some c → nameOf s.1.tree c = some record.name := by
    rw [Recognised, if_neg hparent]
    exact ⟨fun h => h p henclosing, fun h q hq => Outcome.ok.inj (henclosing.symm.trans hq) ▸ h⟩
  rw [hhere]
  cases insertRecord_cases hparent henclosing h with
  | inl hfound =>
    obtain ⟨hfind, hagent⟩ := hfound
    rw [hfind, hagent]
    simp [nameOf_reassignScorepID]
  | inr hnew =>
    obtain ⟨hnone, hc, key, data, hdata, hagent⟩ := hnew
    have hname : nameOf s'.1.tree s'.2 = some record.name := by
      rw [hagent, hc]
      show nameOf (s.1.tree.attach p data) s.1.tree.length = some record.name
      rw [nameOf, dataOf_attach_new, Option.map_some, (Rts.extractParameter_eq_ok hdata).1]
      rfl
    rw [hnone]
    simp [hname]

/-- The nodes have the names of their records where no record is taken for another node. -/
theorem Inserts.named_iff {pid p : ℕ} {forest : CallForest} {s s' : Agent × ℕ} {nodes : List ℕ}
    (h : Inserts regions pid p forest s nodes s') (hsound : s.1.Sound) :
    Outcome.StepsMeet Recognised (insertRecord regions) (forest.preorder pid) s ↔
      Named s'.1.tree nodes (forest.preorder pid) := by
  induction h with
  | nil pid p s => exact iff_of_true trivial rfl
  | @cons pid p scorepId regionId name children siblings s s₁ s₂ s₃ nodes nodes' hparent henclosing
      hrecord hchildren hsiblings ihchildren ihsiblings =>
    have hplaced := insertRecord_placed hsound hparent henclosing hrecord
    have hmirrors := hchildren.mirrors hplaced.sound
    obtain ⟨hsound₂, hgrown₂⟩ := hchildren.grown hplaced.sound
    have hgrown₃ := (hsiblings.grown hsound₂).2
    have hc := (hplaced.sound.rooted.child_lt hplaced.child).2
    rw [CallForest.preorder, Outcome.StepsMeet.cons_iff hrecord,
      Outcome.StepsMeet.append_iff hchildren.insertNode,
      Named.cons_append_iff (hmirrors.length_eq scorepId),
      insertRecord_named hparent henclosing hrecord, ihchildren hplaced.sound, ihsiblings hsound₂,
      hgrown₃.named_iff (hmirrors.lt_length hsound₂.rooted), (hgrown₂.trans hgrown₃).nameOf_eq hc]

theorem InsertsThreads.named_iff {forest : CallForest} {s s' : Agent × ℕ} {nodes : List ℕ}
    (h : InsertsThreads regions forest s nodes s') (hsound : s.1.Sound) :
    Outcome.StepsMeet Recognised (insertRecord regions) (forest.preorder 0) s ↔
      Named s'.1.tree nodes (forest.preorder 0) := by
  induction h with
  | nil s => exact iff_of_true trivial rfl
  | @cons scorepId regionId name children siblings s s₁ s₂ s₃ nodes nodes' hroot hchildren
      hsiblings ih =>
    have hrecord := @insertRecord_root regions s regionId name scorepId
    rw [← hroot] at hrecord
    have hsound₁ : s₁.1.Sound := hroot ▸ sound_reassignScorepID hsound 0 _
    have hgrown₁ : Grown s.1.tree s₁.1.tree [0] := hroot ▸ grown_reassignScorepID s.1.tree 0 _
    have hmirrors := hchildren.mirrors hsound₁
    obtain ⟨hsound₂, hgrown₂⟩ := hchildren.grown hsound₁
    have hgrown₃ := (hsiblings.grown hsound₂).2
    rw [CallForest.preorder, Outcome.StepsMeet.cons_iff hrecord,
      Outcome.StepsMeet.append_iff hchildren.insertNode,
      Named.cons_append_iff (hmirrors.length_eq scorepId), hchildren.named_iff hsound₁, ih hsound₂,
      hgrown₃.named_iff (hmirrors.lt_length hsound₂.rooted),
      ((hgrown₁.trans hgrown₂).trans hgrown₃).nameOf_eq hsound.rooted.nonempty]
    exact Iff.rfl

/-- The nodes of a forest have the call paths of its records. -/
theorem Mirrors.callPaths {p : ℕ} {forest : CallForest} {nodes : List ℕ}
    (h : Mirrors tree p forest nodes) : ∀ {pid : ℕ} {base : List String},
      CallPath tree p base → Named tree nodes (forest.preorder pid) →
      List.Forall₂ (fun a path => CallPath tree a path) nodes (forest.pathsBelow base) := by
  induction h with
  | nil p => exact fun _ _ => .nil
  | @cons p c scorepId regionId name children siblings nodes nodes' hchild hchildren _ ihchildren
      ihsiblings =>
    intro pid base hbase hnamed
    rw [CallForest.preorder, Named.cons_append_iff (hchildren.length_eq scorepId)] at hnamed
    have hpath := callPath_child hbase hchild hnamed.1
    rw [CallForest.pathsBelow_cons]
    exact .cons hpath
      (List.rel_append (ihchildren hpath hnamed.2.1) (ihsiblings hbase hnamed.2.2))

/-- Different records have different nodes just if they have different call paths. -/
theorem Mirrors.nodup_iff {p pid : ℕ} {forest : CallForest} {nodes : List ℕ} {base : List String}
    (h : Mirrors tree p forest nodes) (hr : tree.Rooted)
    (hdistinct : Cells.Distinct Rts.regionName tree) (hbase : CallPath tree p base)
    (hnamed : Named tree nodes (forest.preorder pid)) :
    nodes.Nodup ↔ (forest.pathsBelow base).Nodup := by
  have hunique : Relator.BiUnique fun a path => CallPath tree a path := by
    constructor
    · exact fun a b path ha hb => ha.injective hdistinct hb
    · exact fun a path path' hpath hpath' => hpath.functional hr hpath'
  exact List.rel_nodup hunique (h.callPaths hbase hnamed)

/-- The trees of all threads are below the root, and different records of a tree have different
nodes. -/
inductive MirrorsThreads (tree : Cells Rts) : CallForest → List ℕ → Prop
  | nil : MirrorsThreads tree .nil []
  | cons {scorepId regionId : ℕ} {name : String} {children siblings : CallForest}
      {nodes nodes' : List ℕ} (hchildren : Mirrors tree 0 children nodes) (hnodup : nodes.Nodup)
      (hsiblings : MirrorsThreads tree siblings nodes') :
      MirrorsThreads tree (.cons scorepId name regionId children siblings) (0 :: (nodes ++ nodes'))

/-- No two records of a tree have the same call path. -/
def CallForest.PathsDiffer : CallForest → Prop
  | .nil => True
  | .cons _ name _ children siblings => (children.pathsBelow [name]).Nodup ∧ siblings.PathsDiffer

theorem MirrorsThreads.pathsDiffer {forest : CallForest} {nodes : List ℕ}
    (h : MirrorsThreads tree forest nodes) (hr : tree.Rooted)
    (hdistinct : Cells.Distinct Rts.regionName tree)
    (hnamed : Named tree nodes (forest.preorder 0)) : forest.PathsDiffer := by
  induction h with
  | nil => exact trivial
  | @cons scorepId regionId name children siblings nodes nodes' hchildren hnodup _ ih =>
    rw [CallForest.preorder, Named.cons_append_iff (hchildren.length_eq scorepId)] at hnamed
    have hroot := callPath_root hnamed.1
    exact ⟨(hchildren.nodup_iff hr hdistinct hroot hnamed.2.1).mp hnodup, ih hnamed.2.2⟩

theorem InsertsThreads.mirrors {forest : CallForest} {s s' : Agent × ℕ} {nodes : List ℕ}
    (h : InsertsThreads regions forest s nodes s') (hsound : s.1.Sound)
    (hnamed : Named s'.1.tree nodes (forest.preorder 0)) (hdiffer : forest.PathsDiffer) :
    MirrorsThreads s'.1.tree forest nodes := by
  induction h with
  | nil s => exact .nil
  | @cons scorepId regionId name children siblings s s₁ s₂ s₃ nodes nodes' hroot hchildren
      hsiblings ih =>
    have hsound₁ : s₁.1.Sound := hroot ▸ sound_reassignScorepID hsound 0 _
    obtain ⟨hsound₂, hgrown₂⟩ := hchildren.grown hsound₁
    obtain ⟨hsound₃, hgrown₃⟩ := hsiblings.grown hsound₂
    have hmirrors := (hchildren.mirrors hsound₁).mono hgrown₃
    rw [CallForest.preorder, Named.cons_append_iff (hmirrors.length_eq scorepId)] at hnamed
    have hnodup := (hmirrors.nodup_iff hsound₃.rooted hsound₃.distinct (callPath_root hnamed.1)
      hnamed.2.1).mpr hdiffer.1
    exact .cons hmirrors hnodup (ih hsound₂ hnamed.2.2 hdiffer.2)

end Shape

section Buffers

/-- The root is there, and `insertNode` is called next. -/
def Agent.assignedRoot (agent : Agent) (buffer : CallTreeBuffer) : Outcome Agent :=
  match buffer.records with
  | [] => .undefined
  | record :: _ => do
    let rtsRegion ← ptfId buffer.regions record.regionId
    return assignRoot agent record rtsRegion

/-- What `insertNode` is for: the nodes of the records are as the trees of the buffer, with their
names, and nothing else is attached. -/
structure Attached (agent agent' : Agent) (buffer : CallTreeBuffer) (nodes : List ℕ) : Prop where
  shape : MirrorsThreads agent'.tree buffer.forest nodes
  names : Named agent'.tree nodes buffer.records
  order : ∀ a, ∃ added, added.Sublist nodes ∧
    agent'.tree.childrenOf a = agent.tree.childrenOf a ++ added
  nonnull : ∀ a, ∀ c ∈ agent'.tree.childrenOf a,
    ∃ cell, agent'.tree[c]? = some cell ∧ cell.parent = some a

theorem reassignScorepID_assignRoot (agent : Agent) (record : CallTreeDef) (key : ℕ) :
    reassignScorepID (assignRoot agent record key).tree 0 record =
      (assignRoot agent record key).tree := by
  rw [assignRoot]
  split_ifs with hempty
  · rfl
  · simp only [reassignScorepID, Cells.write, List.modify_modify_eq]
    rfl

/-- All records of a buffer are inserted, from the state that `construct_aagent_calltree` calls
`insertNode` in. -/
theorem exists_insertsBuffer {agent : Agent} (hvalid : agent.Valid) (buffer : CallTreeBuffer) :
    ∃ agent₁ s nodes, agent.assignedRoot buffer = .ok agent₁ ∧ agent₁.Sound ∧
      InsertsThreads buffer.regions buffer.forest (agent₁, 0) (0 :: nodes) s ∧
      insertNode buffer.regions buffer.records.tail (agent₁, 0) = .ok s ∧
      Returns buffer.regions buffer.records (agent₁, 0) 1 (s.1, buffer.records.length, nodes) := by
  obtain ⟨forest, regions, hnonempty, hnodup, hzero, hknown⟩ := buffer
  cases forest with
  | nil => exact absurd rfl hnonempty
  | cons scorepId name regionId children siblings =>
    simp only [CallForest.ids, List.mem_cons, List.mem_append, not_or] at hzero
    simp only [CallForest.ids, List.nodup_cons, List.mem_append, not_or, List.nodup_append] at hnodup
    simp only [CallForest.regionIds, List.mem_cons, List.mem_append] at hknown
    obtain ⟨key, hkey⟩ := hknown regionId (.inl rfl)
    obtain ⟨agent₁, hagent₁⟩ : ∃ agent₁, agent₁ = assignRoot agent
      ⟨regionId, name, scorepId, 0⟩ key := ⟨_, rfl⟩
    obtain ⟨hsound₁, hid₁⟩ := assignRoot_sound hvalid ⟨regionId, name, scorepId, 0⟩ key
    rw [← hagent₁] at hsound₁ hid₁
    obtain ⟨places₂, s₂, hins₂⟩ := @exists_inserts_here regions (agent₁, 0) scorepId children
      hsound₁ hid₁ (Ne.symm hzero.1) (List.nodup_cons.mpr ⟨hnodup.1.1, hnodup.2.1⟩)
      hzero.2.1 (fun r hr => hknown r (.inr (.inl hr)))
    obtain ⟨places₃, s₃, hins₃⟩ := @exists_insertsThreads regions siblings s₂
      (hins₂.grown hsound₁).1 hnodup.2.2.1 hzero.2.2 (fun r hr => hknown r (.inr (.inr hr)))
    have hroot : (agent₁, 0) = (({ agent₁ with
        tree := reassignScorepID agent₁.tree 0 ⟨regionId, name, scorepId, 0⟩ }, 0) : Agent × ℕ) := by
      rw [hagent₁, reassignScorepID_assignRoot]
    have hdrop : ((CallForest.cons scorepId name regionId children siblings).preorder 0).drop 1 =
        children.preorder scorepId ++ siblings.preorder 0 := rfl
    have hrest : ((CallForest.cons scorepId name regionId children siblings).preorder 0).drop
        (1 + (children.preorder scorepId).length) = siblings.preorder 0 ++ [] := by
      rw [← List.drop_drop, hdrop, List.drop_left, List.append_nil]
    refine ⟨agent₁, s₃, places₂ ++ places₃, ?_, hsound₁, .cons hroot hins₂ hins₃, ?_, ?_⟩
    · rw [hagent₁]
      simp only [Agent.assignedRoot, CallTreeBuffer.records, CallForest.preorder, hkey,
        Outcome.ok_bind]
      rfl
    · have hrun₂ := hins₂.insertNode
      have hrun₃ := hins₃.insertNode
      rw [insertNode] at hrun₂ hrun₃
      rw [insertNode, CallTreeBuffer.records, CallForest.preorder, List.tail_cons,
        List.foldlM_append, hrun₂, Outcome.ok_bind, hrun₃]
    · apply hins₂.returns hdrop
      rw [← List.append_nil places₃]
      apply hins₃.returns hrest
      have hlength : 1 + (children.preorder scorepId).length + (siblings.preorder 0).length =
          ((CallForest.cons scorepId name regionId children siblings).preorder 0).length := by
        rw [CallForest.preorder, List.length_cons, List.length_append]
        omega
      rw [hlength]
      exact returns_end (List.getElem?_eq_none (Nat.le_refl _))

theorem step_valid {agent agent' : Agent} {op : AgentOp} (hvalid : agent.Valid)
    (h : agent.step op = .ok agent') : agent'.Valid := by
  cases op with
  | construct buffer =>
    obtain ⟨agent₁, s, nodes, hroot, hsound₁, hins, hrun, -⟩ := exists_insertsBuffer hvalid buffer
    have hsound := (hins.grown hsound₁).1
    rw [Agent.step] at h
    rw [Agent.assignedRoot] at hroot
    cases hrecords : buffer.records with
    | nil =>
      rw [hrecords] at hroot
      cases hroot
    | cons record rest =>
      rw [hrecords, constructAagentCalltree] at h
      rw [hrecords] at hroot hrun
      obtain ⟨key, hkey, hassign⟩ := Outcome.bind_eq_ok.mp hroot
      simp only [hkey, Outcome.ok_bind] at h
      rw [Outcome.ok.inj hassign, show insertNode buffer.regions rest (agent₁, 0) = _ from hrun,
        Outcome.ok_bind] at h
      obtain ⟨root, hfound, hwrite⟩ := Outcome.bind_eq_ok.mp h
      obtain ⟨root', hextract, hadded⟩ := Outcome.bind_eq_ok.mp hwrite
      obtain ⟨cell, hcell, rfl⟩ := Option.map_eq_some_iff.mp (Outcome.found_eq_ok.mp hfound)
      obtain ⟨hname, hid, hparent⟩ := Rts.extractParameter_eq_ok hextract
      have hsame := sameNodes_writeRoot hcell hname hid hparent
      have hsound' : Agent.Sound { s.1 with tree := s.1.tree.write 0 fun _ => root' } :=
        hsound.of_sameNodes hsame
      obtain ⟨agent₂, hadd, hnodes, -⟩ := addNodeInfo_returns hsound'
      rw [Outcome.ok.inj (hadded.symm.trans hadd)]
      exact .inr (hsound'.of_sameNodes hnodes)
  | clearMapping | clearSerialize =>
    rw [← Outcome.ok.inj h]
    exact hvalid.imp id fun hsound => ⟨hsound.rooted, hsound.distinct⟩

theorem run_valid {ops : List AgentOp} {agent : Agent} (h : Agent.start.run ops = .ok agent) :
    agent.Valid :=
  Outcome.foldlM_invariant Agent.Valid (fun _ _ _ hvalid hstep => step_valid hvalid hstep) ops
    .start agent (.inl rfl) h

/-- What the nodes of the records are, and when. -/
theorem attaches_of_valid {agent : Agent} (hvalid : agent.Valid) (buffer : CallTreeBuffer) :
    ∃ agent₁, agent.assignedRoot buffer = .ok agent₁ ∧
      ((∃ agent₂ nodes,
          Returns buffer.regions buffer.records (agent₁, 0) 1 (agent₂, buffer.records.length, nodes) ∧
          Attached agent₁ agent₂ buffer (0 :: nodes)) ↔
        FitsThreads agent₁.tree buffer.forest [] ∧ buffer.forest.PathsDiffer) := by
  obtain ⟨agent₁, s, nodes, hroot, hsound₁, hins, -, hreturns⟩ :=
    exists_insertsBuffer hvalid buffer
  have hseen : Seen agent₁.tree [] agent₁ :=
    ⟨hsound₁, ⟨[], Grown.refl agent₁.tree⟩, fun _ _ _ hin => absurd hin List.not_mem_nil,
      fun a path hpath _ => ⟨hpath.lt_length, rfl⟩⟩
  have hfits := hins.recognised_iff hsound₁.rooted hseen buffer.unique
  have hnamed := hins.named_iff hsound₁
  obtain ⟨hsound, hgrown⟩ := hins.grown hsound₁
  refine ⟨agent₁, hroot, ?_⟩
  rw [show FitsThreads agent₁.tree buffer.forest [] ↔ _ from hfits.symm, hnamed]
  constructor
  · rintro ⟨agent₂, nodes', hreturns', hattached⟩
    have hsame := hreturns'.functional hreturns
    simp only [Prod.mk.injEq, true_and] at hsame
    obtain ⟨rfl, rfl⟩ := hsame
    exact ⟨hattached.names,
      hattached.shape.pathsDiffer hsound.rooted hsound.distinct hattached.names⟩
  · rintro ⟨hnames, hdiffer⟩
    refine ⟨s.1, nodes, hreturns, hins.mirrors hsound₁ hnames hdiffer, hnames, fun a => ?_,
      fun a c hc => hsound.rooted.down a c hc⟩
    obtain ⟨added, hsub, heq⟩ := hgrown.children a
    exact ⟨added, hsub, heq⟩

/-- `insertNode` is called at the root, consumes the whole buffer and attaches it, just if no
record meets an id that an earlier buffer has left at a node of another name, and no two records of
a tree have the same call path. -/
theorem insertNode_attaches_iff {ops : List AgentOp} {agent : Agent}
    (hrun : Agent.start.run ops = .ok agent) (buffer : CallTreeBuffer) :
    ∃ agent₁, agent.assignedRoot buffer = .ok agent₁ ∧
      ((∃ agent₂ nodes,
          Returns buffer.regions buffer.records (agent₁, 0) 1 (agent₂, buffer.records.length, nodes) ∧
          Attached agent₁ agent₂ buffer (0 :: nodes)) ↔
        FitsThreads agent₁.tree buffer.forest [] ∧ buffer.forest.PathsDiffer) :=
  attaches_of_valid (run_valid hrun) buffer

set_option maxRecDepth 10000 in
theorem insertNode_attaches_iff_second : ∃ agent agent₁,
    Agent.start.run [.construct (oneCall 2 "init" (by decide))] = .ok agent ∧
      agent.assignedRoot (oneCall 3 "solve" (by decide)) = .ok agent₁ ∧
      ((∃ agent₂ nodes,
          Returns (oneCall 3 "solve" (by decide)).regions (oneCall 3 "solve" (by decide)).records
            (agent₁, 0) 1 (agent₂, (oneCall 3 "solve" (by decide)).records.length, nodes) ∧
          Attached agent₁ agent₂ (oneCall 3 "solve" (by decide)) (0 :: nodes)) ↔
        FitsThreads agent₁.tree (oneCall 3 "solve" (by decide)).forest [] ∧
          (oneCall 3 "solve" (by decide)).forest.PathsDiffer) := by
  have h : (Agent.start.run [.construct (oneCall 2 "init" (by decide))]).returnsWith
      fun _ => true := by
    decide +kernel
  obtain ⟨agent, hrun, -⟩ := Outcome.returnsWith_iff.mp h
  obtain ⟨agent₁, hroot, hiff⟩ := insertNode_attaches_iff hrun (oneCall 3 "solve" (by decide))
  exact ⟨agent, agent₁, hrun, hroot, hiff⟩

/-- Two functions of one name, from different files. -/
def twoHelpers : CallTreeBuffer where
  forest := .cons 1 "main" 10 (.cons 2 "helper" 20 .nil (.cons 3 "helper" 30 .nil .nil)) .nil
  regions := [(100, [10]), (200, [20]), (300, [30])]
  nonempty := by simp
  unique := by decide
  nonzero := by decide
  known := by
    intro regionId h
    simp only [CallForest.regionIds, List.append_nil, List.nil_append, List.mem_cons,
      List.not_mem_nil, or_false] at h
    obtain rfl | rfl | rfl := h
    · exact ⟨100, rfl⟩
    · exact ⟨200, rfl⟩
    · exact ⟨300, rfl⟩

theorem not_insertNode_attaches_helpers : ¬ ∀ (buffer : CallTreeBuffer) (agent₁ : Agent),
    Agent.start.assignedRoot buffer = .ok agent₁ → ∃ agent₂ nodes,
      Returns buffer.regions buffer.records (agent₁, 0) 1 (agent₂, buffer.records.length, nodes) ∧
      Attached agent₁ agent₂ buffer (0 :: nodes) := by
  intro hall
  obtain ⟨agent₁, hroot, hiff⟩ := @attaches_of_valid Agent.start (.inl rfl) twoHelpers
  have hdiffer : ¬ twoHelpers.forest.PathsDiffer := by
    rintro ⟨hnodup, -⟩
    revert hnodup
    decide
  exact hdiffer (hiff.mp (hall twoHelpers agent₁ hroot)).2

end Buffers
end ReadexPtf.Rtstree
