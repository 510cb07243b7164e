import ReadexPtf.Rts.AgentMerge

/-! The insertion of a forest below a node: every record finds its parent, whatever node it is
taken for itself. -/
namespace ReadexPtf.Rtstree
open ReadexPtf

/-- What a record does to its parent `p` and the node `c` it goes to, which it may be taken for
by mistake. -/
structure Placed (agent agent' : Agent) (p c : ℕ) (record : CallTreeDef) : Prop where
  sound : agent'.Sound
  child : c ∈ agent'.tree.childrenOf p
  id : idOf agent'.tree c = some record.scorepId
  ids : ∀ a k, a ≠ c → idOf agent.tree a = some k → idOf agent'.tree a = some k
  names : ∀ a name, nameOf agent.tree a = some name → nameOf agent'.tree a = some name
  children : ∀ a, ∃ added, added.Sublist [c] ∧
    agent'.tree.childrenOf a = agent.tree.childrenOf a ++ added

theorem parentOf_of_child {tree : Cells Rts} (hr : tree.Rooted) {p c : ℕ}
    (hc : c ∈ tree.childrenOf p) : parentOf tree c = some p := by
  obtain ⟨cell, hcell, hp⟩ := hr.down p c hc
  rw [parentOf, hcell]
  exact hp

theorem child_of_parentOf {tree : Cells Rts} (hr : tree.Rooted) {p c : ℕ}
    (h : parentOf tree c = some p) : c ∈ tree.childrenOf p := by
  obtain ⟨cell, hcell, hp⟩ := Option.bind_eq_some_iff.mp h
  have hlt := (parent_lt hr h).1
  obtain ⟨q, hq, -, hchild⟩ := hr.up c cell hcell (by omega)
  rw [hp, Option.some.injEq] at hq
  exact hq ▸ hchild

theorem Placed.parents {agent agent' : Agent} {p c : ℕ} {record : CallTreeDef}
    (h : Placed agent agent' p c record) (hr : agent.tree.Rooted) (a q : ℕ)
    (hq : parentOf agent.tree a = some q) : parentOf agent'.tree a = some q := by
  obtain ⟨added, -, heq⟩ := h.children q
  apply parentOf_of_child h.sound.rooted
  rw [heq]
  exact List.mem_append_left added (child_of_parentOf hr hq)

theorem lt_of_nameOf {tree : Cells Rts} {a : ℕ} {name : String} (h : nameOf tree a = some name) :
    a < tree.length := by
  by_contra hnot
  rw [nameOf, dataOf, List.getElem?_eq_none (by omega)] at h
  exact absurd h (by simp)

theorem nameOf_attach_old {tree : Cells Rts} (p : ℕ) (data : Rts) {a : ℕ} {name : String}
    (h : nameOf tree a = some name) : nameOf (tree.attach p data) a = some name := by
  rw [nameOf, dataOf_attach_old _ _ _ (lt_of_nameOf h)]
  exact h

/-- The node that is found has the id. -/
theorem enclosing_eq_ok {tree : Cells Rts} {k p : ℕ} : ∀ {depth node : ℕ},
    enclosing tree k depth node = .ok p → ∃ cell, tree[p]? = some cell ∧ k = cell.data.scorepId := by
  intro depth
  induction depth with
  | zero => exact fun h => nomatch h
  | succ depth ih =>
    intro node h
    rw [enclosing] at h
    obtain ⟨cell, hcell, hrest⟩ := Outcome.bind_eq_ok.mp h
    split_ifs at hrest with hid
    · exact ⟨cell, Outcome.ok.inj hrest ▸ Outcome.found_eq_ok.mp hcell, hid⟩
    · obtain ⟨parent, -, hup⟩ := Outcome.bind_eq_ok.mp hrest
      exact ih hup

theorem lt_of_enclosing {tree : Cells Rts} {k p depth node : ℕ}
    (h : enclosing tree k depth node = .ok p) : p < tree.length := by
  obtain ⟨cell, hcell, -⟩ := enclosing_eq_ok h
  exact (List.getElem?_eq_some_iff.mp hcell).1

section Records
variable {regions : RegionMapping}

/-- A record below a node is taken for a child or makes a new one. -/
theorem insertRecord_cases {s s' : Agent × ℕ} {p : ℕ} {record : CallTreeDef}
    (hparent : record.parentScorepId ≠ 0)
    (henclosing : enclosing s.1.tree record.parentScorepId s.1.tree.length s.2 = .ok p)
    (h : insertRecord regions s record = .ok s') :
    (findNode s.1.tree p record = some s'.2 ∧ s'.1 = { s.1 with
      tree := reassignScorepID s.1.tree s'.2 record
      scorepidToRts := s.1.scorepidToRts.insertNew record.scorepId s'.2 }) ∨
    (findNode s.1.tree p record = none ∧ s'.2 = s.1.tree.length ∧ ∃ key data,
      (Rts.ofRecord record key).extractParameter s.1.tree.length (dataOf s.1.tree p) = .ok data ∧
      s'.1 = { s.1 with
        tree := s.1.tree.attach p data
        scorepidToRts := s.1.scorepidToRts.insertNew record.scorepId s.1.tree.length
        rtsToSerialize := s.1.rtsToSerialize ++ [s.1.tree.length] }) := by
  obtain ⟨agent, node⟩ := s
  simp only [insertRecord, hparent, if_false, henclosing, Outcome.ok_bind] at h
  obtain ⟨key, -, h⟩ := Outcome.bind_eq_ok.mp h
  cases hfind : findNode agent.tree p record with
  | some c =>
    rw [hfind] at h
    exact .inl (Outcome.ok.inj h ▸ ⟨rfl, rfl⟩)
  | none =>
    rw [hfind] at h
    obtain ⟨data, hdata, h⟩ := Outcome.bind_eq_ok.mp h
    exact .inr (Outcome.ok.inj h ▸ ⟨rfl, rfl, key, data, hdata, rfl⟩)

theorem exists_insertRecord {s : Agent × ℕ} {p : ℕ} {record : CallTreeDef}
    (hparent : record.parentScorepId ≠ 0)
    (henclosing : enclosing s.1.tree record.parentScorepId s.1.tree.length s.2 = .ok p)
    {key : ℕ} (hkey : ptfId regions record.regionId = .ok key) :
    ∃ s', insertRecord regions s record = .ok s' := by
  obtain ⟨agent, node⟩ := s
  have hp := lt_of_enclosing henclosing
  simp only at henclosing hp
  simp only [insertRecord, hparent, if_false, henclosing, hkey, Outcome.ok_bind]
  cases findNode agent.tree p record with
  | some c => exact ⟨_, rfl⟩
  | none =>
    have hdataOf : dataOf agent.tree p = some agent.tree[p].data := by
      rw [dataOf, List.getElem?_eq_getElem hp]
      rfl
    obtain ⟨data, hdata⟩ := Rts.exists_extractParameter agent.tree.length agent.tree[p].data
      (Rts.ofRecord record key)
    rw [hdataOf, hdata]
    exact ⟨_, rfl⟩

theorem placed_found {agent : Agent} (hsound : agent.Sound) {p c : ℕ} {record : CallTreeDef}
    (hfound : findNode agent.tree p record = some c) :
    Placed agent { agent with
      tree := reassignScorepID agent.tree c record
      scorepidToRts := agent.scorepidToRts.insertNew record.scorepId c } p c record := by
  have hskeleton := skeleton_reassignScorepID agent.tree c record
  have hchildren : ∀ a, (reassignScorepID agent.tree c record).childrenOf a =
      agent.tree.childrenOf a := fun a => Cells.childrenOf_write agent.tree c a _
  constructor
  · exact ⟨hsound.rooted.of_skeleton hskeleton.symm, hsound.distinct.of_skeleton hskeleton.symm⟩
  · exact (hchildren p).symm ▸ findNode_eq_some hfound
  · exact idOf_reassignScorepID (hsound.rooted.child_lt (findNode_eq_some hfound)).2 record
  · exact fun a k hne hk => (idOf_reassignScorepID_ne (Ne.symm hne) record).trans hk
  · exact fun a name hname => (nameOf_reassignScorepID agent.tree c a record).trans hname
  · exact fun a => ⟨[], List.nil_sublist _, by rw [List.append_nil, hchildren a]⟩

theorem placed_new {agent : Agent} (hsound : agent.Sound) {p rtsRegion : ℕ}
    (hp : p < agent.tree.length) {record : CallTreeDef} {data : Rts}
    (hnone : findNode agent.tree p record = none)
    (hdata : (Rts.ofRecord record rtsRegion).extractParameter agent.tree.length
      (dataOf agent.tree p) = .ok data) :
    Placed agent { agent with
      tree := agent.tree.attach p data
      scorepidToRts := agent.scorepidToRts.insertNew record.scorepId agent.tree.length
      rtsToSerialize := agent.rtsToSerialize ++ [agent.tree.length] } p agent.tree.length record := by
  obtain ⟨hname, hid, -⟩ := Rts.extractParameter_eq_ok hdata
  have hnew : ∀ c cell, c ∈ agent.tree.childrenOf p → agent.tree[c]? = some cell →
      cell.data.regionName ≠ data.regionName := by
    intro c cell hc hcell
    rw [hname]
    exact findNode_eq_none hnone hc hcell
  constructor
  · exact ⟨hsound.rooted.attach hp, hsound.distinct.attach hsound.rooted hp hnew⟩
  · exact (Cells.mem_childrenOf_attach hp).mpr (.inr ⟨rfl, rfl⟩)
  · show idOf (agent.tree.attach p data) agent.tree.length = some record.scorepId
    rw [idOf, dataOf_attach_new, Option.map_some, hid]
    rfl
  · intro a k _ hk
    show idOf (agent.tree.attach p data) a = some k
    rw [idOf, dataOf_attach_old _ _ _ (lt_of_idOf hk)]
    exact hk
  · exact fun a name hname => nameOf_attach_old p data hname
  · intro a
    rw [show (agent.tree.attach p data).childrenOf a = _ from
      Cells.childrenOf_attach agent.tree data a hp]
    split_ifs
    · exact ⟨[agent.tree.length], List.Sublist.refl _, rfl⟩
    · exact ⟨[], List.nil_sublist _, by rw [List.append_nil]⟩

theorem insertRecord_placed {s s' : Agent × ℕ} {p : ℕ} {record : CallTreeDef}
    (hsound : s.1.Sound) (hparent : record.parentScorepId ≠ 0)
    (henclosing : enclosing s.1.tree record.parentScorepId s.1.tree.length s.2 = .ok p)
    (h : insertRecord regions s record = .ok s') : Placed s.1 s'.1 p s'.2 record := by
  cases insertRecord_cases hparent henclosing h with
  | inl hfound =>
    rw [hfound.2]
    exact placed_found hsound hfound.1
  | inr hnew =>
    obtain ⟨hnone, hc, key, data, hdata, hagent⟩ := hnew
    rw [hagent, hc]
    exact placed_new hsound (lt_of_enclosing henclosing) hnone hdata

/-- A record that is not taken for another node adds its call path. -/
theorem insertRecord_inserted {s s' : Agent × ℕ} {p : ℕ} {record : CallTreeDef}
    (hsound : s.1.Sound) (hparent : record.parentScorepId ≠ 0)
    (henclosing : enclosing s.1.tree record.parentScorepId s.1.tree.length s.2 = .ok p)
    (h : insertRecord regions s record = .ok s') (hrecognised : Recognised s record) :
    Inserted s.1 s'.1 p s'.2 record ∧
      ∀ a, findNode s.1.tree p record = some a → s'.2 = a := by
  rw [Recognised, if_neg hparent] at hrecognised
  have hplaced := insertRecord_placed hsound hparent henclosing h
  have hparents := hplaced.parents hsound.rooted
  have hup := parentOf_of_child hplaced.sound.rooted hplaced.child
  have hyounger := (hplaced.sound.rooted.child_lt hplaced.child).1
  cases insertRecord_cases hparent henclosing h with
  | inl hfound =>
    obtain ⟨hfind, hagent⟩ := hfound
    have hname := hrecognised p henclosing _ hfind
    have hskeleton := skeleton_reassignScorepID s.1.tree s'.2 record
    refine ⟨⟨hplaced.sound, hup, hyounger, hplaced.id, hplaced.ids, hparents, fun a path => ?_,
      by rw [hagent]⟩, fun a ha => Option.some.inj (hfind.symm.trans ha)⟩
    rw [hagent]
    have hsame : CallPath (reassignScorepID s.1.tree s'.2 record) a path ↔
        CallPath s.1.tree a path := ⟨.of_skeleton hskeleton, .of_skeleton hskeleton.symm⟩
    rw [show CallPath (reassignScorepID s.1.tree s'.2 record) a path ↔ _ from hsame]
    constructor
    · exact .inl
    · intro hcase
      cases hcase with
      | inl hold => exact hold
      | inr hnew =>
        obtain ⟨rfl, base, hbase, rfl⟩ := hnew
        obtain ⟨cell, hcell, -⟩ := hsound.rooted.down p _ (findNode_eq_some hfind)
        rw [nameOf, dataOf, hcell] at hname
        have hdata : cell.data.regionName = record.name := Option.some.inj hname
        exact hdata ▸ .child p _ base cell hbase (findNode_eq_some hfind) hcell
  | inr hnew =>
    obtain ⟨hnone, hc, key, data, hdata, hagent⟩ := hnew
    refine ⟨⟨hplaced.sound, hup, hyounger, hplaced.id, hplaced.ids, hparents, fun a path => ?_,
      by rw [hagent, hc]⟩, fun a ha => absurd (hnone.symm.trans ha) (by simp)⟩
    have hname : data.regionName = record.name := (Rts.extractParameter_eq_ok hdata).1
    rw [hagent, hc]
    rw [show CallPath (s.1.tree.attach p data) a path ↔ _ from
      Cells.pathTo_attach_iff hsound.rooted (lt_of_enclosing henclosing), hname]

end Records

/-- Names stay, and the nodes of the records are pushed back to the children in their order. -/
structure Grown (tree tree' : Cells Rts) (nodes : List ℕ) : Prop where
  names : ∀ a name, nameOf tree a = some name → nameOf tree' a = some name
  children : ∀ a, ∃ added, added.Sublist nodes ∧ tree'.childrenOf a = tree.childrenOf a ++ added

theorem Grown.refl (tree : Cells Rts) : Grown tree tree [] where
  names _ _ h := h
  children _ := ⟨[], List.Sublist.refl [], (List.append_nil _).symm⟩

theorem Grown.trans {tree tree' tree'' : Cells Rts} {nodes nodes' : List ℕ}
    (h : Grown tree tree' nodes) (h' : Grown tree' tree'' nodes') :
    Grown tree tree'' (nodes ++ nodes') where
  names a name hname := h'.names a name (h.names a name hname)
  children a := by
    obtain ⟨added, hsub, heq⟩ := h.children a
    obtain ⟨added', hsub', heq'⟩ := h'.children a
    exact ⟨added ++ added', hsub.append hsub', by rw [heq', heq, List.append_assoc]⟩

theorem Grown.child {tree tree' : Cells Rts} {nodes : List ℕ} (h : Grown tree tree' nodes)
    {p c : ℕ} (hc : c ∈ tree.childrenOf p) : c ∈ tree'.childrenOf p := by
  obtain ⟨added, -, heq⟩ := h.children p
  rw [heq]
  exact List.mem_append_left added hc

theorem Placed.grown {agent agent' : Agent} {p c : ℕ} {record : CallTreeDef}
    (h : Placed agent agent' p c record) : Grown agent.tree agent'.tree [c] := ⟨h.names, h.children⟩

section Forests
variable {regions : RegionMapping}

/-- The trees of a forest go below `p`, the node with the id `pid`: from a state to a state,
with the nodes of the records. -/
inductive Inserts (regions : RegionMapping) : ℕ → ℕ → CallForest → Agent × ℕ → List ℕ →
    Agent × ℕ → Prop
  | nil (pid p : ℕ) (s : Agent × ℕ) : Inserts regions pid p .nil s [] s
  | cons {pid p scorepId regionId : ℕ} {name : String} {children siblings : CallForest}
      {s s₁ s₂ s₃ : Agent × ℕ} {nodes nodes' : List ℕ} (hparent : pid ≠ 0)
      (henclosing : enclosing s.1.tree pid s.1.tree.length s.2 = .ok p)
      (hrecord : insertRecord regions s ⟨regionId, name, scorepId, pid⟩ = .ok s₁)
      (hchildren : Inserts regions scorepId s₁.2 children s₁ nodes s₂)
      (hsiblings : Inserts regions pid p siblings s₂ nodes' s₃) :
      Inserts regions pid p (.cons scorepId name regionId children siblings) s
        (s₁.2 :: (nodes ++ nodes')) s₃

theorem Inserts.insertNode {pid p : ℕ} {forest : CallForest} {s s' : Agent × ℕ} {nodes : List ℕ}
    (h : Inserts regions pid p forest s nodes s') :
    insertNode regions (forest.preorder pid) s = .ok s' := by
  induction h with
  | nil => rfl
  | cons _ _ hrecord _ _ ihchildren ihsiblings =>
    rw [Rtstree.insertNode] at ihchildren ihsiblings ⊢
    rw [CallForest.preorder, List.foldlM_cons, hrecord, Outcome.ok_bind, List.foldlM_append,
      ihchildren, Outcome.ok_bind, ihsiblings]

theorem Inserts.grown {pid p : ℕ} {forest : CallForest} {s s' : Agent × ℕ} {nodes : List ℕ}
    (h : Inserts regions pid p forest s nodes s') (hsound : s.1.Sound) :
    s'.1.Sound ∧ Grown s.1.tree s'.1.tree nodes := by
  induction h with
  | nil pid p s => exact ⟨hsound, Grown.refl s.1.tree⟩
  | cons hparent henclosing hrecord _ _ ihchildren ihsiblings =>
    have hplaced := insertRecord_placed hsound hparent henclosing hrecord
    have hbelow := ihchildren hplaced.sound
    have hbeside := ihsiblings hbelow.1
    exact ⟨hbeside.1, (hplaced.grown.trans hbelow.2).trans hbeside.2⟩

/-- The regions of a forest are known. -/
def Known (regions : RegionMapping) (forest : CallForest) : Prop :=
  ∀ regionId ∈ forest.regionIds, ∃ key, ptfId regions regionId = .ok key

/-- Where the insertion of a forest below `p` stands: the nodes above `node` up to `p` do not
have an id `k` unless the forest or the nodes before had it. -/
structure Standing (agent agent' : Agent) (p node' : ℕ) (forest : CallForest) (nodes : List ℕ) :
    Prop where
  ids : ∀ a k, a ≤ p → idOf agent.tree a = some k → idOf agent'.tree a = some k
  nodes : ∃ nodes', Below agent'.tree p node' nodes' ∧ ∀ k, k ∉ forest.ids →
    (∀ a ∈ nodes, idOf agent.tree a ≠ some k) → ∀ a ∈ nodes', idOf agent'.tree a ≠ some k

/-- Every record of a forest finds its parent: the induction is on the forest, and the nodes
passed on the way up never have the id of an open parent. -/
theorem exists_inserts (forest : CallForest) :
    ∀ {s : Agent × ℕ} {p pid : ℕ} {nodes : List ℕ}, s.1.Sound → Below s.1.tree p s.2 nodes →
      idOf s.1.tree p = some pid → (∀ a ∈ nodes, idOf s.1.tree a ≠ some pid) → pid ≠ 0 →
      (pid :: forest.ids).Nodup → 0 ∉ forest.ids → Known regions forest →
      ∃ places s', Inserts regions pid p forest s places s' ∧
        Standing s.1 s'.1 p s'.2 forest nodes := by
  induction forest with
  | nil =>
    intro s p pid nodes _ hbelow _ _ _ _ _ _
    exact ⟨[], s, .nil pid p s, fun a k _ hk => hk, nodes, hbelow, fun k _ hk => hk⟩
  | cons scorepId name regionId children siblings ihchildren ihsiblings =>
    intro s p pid nodes hsound hbelow hid hothers hpid hnodup hzero hknown
    simp only [CallForest.ids, List.mem_cons, List.mem_append, not_or] at hzero
    simp only [CallForest.ids, List.nodup_cons, List.mem_cons, List.mem_append, not_or,
      List.nodup_append] at hnodup
    obtain ⟨⟨hpidId, hpidChildren, hpidSiblings⟩, ⟨hidChildren, hidSiblings⟩, hnodupChildren,
      hnodupSiblings, hdisjoint⟩ := hnodup
    simp only [Known, CallForest.regionIds, List.mem_cons, List.mem_append] at hknown
    obtain ⟨key, hkey⟩ := hknown regionId (.inl rfl)
    have hp := lt_of_idOf hid
    have hlength := hbelow.length_le hsound.rooted
    have hnode : s.2 < s.1.tree.length := by
      cases hbelow with
      | here => exact hp
      | up _ q _ hparent _ => exact (parent_lt hsound.rooted hparent).2
    have henclosing := hbelow.enclosing hid hothers s.1.tree.length (by omega)
    -- the root of the first tree
    obtain ⟨s₁, hrecord⟩ := @exists_insertRecord regions s p ⟨regionId, name, scorepId, pid⟩
      hpid henclosing key hkey
    have hplaced := insertRecord_placed hsound hpid henclosing hrecord
    have hyounger := (hplaced.sound.rooted.child_lt hplaced.child).1
    -- the trees below it
    obtain ⟨places₂, s₂, hins₂, hstanding₂⟩ := ihchildren hplaced.sound .here hplaced.id
      (fun a ha => absurd ha List.not_mem_nil) (Ne.symm hzero.1)
      (List.nodup_cons.mpr ⟨hidChildren, hnodupChildren⟩) hzero.2.1
      (fun r hr => hknown r (.inr (.inl hr)))
    obtain ⟨hsound₂, hgrown₂⟩ := hins₂.grown hplaced.sound
    obtain ⟨nodes₂, hbelow₂, hids₂⟩ := hstanding₂.nodes
    have hparent₂ := parentOf_of_child hsound₂.rooted (hgrown₂.child hplaced.child)
    have hid₂ : idOf s₂.1.tree s₁.2 = some scorepId :=
      hstanding₂.ids s₁.2 scorepId le_rfl hplaced.id
    have hidp : ∀ a k, a ≤ p → idOf s.1.tree a = some k → idOf s₂.1.tree a = some k :=
      fun a k ha hk => hstanding₂.ids a k (by omega) (hplaced.ids a k (by omega) hk)
    have hnot₂ : ∀ k, k ≠ scorepId → k ∉ children.ids →
        ∀ a ∈ nodes₂ ++ [s₁.2], idOf s₂.1.tree a ≠ some k := by
      intro k hk hkchildren a ha
      cases List.mem_append.mp ha with
      | inl hin => exact hids₂ k hkchildren (fun b hb => absurd hb List.not_mem_nil) a hin
      | inr hself =>
        rw [List.mem_singleton.mp hself, hid₂, ne_eq, Option.some.injEq]
        exact Ne.symm hk
    -- the trees beside it
    obtain ⟨places₃, s₃, hins₃, hstanding₃⟩ := ihsiblings hsound₂ (hbelow₂.append hparent₂)
      (hidp p pid le_rfl hid) (hnot₂ pid hpidId hpidChildren) hpid
      (List.nodup_cons.mpr ⟨hpidSiblings, hnodupSiblings⟩) hzero.2.2
      (fun r hr => hknown r (.inr (.inr hr)))
    refine ⟨_, s₃, .cons hpid henclosing hrecord hins₂ hins₃, ?_, ?_⟩
    · exact fun a k ha hk => hstanding₃.ids a k ha (hidp a k ha hk)
    · obtain ⟨nodes₃, hbelow₃, hids₃⟩ := hstanding₃.nodes
      refine ⟨nodes₃, hbelow₃, fun k hk _ => ?_⟩
      simp only [CallForest.ids, List.mem_cons, List.mem_append, not_or] at hk
      exact hids₃ k hk.2.2 (hnot₂ k hk.1 hk.2.1)

/-- The first forest below the node that the insertion is at. -/
theorem exists_inserts_here {s : Agent × ℕ} {pid : ℕ} (forest : CallForest) (hsound : s.1.Sound)
    (hid : idOf s.1.tree s.2 = some pid) (hpid : pid ≠ 0) (hnodup : (pid :: forest.ids).Nodup)
    (hzero : 0 ∉ forest.ids) (hknown : Known regions forest) :
    ∃ places s', Inserts regions pid s.2 forest s places s' := by
  obtain ⟨places, s', hins, -⟩ := exists_inserts forest hsound .here hid
    (fun a ha => absurd ha List.not_mem_nil) hpid hnodup hzero hknown
  exact ⟨places, s', hins⟩

/-- Where no record is taken for another node, the tree has the call paths of the forest. -/
theorem Inserts.merged {pid p : ℕ} {forest : CallForest} {s s' : Agent × ℕ} {nodes : List ℕ}
    (h : Inserts regions pid p forest s nodes s') {base : List String} (hsound : s.1.Sound)
    (hbase : CallPath s.1.tree p base)
    (hmeet : Outcome.StepsMeet Recognised (insertRecord regions) (forest.preorder pid) s) :
    Merged s.1 s'.1 base forest.callPaths ∧
      (Outcome.StepsMeet Enterable (insertRecord regions) (forest.preorder pid) s →
        Resolved s'.1 base forest.callPaths) := by
  induction h generalizing base with
  | nil pid p s =>
    exact ⟨Merged.refl hsound base, fun _ call hcall => absurd hcall List.not_mem_nil⟩
  | @cons pid p scorepId regionId name children siblings s s₁ s₂ s₃ nodes nodes' hparent henclosing
      hrecord hchildren hsiblings ihchildren ihsiblings =>
    obtain ⟨hinserted, hfound⟩ := insertRecord_inserted hsound hparent henclosing hrecord hmeet.1
    obtain ⟨hmerged₁, hpath₁⟩ := hinserted.merged hbase hsound.rooted
    have hmeet₁ := Outcome.StepsMeet.append (hmeet.2 _ hrecord)
    obtain ⟨hmerged₂, hresolved₂⟩ := ihchildren hinserted.sound hpath₁ hmeet₁.1
    obtain ⟨hmerged₃, hresolved₃⟩ := ihsiblings hmerged₂.sound
      (hmerged₂.kept _ _ (hmerged₁.kept _ _ hbase)) (hmeet₁.2 _ hchildren.insertNode)
    refine ⟨(hmerged₁.trans hmerged₂.below).trans hmerged₃, fun henter => ?_⟩
    have hmapping : ∀ a, s.1.scorepidToRts.get? scorepId = some a → a = s₁.2 := by
      intro a ha
      have hfirst := henter.1
      rw [Enterable, if_neg hparent] at hfirst
      exact (hfound a (hfirst p henclosing a ha)).symm
    have henter₁ := Outcome.StepsMeet.append (henter.2 _ hrecord)
    have h₁ := (hinserted.resolved hpath₁ hmapping).mono hmerged₂
    have h₂ := (hresolved₂ henter₁.1).below
    exact ((h₁.append h₂).mono hmerged₃).append (hresolved₃ (henter₁.2 _ hchildren.insertNode))

end Forests

section Threads
variable {regions : RegionMapping}

theorem sound_reassignScorepID {agent : Agent} (hsound : agent.Sound) (a : ℕ)
    (record : CallTreeDef) : Agent.Sound { agent with tree := reassignScorepID agent.tree a record } :=
  ⟨hsound.rooted.of_skeleton (skeleton_reassignScorepID agent.tree a record).symm,
    hsound.distinct.of_skeleton (skeleton_reassignScorepID agent.tree a record).symm⟩

theorem grown_reassignScorepID (tree : Cells Rts) (a : ℕ) (record : CallTreeDef) :
    Grown tree (reassignScorepID tree a record) [a] where
  names b name hname := (nameOf_reassignScorepID tree a b record).trans hname
  children b := ⟨[], List.nil_sublist _, by
    rw [List.append_nil, reassignScorepID, Cells.childrenOf_write]⟩

/-- The trees of further threads begin at the root again. -/
inductive InsertsThreads (regions : RegionMapping) : CallForest → Agent × ℕ → List ℕ →
    Agent × ℕ → Prop
  | nil (s : Agent × ℕ) : InsertsThreads regions .nil s [] s
  | cons {scorepId regionId : ℕ} {name : String} {children siblings : CallForest}
      {s s₁ s₂ s₃ : Agent × ℕ} {nodes nodes' : List ℕ}
      (hroot : s₁ = ({ s.1 with
        tree := reassignScorepID s.1.tree 0 ⟨regionId, name, scorepId, 0⟩ }, 0))
      (hchildren : Inserts regions scorepId 0 children s₁ nodes s₂)
      (hsiblings : InsertsThreads regions siblings s₂ nodes' s₃) :
      InsertsThreads regions (.cons scorepId name regionId children siblings) s
        (0 :: (nodes ++ nodes')) s₃

theorem insertRecord_root (s : Agent × ℕ) (regionId : ℕ) (name : String) (scorepId : ℕ) :
    insertRecord regions s ⟨regionId, name, scorepId, 0⟩ = .ok ({ s.1 with
      tree := reassignScorepID s.1.tree 0 ⟨regionId, name, scorepId, 0⟩ }, 0) := by
  obtain ⟨agent, node⟩ := s
  rw [insertRecord, if_pos rfl]
  rfl

theorem InsertsThreads.insertNode {forest : CallForest} {s s' : Agent × ℕ} {nodes : List ℕ}
    (h : InsertsThreads regions forest s nodes s') :
    insertNode regions (forest.preorder 0) s = .ok s' := by
  induction h with
  | nil => rfl
  | cons hroot hchildren _ ih =>
    have hrun := hchildren.insertNode
    rw [Rtstree.insertNode] at hrun ih ⊢
    rw [CallForest.preorder, List.foldlM_cons, insertRecord_root, Outcome.ok_bind, ← hroot,
      List.foldlM_append, hrun, Outcome.ok_bind, ih]

theorem InsertsThreads.grown {forest : CallForest} {s s' : Agent × ℕ} {nodes : List ℕ}
    (h : InsertsThreads regions forest s nodes s') (hsound : s.1.Sound) :
    s'.1.Sound ∧ Grown s.1.tree s'.1.tree nodes := by
  induction h with
  | nil s => exact ⟨hsound, Grown.refl s.1.tree⟩
  | @cons scorepId regionId name _ _ s _ _ _ _ _ hroot hchildren _ ih =>
    subst hroot
    have hbelow := hchildren.grown (sound_reassignScorepID hsound 0 _)
    have hbeside := ih hbelow.1
    exact ⟨hbeside.1, ((grown_reassignScorepID s.1.tree 0 _).trans hbelow.2).trans hbeside.2⟩

theorem exists_insertsThreads (forest : CallForest) :
    ∀ {s : Agent × ℕ}, s.1.Sound → forest.ids.Nodup → 0 ∉ forest.ids → Known regions forest →
      ∃ places s', InsertsThreads regions forest s places s' := by
  induction forest with
  | nil => exact fun {s} _ _ _ _ => ⟨[], s, .nil s⟩
  | cons scorepId name regionId children siblings ihchildren ihsiblings =>
    intro s hsound hnodup hzero hknown
    simp only [CallForest.ids, List.mem_cons, List.mem_append, not_or] at hzero
    simp only [CallForest.ids, List.nodup_cons, List.mem_append, not_or, List.nodup_append] at hnodup
    simp only [Known, CallForest.regionIds, List.mem_cons, List.mem_append] at hknown
    have hsound₁ := sound_reassignScorepID hsound 0 ⟨regionId, name, scorepId, 0⟩
    obtain ⟨s₁, hs₁⟩ : ∃ s₁ : Agent × ℕ, s₁ = ({ s.1 with
      tree := reassignScorepID s.1.tree 0 ⟨regionId, name, scorepId, 0⟩ }, 0) := ⟨_, rfl⟩
    have hid₁ : idOf s₁.1.tree s₁.2 = some scorepId :=
      hs₁ ▸ idOf_reassignScorepID hsound.rooted.nonempty _
    have hnode : s₁.2 = 0 := by rw [hs₁]
    have hsoundHere : s₁.1.Sound := hs₁ ▸ hsound₁
    obtain ⟨places₂, s₂, hins₂⟩ := exists_inserts_here children hsoundHere hid₁ (Ne.symm hzero.1)
      (List.nodup_cons.mpr ⟨hnodup.1.1, hnodup.2.1⟩) hzero.2.1
      (fun r hr => hknown r (.inr (.inl hr)))
    obtain ⟨places₃, s₃, hins₃⟩ := @ihsiblings s₂ (hins₂.grown hsoundHere).1 hnodup.2.2.1 hzero.2.2
      (fun r hr => hknown r (.inr (.inr hr)))
    exact ⟨_, s₃, .cons hs₁ (hnode ▸ hins₂) hins₃⟩

theorem InsertsThreads.merged {forest : CallForest} {s s' : Agent × ℕ} {nodes : List ℕ}
    (h : InsertsThreads regions forest s nodes s') (hsound : s.1.Sound)
    (hmeet : Outcome.StepsMeet Recognised (insertRecord regions) (forest.preorder 0) s) :
    Merged s.1 s'.1 [] forest.callPaths ∧
      (Outcome.StepsMeet Enterable (insertRecord regions) (forest.preorder 0) s →
        Resolved s'.1 [] forest.callPaths) := by
  induction h with
  | nil s => exact ⟨Merged.refl hsound [], fun _ call hcall => absurd hcall List.not_mem_nil⟩
  | @cons scorepId regionId name children siblings s s₁ s₂ s₃ nodes nodes' hroot hchildren
      hsiblings ih =>
    have hrecord := @insertRecord_root regions s regionId name scorepId
    rw [← hroot] at hrecord
    have hname : nameOf s.1.tree 0 = some name := hmeet.1
    have hmerged₁ : Merged s.1 s₁.1 [] [(scorepId, [name])] :=
      hroot ▸ reassignRoot_merged ⟨regionId, name, scorepId, 0⟩ hsound hname
    have hpath₁ : CallPath s₁.1.tree 0 [name] := hmerged₁.kept 0 _ (callPath_root hname)
    have hmeet₁ := Outcome.StepsMeet.append (hmeet.2 _ hrecord)
    obtain ⟨hmerged₂, hresolved₂⟩ := hchildren.merged hmerged₁.sound hpath₁ hmeet₁.1
    obtain ⟨hmerged₃, hresolved₃⟩ := ih hmerged₂.sound (hmeet₁.2 _ hchildren.insertNode)
    have hmerged₂' : Merged s₁.1 s₂.1 ([] ++ [name]) children.callPaths := hmerged₂
    refine ⟨(hmerged₁.trans hmerged₂'.below).trans hmerged₃, fun henter => ?_⟩
    have henter₁ := Outcome.StepsMeet.append (henter.2 _ hrecord)
    have h₀ : Resolved s₁.1 [] [(scorepId, [name])] := by
      intro call hcall
      rw [List.mem_singleton.mp hcall]
      have hentered : s.1.scorepidToRts.get? scorepId = some 0 := henter.1
      exact ⟨0, hmerged₁.mapped _ 0 hentered, hpath₁⟩
    have h₂ : Resolved s₂.1 ([] ++ [name]) children.callPaths := hresolved₂ henter₁.1
    exact (((h₀.mono hmerged₂').append h₂.below).mono hmerged₃).append
      (hresolved₃ (henter₁.2 _ hchildren.insertNode))

end Threads
end ReadexPtf.Rtstree
