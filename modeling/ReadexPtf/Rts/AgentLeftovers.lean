import ReadexPtf.Rts.AgentRuns

/-! Ids that earlier buffers have left at the nodes: what a record is taken for, told from the
tree before the insertion. -/
namespace ReadexPtf.Rtstree
open ReadexPtf

/-- The call paths of a forest below a call path. -/
def CallForest.pathsBelow (base : List String) (forest : CallForest) : List (List String) :=
  forest.callPaths.map fun call => base ++ call.2

theorem CallForest.pathsBelow_cons (base : List String) (scorepId regionId : ℕ) (name : String)
    (children siblings : CallForest) :
    (CallForest.cons scorepId name regionId children siblings).pathsBelow base =
      (base ++ [name]) :: (children.pathsBelow (base ++ [name]) ++ siblings.pathsBelow base) := by
  simp [pathsBelow, callPaths, Function.comp_def]

section Conditions
variable (tree : Cells Rts)

/-- The child that a record is taken for, if the tree has had it before the insertion. A child
that a record has been to has the id of that record. -/
def takenFor (visited : List (List String)) (base : List String) (scorepId : ℕ) (name : String)
    (p : ℕ) : Option ℕ :=
  (tree.childrenOf p).find? fun c => (dataOf tree c).any fun child =>
    child.regionName == name ||
      (child.scorepId == scorepId && !visited.contains (base ++ [child.regionName]))

/-- No record below the call path `base` is taken for a node of another name, when the records
with the call paths `visited` have been inserted before. -/
def Fits : CallForest → List (List String) → List String → Prop
  | .nil, _, _ => True
  | .cons scorepId name _ children siblings, visited, base =>
    (∀ p, CallPath tree p base → ∀ c, takenFor tree visited base scorepId name p = some c →
      nameOf tree c = some name) ∧
    Fits children (visited ++ [base ++ [name]]) (base ++ [name]) ∧
    Fits siblings (visited ++ (base ++ [name]) :: children.pathsBelow (base ++ [name])) base

/-- The same for the trees of all threads, whose roots have the name of the root. -/
def FitsThreads : CallForest → List (List String) → Prop
  | .nil, _ => True
  | .cons _ name _ children siblings, visited =>
    nameOf tree 0 = some name ∧ Fits tree children (visited ++ [[name]]) [name] ∧
      FitsThreads siblings (visited ++ [name] :: children.pathsBelow [name])

end Conditions

/-- What has become of a tree when the records `visited` have been inserted: their nodes have
their ids, and all other nodes those from before. -/
structure Seen (tree : Cells Rts) (visited : List (ℕ × List String)) (agent : Agent) : Prop where
  sound : agent.Sound
  grown : ∃ nodes, Grown tree agent.tree nodes
  seen : ∀ a path, CallPath agent.tree a path → path ∈ visited.map Prod.snd →
    ∃ k ∈ visited.map Prod.fst, idOf agent.tree a = some k
  unseen : ∀ a path, CallPath agent.tree a path → path ∉ visited.map Prod.snd →
    a < tree.length ∧ idOf agent.tree a = idOf tree a

theorem exists_idOf {tree : Cells Rts} {a : ℕ} (ha : a < tree.length) :
    ∃ k, idOf tree a = some k := by
  rw [idOf, dataOf, List.getElem?_eq_getElem ha]
  exact ⟨_, rfl⟩

/-- A record has gone to a node: `name` is new in the ids of the tree at `c` only. -/
theorem Seen.visit {tree : Cells Rts} {visited : List (ℕ × List String)} {agent agent' : Agent}
    {c k : ℕ} {path : List String} {nodes : List ℕ} (h : Seen tree visited agent)
    (hsound : agent'.Sound) (hgrown : Grown agent.tree agent'.tree nodes)
    (hpath : CallPath agent'.tree c path) (hid : idOf agent'.tree c = some k)
    (hids : ∀ a k, a ≠ c → idOf agent.tree a = some k → idOf agent'.tree a = some k)
    (hpaths : ∀ a path, a ≠ c → CallPath agent'.tree a path → CallPath agent.tree a path) :
    Seen tree (visited ++ [(k, path)]) agent' := by
  obtain ⟨before, hbefore⟩ := h.grown
  refine ⟨hsound, ⟨before ++ nodes, hbefore.trans hgrown⟩, fun a path' ha hmem => ?_,
    fun a path' ha hmem => ?_⟩
  · rw [List.map_append, List.mem_append, List.map_singleton, List.mem_singleton] at hmem
    simp only [List.map_append, List.map_cons, List.map_nil, List.mem_append, List.mem_singleton]
    by_cases hc : a = c
    · exact ⟨k, .inr rfl, hc ▸ hid⟩
    · cases hmem with
      | inl hin =>
        obtain ⟨k', hk', hidk⟩ := h.seen a path' (hpaths a path' hc ha) hin
        exact ⟨k', .inl hk', hids a k' hc hidk⟩
      | inr heq => exact absurd (ha.injective hsound.distinct (heq ▸ hpath)) hc
  · rw [List.map_append, List.mem_append, List.map_singleton, List.mem_singleton, not_or] at hmem
    have hc : a ≠ c := by
      intro heq
      exact hmem.2 ((heq ▸ ha).functional hsound.rooted hpath)
    obtain ⟨hlt, hsame⟩ := h.unseen a path' (hpaths a path' hc ha) hmem.1
    obtain ⟨k', hk'⟩ := exists_idOf hlt
    exact ⟨hlt, (hids a k' hc (hsame.trans hk')).trans hk'.symm⟩

section Trees
variable {tree tree' : Cells Rts}

theorem Grown.callPath {nodes : List ℕ} (h : Grown tree tree' nodes) {a : ℕ} {path : List String}
    (hpath : CallPath tree a path) : CallPath tree' a path := by
  have hnames : ∀ a cell, tree[a]? = some cell → nameOf tree' a = some cell.data.regionName := by
    intro a cell hcell
    apply h.names
    rw [nameOf, dataOf, hcell]
    rfl
  induction hpath with
  | root cell hcell => exact callPath_root (hnames 0 cell hcell)
  | child p c path cell _ hchild hcell ih =>
    exact callPath_child ih (h.child hchild) (hnames c cell hcell)

/-- A child that the tree has had before was a child of the same node. -/
theorem Grown.child_before {nodes : List ℕ} (h : Grown tree tree' nodes) (hr : tree.Rooted)
    (hr' : tree'.Rooted) {p c : ℕ} (hc : c ∈ tree'.childrenOf p) (hlt : c < tree.length) :
    c ∈ tree.childrenOf p := by
  have hne : c ≠ 0 := by
    intro heq
    exact hr'.not_child_root (heq ▸ hc)
  obtain ⟨q, -, -, hq⟩ := hr.up c tree[c] (List.getElem?_eq_getElem hlt) hne
  have hsame := parentOf_of_child hr' (h.child hq)
  rw [parentOf_of_child hr' hc, Option.some.injEq] at hsame
  exact hsame ▸ hq

end Trees

section Recognition
variable {tree : Cells Rts} {visited : List (ℕ × List String)} {agent : Agent}

theorem findNode_eq (tree : Cells Rts) (p : ℕ) (record : CallTreeDef) :
    findNode tree p record = (tree.childrenOf p).find? fun c => (dataOf tree c).any fun child =>
      child.scorepId == record.scorepId || child.regionName == record.name := by
  rw [findNode]
  congr 1
  funext c
  cases dataOf tree c <;> rfl

/-- A child from before is taken for the record as it would have been in the tree before. -/
theorem Seen.taken_eq (h : Seen tree visited agent) {p c scorepId : ℕ} {base : List String}
    (name : String) (hr : tree.Rooted) (hbase : CallPath tree p base) (hc : c ∈ tree.childrenOf p)
    (hid : scorepId ∉ visited.map Prod.fst) :
    ((dataOf agent.tree c).any fun child => child.scorepId == scorepId || child.regionName == name) =
      (dataOf tree c).any fun child => child.regionName == name ||
        (child.scorepId == scorepId &&
          !(visited.map Prod.snd).contains (base ++ [child.regionName])) := by
  obtain ⟨before, hgrown⟩ := h.grown
  obtain ⟨cell, hcell, -⟩ := hr.down p c hc
  have hdata : dataOf tree c = some cell.data := by
    rw [dataOf, hcell]
    rfl
  have hname : nameOf tree c = some cell.data.regionName := by rw [nameOf, hdata, Option.map_some]
  obtain ⟨child, hchild, hsame⟩ := Option.map_eq_some_iff.mp (hgrown.names c _ hname)
  have hpath := hgrown.callPath (callPath_child hbase hc hname)
  rw [hdata, hchild, Option.any_some, Option.any_some, hsame]
  by_cases hin : base ++ [cell.data.regionName] ∈ visited.map Prod.snd
  · obtain ⟨k, hk, hidk⟩ := h.seen c _ hpath hin
    rw [idOf, hchild, Option.map_some, Option.some.injEq] at hidk
    have hne : child.scorepId ≠ scorepId := by
      intro heq
      exact hid (heq ▸ hidk ▸ hk)
    rw [List.contains_iff_mem.mpr hin, beq_eq_false_iff_ne.mpr hne]
    simp
  · obtain ⟨-, hidc⟩ := h.unseen c _ hpath hin
    rw [idOf, hchild, idOf, hdata, Option.map_some, Option.map_some, Option.some.injEq] at hidc
    have hnot : (visited.map Prod.snd).contains (base ++ [cell.data.regionName]) = false := by
      rw [← Bool.not_eq_true, List.contains_iff_mem]
      exact hin
    rw [hidc, hnot, Bool.not_false, Bool.and_true, Bool.or_comm]

/-- Whether a record is taken for a node of another name shows in the tree before. -/
theorem Seen.recognised_iff (h : Seen tree visited agent) (hr : tree.Rooted) {p : ℕ}
    {base : List String} (hbase : CallPath agent.tree p base) (record : CallTreeDef)
    (hid : record.scorepId ∉ visited.map Prod.fst) :
    (∀ c, findNode agent.tree p record = some c → nameOf agent.tree c = some record.name) ↔
      ∀ q, CallPath tree q base → ∀ c,
        takenFor tree (visited.map Prod.snd) base record.scorepId record.name q = some c →
          nameOf tree c = some record.name := by
  obtain ⟨before, hgrown⟩ := h.grown
  obtain ⟨added, -, hchildren⟩ := hgrown.children p
  have hhere : ∀ q, CallPath tree q base → q = p := fun q hq =>
    (hgrown.callPath hq).injective h.sound.distinct hbase
  have htaken : ∀ q, CallPath tree q base → (tree.childrenOf p).find? (fun c =>
      (dataOf agent.tree c).any fun child =>
        child.scorepId == record.scorepId || child.regionName == record.name) =
      takenFor tree (visited.map Prod.snd) base record.scorepId record.name p := by
    intro q hq
    obtain rfl := hhere q hq
    exact List.find?_congr fun c hc => h.taken_eq record.name hr hq hc hid
  have hpathOf : ∀ c, c ∈ tree.childrenOf p → CallPath tree p base := by
    intro c hc
    obtain ⟨path, hpath⟩ : ∃ path, CallPath tree p path := by
      have hlt := hr.child_lt hc
      exact hr.exists_path p (by omega)
    rwa [hbase.functional h.sound.rooted (hgrown.callPath hpath)]
  rw [findNode_eq, hchildren, List.find?_append]
  constructor
  · intro hall q hq c hc
    obtain rfl := hhere q hq
    rw [htaken q hq, hc] at hall
    have hname := hall c rfl
    obtain ⟨cell, hcell, -⟩ := hr.down q c (List.mem_of_find?_eq_some hc)
    have hold : nameOf tree c = some cell.data.regionName := by
      rw [nameOf, dataOf, hcell]
      rfl
    rw [hold, ← hname, hgrown.names c _ hold]
  · intro hall c hc
    cases hfind : (tree.childrenOf p).find? fun c => (dataOf agent.tree c).any fun child =>
        child.scorepId == record.scorepId || child.regionName == record.name with
    | some c' =>
      rw [hfind, Option.some_or] at hc
      obtain rfl := Option.some.inj hc
      have hq := hpathOf _ (List.mem_of_find?_eq_some hfind)
      exact hgrown.names c' _ (hall p hq c' ((htaken p hq).symm.trans hfind))
    | none =>
      rw [hfind, Option.none_or] at hc
      have hmem : c ∈ agent.tree.childrenOf p := by
        rw [hchildren]
        exact List.mem_append_right _ (List.mem_of_find?_eq_some hc)
      have htrue := List.find?_some hc
      obtain ⟨child, hchild, hmatch⟩ := (Option.any_eq_true _ _).mp htrue
      rw [Bool.or_eq_true, beq_iff_eq, beq_iff_eq] at hmatch
      have hname : nameOf agent.tree c = some child.regionName := by
        rw [nameOf, hchild, Option.map_some]
      cases hmatch with
      | inr hsame => rw [hname, hsame]
      | inl hsame =>
        -- a child with the id of the record is one from before that no record has been to
        have hidc : idOf agent.tree c = some record.scorepId := by
          rw [idOf, hchild, Option.map_some, hsame]
        have hpath := callPath_child hbase hmem hname
        by_cases hin : base ++ [child.regionName] ∈ visited.map Prod.snd
        · obtain ⟨k, hk, hidk⟩ := h.seen c _ hpath hin
          rw [hidc, Option.some.injEq] at hidk
          exact absurd (hidk ▸ hk) hid
        · have hbefore := hgrown.child_before hr h.sound.rooted hmem (h.unseen c _ hpath hin).1
          exact absurd htrue (List.find?_eq_none.mp hfind c hbefore)

end Recognition

/-- The ids of a forest with the call paths below a call path. -/
def CallForest.callsBelow (base : List String) (forest : CallForest) : List (ℕ × List String) :=
  forest.callPaths.map fun call => (call.1, base ++ call.2)

theorem CallForest.callsBelow_cons (base : List String) (scorepId regionId : ℕ) (name : String)
    (children siblings : CallForest) :
    (CallForest.cons scorepId name regionId children siblings).callsBelow base =
      (scorepId, base ++ [name]) ::
        (children.callsBelow (base ++ [name]) ++ siblings.callsBelow base) := by
  simp [callsBelow, callPaths, Function.comp_def]

theorem CallForest.map_snd_callsBelow (base : List String) (forest : CallForest) :
    (forest.callsBelow base).map Prod.snd = forest.pathsBelow base := by
  simp [callsBelow, pathsBelow, Function.comp_def]

theorem CallForest.map_fst_callsBelow (forest : CallForest) : ∀ base : List String,
    (forest.callsBelow base).map Prod.fst = forest.ids := by
  induction forest with
  | nil => exact fun base => rfl
  | cons scorepId name regionId children siblings ihchildren ihsiblings =>
    intro base
    rw [callsBelow_cons, List.map_cons, List.map_append, ihchildren, ihsiblings, ids]

section Forests
variable {regions : RegionMapping} {tree : Cells Rts}

/-- The induction is on the insertion; a record that is recognised has gone to its call path, and
those after it find its id there. -/
theorem Inserts.recognised_iff {pid p : ℕ} {forest : CallForest} {s s' : Agent × ℕ}
    {nodes : List ℕ} (h : Inserts regions pid p forest s nodes s') (hr : tree.Rooted)
    {visited : List (ℕ × List String)} {base : List String} (hseen : Seen tree visited s.1)
    (hbase : CallPath s.1.tree p base) (hnodup : (visited.map Prod.fst ++ forest.ids).Nodup) :
    (Outcome.StepsMeet Recognised (insertRecord regions) (forest.preorder pid) s ↔
        Fits tree forest (visited.map Prod.snd) base) ∧
      (Outcome.StepsMeet Recognised (insertRecord regions) (forest.preorder pid) s →
        Seen tree (visited ++ forest.callsBelow base) s'.1) := by
  induction h generalizing visited base with
  | nil pid p s =>
    refine ⟨Iff.rfl, fun _ => ?_⟩
    rw [CallForest.callsBelow, CallForest.callPaths, List.map_nil, List.append_nil]
    exact hseen
  | @cons pid p scorepId regionId name children siblings s s₁ s₂ s₃ nodes nodes' hparent henclosing
      hrecord hchildren hsiblings ihchildren ihsiblings =>
    have hplaced := insertRecord_placed hseen.sound hparent henclosing hrecord
    have hid : scorepId ∉ visited.map Prod.fst := by
      intro hin
      have hdisjoint := (List.nodup_append.mp hnodup).2.2
      exact hdisjoint scorepId hin scorepId List.mem_cons_self rfl
    have hhere : Recognised s ⟨regionId, name, scorepId, pid⟩ ↔ ∀ q, CallPath tree q base → ∀ c,
        takenFor tree (visited.map Prod.snd) base scorepId name q = some c →
          nameOf tree c = some name := by
      rw [← hseen.recognised_iff hr hbase ⟨regionId, name, scorepId, pid⟩ hid, Recognised,
        if_neg hparent]
      exact ⟨fun h => h p henclosing, fun h q hq =>
        Outcome.ok.inj (henclosing.symm.trans hq) ▸ h⟩
    have hids : (visited ++ [(scorepId, base ++ [name])]).map Prod.fst ++
        (children.ids ++ siblings.ids) =
        visited.map Prod.fst ++ (scorepId :: (children.ids ++ siblings.ids)) := by
      rw [List.map_append, List.append_assoc]
      rfl
    have hbeside := (hchildren.grown hplaced.sound).2
    -- what holds where the first record is recognised
    have hfirst : Recognised s ⟨regionId, name, scorepId, pid⟩ →
        Seen tree (visited ++ [(scorepId, base ++ [name])]) s₁.1 ∧
          CallPath s₁.1.tree s₁.2 (base ++ [name]) := by
      intro hrecognised
      obtain ⟨hinserted, -⟩ :=
        insertRecord_inserted hseen.sound hparent henclosing hrecord hrecognised
      have hpath := (hinserted.merged hbase hseen.sound.rooted).2
      refine ⟨hseen.visit hplaced.sound hplaced.grown hpath hinserted.id hinserted.ids
        fun a path hne ha => ?_, hpath⟩
      exact ((hinserted.paths a path).mp ha).resolve_right fun hnew => hne hnew.1
    have hnodups : ((visited ++ [(scorepId, base ++ [name])]).map Prod.fst ++ children.ids).Nodup ∧
        ((visited ++ [(scorepId, base ++ [name])] ++ children.callsBelow (base ++ [name])).map
          Prod.fst ++ siblings.ids).Nodup := by
      rw [CallForest.ids, ← hids, ← List.append_assoc] at hnodup
      have hfst : (visited ++ [(scorepId, base ++ [name])] ++
          children.callsBelow (base ++ [name])).map Prod.fst =
          (visited ++ [(scorepId, base ++ [name])]).map Prod.fst ++ children.ids := by
        rw [List.map_append, CallForest.map_fst_callsBelow]
      exact ⟨(List.nodup_append.mp hnodup).1, hfst ▸ hnodup⟩
    have hbelow := fun hrecognised => ihchildren (hfirst hrecognised).1 (hfirst hrecognised).2
      hnodups.1
    have hsiblings := fun hrecognised hmeet => ihsiblings ((hbelow hrecognised).2 hmeet)
      (hbeside.callPath (hplaced.grown.callPath hbase)) hnodups.2
    have hvisited : (visited ++ [(scorepId, base ++ [name])]).map Prod.snd =
        visited.map Prod.snd ++ [base ++ [name]] := by
      rw [List.map_append]
      rfl
    rw [CallForest.preorder, Outcome.StepsMeet.cons_iff hrecord,
      Outcome.StepsMeet.append_iff hchildren.insertNode, hhere, Fits]
    refine ⟨and_congr_right fun hfits => ?_, fun hmeet => ?_⟩
    · have hrecognised := hhere.mpr hfits
      rw [← hvisited, ← (hbelow hrecognised).1]
      refine and_congr_right fun hmeet => ?_
      rw [(hsiblings hrecognised hmeet).1, List.map_append, hvisited,
        CallForest.map_snd_callsBelow, List.append_assoc]
      rfl
    · have hrecognised := hhere.mpr hmeet.1
      have hend := (hsiblings hrecognised hmeet.2.1).2 hmeet.2.2
      rw [CallForest.callsBelow_cons]
      simpa only [List.append_assoc, List.cons_append, List.nil_append] using hend

theorem Seen.nameOf_root {visited : List (ℕ × List String)} {agent : Agent}
    (h : Seen tree visited agent) (hr : tree.Rooted) : nameOf agent.tree 0 = nameOf tree 0 := by
  obtain ⟨nodes, hgrown⟩ := h.grown
  obtain ⟨cell, hcell, -⟩ := hr.root
  have hname : nameOf tree 0 = some cell.data.regionName := by
    rw [nameOf, dataOf, hcell]
    rfl
  rw [hname, hgrown.names 0 _ hname]

theorem InsertsThreads.recognised_iff {forest : CallForest} {s s' : Agent × ℕ} {nodes : List ℕ}
    (h : InsertsThreads regions forest s nodes s') (hr : tree.Rooted)
    {visited : List (ℕ × List String)} (hseen : Seen tree visited s.1)
    (hnodup : (visited.map Prod.fst ++ forest.ids).Nodup) :
    Outcome.StepsMeet Recognised (insertRecord regions) (forest.preorder 0) s ↔
      FitsThreads tree forest (visited.map Prod.snd) := by
  induction h generalizing visited with
  | nil s => exact Iff.rfl
  | @cons scorepId regionId name children siblings s s₁ s₂ s₃ nodes nodes' hroot hchildren
      hsiblings ih =>
    have hrecord := @insertRecord_root regions s regionId name scorepId
    rw [← hroot] at hrecord
    have hhere : Recognised s ⟨regionId, name, scorepId, 0⟩ ↔ nameOf tree 0 = some name := by
      rw [← hseen.nameOf_root hr]
      exact Iff.rfl
    rw [CallForest.preorder, Outcome.StepsMeet.cons_iff hrecord,
      Outcome.StepsMeet.append_iff hchildren.insertNode, hhere, FitsThreads]
    refine and_congr_right fun hname => ?_
    have hsound₁ : s₁.1.Sound := hroot ▸ sound_reassignScorepID hseen.sound 0 _
    have hgrown₁ : Grown s.1.tree s₁.1.tree [0] := hroot ▸ grown_reassignScorepID s.1.tree 0 _
    have hpath₁ : CallPath s₁.1.tree 0 [name] :=
      callPath_root (hgrown₁.names 0 name ((hseen.nameOf_root hr).trans hname))
    have hid₁ : idOf s₁.1.tree 0 = some scorepId :=
      hroot ▸ idOf_reassignScorepID hseen.sound.rooted.nonempty _
    have hseen₁ : Seen tree (visited ++ [(scorepId, [name])]) s₁.1 := by
      apply hseen.visit hsound₁ hgrown₁ hpath₁ hid₁
      · intro a k hne hk
        rw [hroot]
        exact (idOf_reassignScorepID_ne (Ne.symm hne) _).trans hk
      · intro a path _ ha
        rw [hroot] at ha
        exact ha.of_skeleton (skeleton_reassignScorepID s.1.tree 0 _)
    have hids : (visited ++ [(scorepId, [name])]).map Prod.fst ++ (children.ids ++ siblings.ids) =
        visited.map Prod.fst ++ (scorepId :: (children.ids ++ siblings.ids)) := by
      rw [List.map_append, List.append_assoc]
      rfl
    have hnodups : ((visited ++ [(scorepId, [name])]).map Prod.fst ++ children.ids).Nodup ∧
        ((visited ++ [(scorepId, [name])] ++ children.callsBelow [name]).map Prod.fst ++
          siblings.ids).Nodup := by
      rw [CallForest.ids, ← hids, ← List.append_assoc] at hnodup
      have hfst : (visited ++ [(scorepId, [name])] ++ children.callsBelow [name]).map Prod.fst =
          (visited ++ [(scorepId, [name])]).map Prod.fst ++ children.ids := by
        rw [List.map_append, CallForest.map_fst_callsBelow]
      exact ⟨(List.nodup_append.mp hnodup).1, hfst ▸ hnodup⟩
    obtain ⟨hiff, hnext⟩ := hchildren.recognised_iff hr hseen₁ hpath₁ hnodups.1
    have hvisited : (visited ++ [(scorepId, [name])]).map Prod.snd =
        visited.map Prod.snd ++ [[name]] := by
      rw [List.map_append]
      rfl
    rw [← hvisited, ← hiff]
    refine and_congr_right fun hmeet => ?_
    rw [ih (hnext hmeet) hnodups.2, List.map_append, hvisited, CallForest.map_snd_callsBelow,
      List.append_assoc]
    rfl

end Forests
end ReadexPtf.Rtstree
