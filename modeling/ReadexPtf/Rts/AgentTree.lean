import ReadexPtf.Rts.Node

/-! The call-tree of the analysis agent: the call-tree buffers of the processes are merged
into one tree, in which a mapping from the Score-P ids finds the nodes. -/
namespace ReadexPtf.Rtstree
open ReadexPtf

/-- The call-trees of the threads of one process: a first tree and the trees after it. -/
inductive CallForest where
  | nil
  | cons (scorepId : ℕ) (name : String) (regionId : ℕ) (children siblings : CallForest)

namespace CallForest

/-- The records in the order they are in a buffer; 0 is the parent id of a root. -/
def preorder (parentScorepId : ℕ) : CallForest → List CallTreeDef
  | nil => []
  | cons scorepId name regionId children siblings =>
    ⟨regionId, name, scorepId, parentScorepId⟩ ::
      (children.preorder scorepId ++ siblings.preorder parentScorepId)

def ids : CallForest → List ℕ
  | nil => []
  | cons scorepId _ _ children siblings => scorepId :: (children.ids ++ siblings.ids)

def regionIds : CallForest → List ℕ
  | nil => []
  | cons _ _ regionId children siblings => regionId :: (children.regionIds ++ siblings.regionIds)

/-- The id of each record with its call path. -/
def callPaths : CallForest → List (ℕ × List String)
  | nil => []
  | cons scorepId name _ children siblings =>
    (scorepId, [name]) :: (children.callPaths.map (fun call => (call.1, name :: call.2)) ++
      siblings.callPaths)

end CallForest

/-- The keys of the regions with the ids that the process has for them. -/
abbrev RegionMapping := List (ℕ × List ℕ)

/-- The last entry with the region id wins; without one `ptf_id` is read uninitialised. -/
def ptfId (scorepRegionidMapping : RegionMapping) (regionId : ℕ) : Outcome ℕ :=
  Outcome.found (((scorepRegionidMapping.filter fun e => e.2.contains regionId).getLast?).map
    Prod.fst)

/-- What an agent gets from a process: ids are unique and not 0, and the regions are known. -/
structure CallTreeBuffer where
  forest : CallForest
  regions : RegionMapping
  nonempty : forest ≠ .nil
  unique : forest.ids.Nodup
  nonzero : 0 ∉ forest.ids
  known : ∀ regionId ∈ forest.regionIds, ∃ key, ptfId regions regionId = .ok key

structure Agent where
  tree : Cells Rts
  rtsToSerialize : List ℕ
  scorepidToRts : OrdMap ℕ ℕ
  rtsCallpath : OrdMap ℕ String

section Insertion
variable (regions : RegionMapping)

/-- The calls `insertNode( node->parent, … )` until the parent of the record is found. -/
def enclosing (tree : Cells Rts) (parentScorepId : ℕ) : ℕ → ℕ → Outcome ℕ
  | 0, _ => .undefined
  | depth + 1, node => do
    let cell ← Outcome.found tree[node]?
    if parentScorepId = cell.data.scorepId then return node
    else enclosing tree parentScorepId depth (← Outcome.found cell.parent)

/-- The first child with the id or with the name of the new node. -/
def findNode (tree : Cells Rts) (node : ℕ) (newnode : CallTreeDef) : Option ℕ :=
  (tree.childrenOf node).find? fun c =>
    match dataOf tree c with
    | none => false
    | some child => child.scorepId == newnode.scorepId || child.regionName == newnode.name

def reassignScorepID (tree : Cells Rts) (returnval : ℕ) (newnode : CallTreeDef) : Cells Rts :=
  tree.write returnval fun data => { data with
    scorepId := newnode.scorepId, parentScorepId := newnode.parentScorepId }

/-- `insertNode` for one record. A chain of parents is not longer than the tree. -/
def insertRecord : Agent × ℕ → CallTreeDef → Outcome (Agent × ℕ)
  | (agent, node), record =>
    if record.parentScorepId = 0 then
      return ({ agent with tree := reassignScorepID agent.tree 0 record }, 0)
    else do
      let node ← enclosing agent.tree record.parentScorepId agent.tree.length node
      let rtsRegion ← ptfId regions record.regionId
      match findNode agent.tree node record with
      | some returnval =>
        return ({ agent with
          tree := reassignScorepID agent.tree returnval record
          scorepidToRts := agent.scorepidToRts.insertNew record.scorepId returnval }, returnval)
      | none =>
        let newnode := agent.tree.length
        let data ← (Rts.ofRecord record rtsRegion).extractParameter newnode (dataOf agent.tree node)
        return ({ agent with
          tree := agent.tree.attach node data
          scorepidToRts := agent.scorepidToRts.insertNew record.scorepId newnode
          rtsToSerialize := agent.rtsToSerialize ++ [newnode] }, newnode)

def insertNode (buffer : List CallTreeDef) (s : Agent × ℕ) : Outcome (Agent × ℕ) :=
  buffer.foldlM (insertRecord regions) s

/-- The first record of a buffer is the root. -/
def assignRoot (agent : Agent) (record : CallTreeDef) (rtsRegion : ℕ) : Agent :=
  let agent :=
    if agent.tree = [] then
      { agent with
        tree := [⟨Rts.ofRecord record rtsRegion, none, []⟩]
        rtsToSerialize := agent.rtsToSerialize ++ [0] }
    else { agent with tree := reassignScorepID agent.tree 0 record }
  { agent with scorepidToRts := agent.scorepidToRts.insertNew record.scorepId 0 }

def addNodeInfo (agent : Agent) : Outcome Agent := do
  let (tree, rtsCallpath) ←
    setCallPaths agent.tree.length 0 [] (agent.tree, agent.rtsCallpath)
  return { agent with tree, rtsCallpath }

def constructAagentCalltree (agent : Agent) : List CallTreeDef → Outcome Agent
  | [] => .undefined
  | record :: buffer => do
    let rtsRegion ← ptfId regions record.regionId
    let (agent, _) ← insertNode regions buffer (assignRoot agent record rtsRegion, 0)
    let root ← Outcome.found (dataOf agent.tree 0)
    let root ← root.extractParameter 0 none
    addNodeInfo { agent with tree := agent.tree.write 0 fun _ => root }

end Insertion

section Facts

def nameOf (tree : Cells Rts) (a : ℕ) : Option String := (dataOf tree a).map Rts.regionName

def idOf (tree : Cells Rts) (a : ℕ) : Option ℕ := (dataOf tree a).map Rts.scorepId

/-- The names from the root to a node. -/
abbrev CallPath (tree : Cells Rts) (a : ℕ) (path : List String) : Prop :=
  Cells.PathTo Rts.regionName tree a path

theorem dataOf_write (tree : Cells Rts) (a b : ℕ) (f : Rts → Rts) :
    dataOf (tree.write a f) b = (dataOf tree b).map fun data => if a = b then f data else data := by
  rw [dataOf, dataOf, Cells.getElem?_write, Option.map_map, Option.map_map]
  congr 1
  funext cell
  simp only [Function.comp]
  split_ifs <;> rfl

theorem parentOf_write (tree : Cells Rts) (a b : ℕ) (f : Rts → Rts) :
    parentOf (tree.write a f) b = parentOf tree b := by
  rw [parentOf, parentOf, Cells.getElem?_write, Option.bind_map]
  congr 1
  funext cell
  simp only [Function.comp]
  split_ifs <;> rfl

theorem dataOf_attach_old (tree : Cells Rts) (p : ℕ) {a : ℕ} (data : Rts) (ha : a < tree.length) :
    dataOf (tree.attach p data) a = dataOf tree a := by
  rw [dataOf, dataOf, Cells.getElem?_attach_old _ _ _ _ ha, Option.map_map]
  congr 1
  funext cell
  simp only [Function.comp]
  split_ifs <;> rfl

theorem dataOf_attach_new (tree : Cells Rts) (p : ℕ) (data : Rts) :
    dataOf (tree.attach p data) tree.length = some data := by
  rw [dataOf, Cells.getElem?_attach_new]
  rfl

theorem lt_of_idOf {tree : Cells Rts} {a k : ℕ} (h : idOf tree a = some k) : a < tree.length := by
  by_contra hnot
  rw [idOf, dataOf, List.getElem?_eq_none (by omega)] at h
  exact absurd h (by simp)

theorem idOf_reassignScorepID {tree : Cells Rts} {a : ℕ} (ha : a < tree.length)
    (record : CallTreeDef) : idOf (reassignScorepID tree a record) a = some record.scorepId := by
  rw [idOf, reassignScorepID, dataOf_write, dataOf, List.getElem?_eq_getElem ha]
  simp

theorem idOf_reassignScorepID_ne {tree : Cells Rts} {a b : ℕ} (hne : a ≠ b)
    (record : CallTreeDef) : idOf (reassignScorepID tree a record) b = idOf tree b := by
  rw [idOf, idOf, reassignScorepID, dataOf_write]
  simp [hne]

theorem nameOf_reassignScorepID (tree : Cells Rts) (a b : ℕ) (record : CallTreeDef) :
    nameOf (reassignScorepID tree a record) b = nameOf tree b := by
  rw [nameOf, nameOf, reassignScorepID, dataOf_write, Option.map_map]
  congr 1
  funext data
  simp only [Function.comp]
  split_ifs <;> rfl

theorem skeleton_reassignScorepID (tree : Cells Rts) (a : ℕ) (record : CallTreeDef) :
    Cells.skeleton Rts.regionName (reassignScorepID tree a record) =
      Cells.skeleton Rts.regionName tree :=
  Cells.skeleton_write tree a _ fun _ => rfl

/-- The nodes from `node` up to `p`, without `p`. -/
inductive Below (tree : Cells Rts) (p : ℕ) : ℕ → List ℕ → Prop
  | here : Below tree p p []
  | up (node q : ℕ) (nodes : List ℕ) (hparent : parentOf tree node = some q)
      (hbelow : Below tree p q nodes) : Below tree p node (node :: nodes)

theorem Below.append {tree : Cells Rts} {p q node : ℕ} {nodes : List ℕ}
    (h : Below tree p node nodes) (hparent : parentOf tree p = some q) :
    Below tree q node (nodes ++ [p]) := by
  induction h with
  | here => exact .up p q [] hparent .here
  | up node r nodes hup _ ih => exact .up node r _ hup ih

theorem parent_lt {tree : Cells Rts} (hr : tree.Rooted) {a q : ℕ} (h : parentOf tree a = some q) :
    q < a ∧ a < tree.length := by
  obtain ⟨cell, hcell, hq⟩ := Option.bind_eq_some_iff.mp h
  have hlt := (List.getElem?_eq_some_iff.mp hcell).1
  by_cases hzero : a = 0
  · subst hzero
    obtain ⟨root, hroot, hnone⟩ := hr.root
    rw [Option.some.inj (hcell.symm.trans hroot), hnone] at hq
    exact absurd hq (by simp)
  · obtain ⟨p, hp, hlt', -⟩ := hr.up a cell hcell hzero
    rw [hq, Option.some.injEq] at hp
    exact ⟨hp ▸ hlt', hlt⟩

theorem Below.length_le {tree : Cells Rts} (hr : tree.Rooted) {p node : ℕ} {nodes : List ℕ}
    (h : Below tree p node nodes) : nodes.length + p ≤ node := by
  induction h with
  | here => simp
  | up node q nodes hup _ ih =>
    have := (parent_lt hr hup).1
    rw [List.length_cons]
    omega

/-- The parent of a record is the first node upwards that has the id. -/
theorem Below.enclosing {tree : Cells Rts} {p node k : ℕ} {nodes : List ℕ}
    (h : Below tree p node nodes) (hid : idOf tree p = some k)
    (hothers : ∀ a ∈ nodes, idOf tree a ≠ some k) :
    ∀ depth, nodes.length < depth → Rtstree.enclosing tree k depth node = .ok p := by
  induction h with
  | here =>
    intro depth hdepth
    obtain ⟨depth, rfl⟩ := Nat.exists_eq_succ_of_ne_zero (by omega : depth ≠ 0)
    obtain ⟨data, hdata, hk⟩ := Option.map_eq_some_iff.mp hid
    obtain ⟨cell, hcell, rfl⟩ := Option.map_eq_some_iff.mp hdata
    rw [Rtstree.enclosing, hcell]
    simp only [Outcome.found, Outcome.ok_bind]
    rw [if_pos hk.symm]
    rfl
  | up node q nodes hup hbelow ih =>
    intro depth hdepth
    obtain ⟨depth, rfl⟩ := Nat.exists_eq_succ_of_ne_zero (by omega : depth ≠ 0)
    obtain ⟨cell, hcell, hq⟩ := Option.bind_eq_some_iff.mp hup
    have hne : ¬ k = cell.data.scorepId := by
      intro heq
      apply hothers node List.mem_cons_self
      rw [idOf, dataOf, hcell, heq]
      rfl
    rw [Rtstree.enclosing, hcell]
    simp only [Outcome.found, Outcome.ok_bind, hq]
    rw [if_neg hne]
    rw [List.length_cons] at hdepth
    exact ih (fun a ha => hothers a (List.mem_cons_of_mem node ha)) depth (by omega)

end Facts
end ReadexPtf.Rtstree
