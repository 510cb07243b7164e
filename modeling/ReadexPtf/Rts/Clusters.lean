import ReadexPtf.Rts.AgentRuns
import ReadexPtf.Lib.Decimal

/-! The call-tree of a tuning model with clusters: `modifyTree` puts the forest below the
root under a node `Cluster=1`, and clones that node for every further cluster. -/
namespace ReadexPtf.Rtstree
open ReadexPtf

section Strings

/-- The characters of `Cluster=`. -/
def clusterKey : List Char := ['C', 'l', 'u', 's', 't', 'e', 'r', '=']

/-- The length of a match of `Cluster=\d+` at the start, or zero. -/
def clusterMatch (cs : List Char) : ℕ :=
  if clusterKey.isPrefixOf cs then
    match ((cs.drop 8).takeWhile Char.isDigit).length with
    | 0 => 0
    | digits + 1 => 8 + (digits + 1)
  else 0

/-- `std::regex_replace`; the first argument counts the characters that belong to the match
replaced last. -/
def replaceClusters (replaceStr : List Char) : ℕ → List Char → List Char
  | _, [] => []
  | skipped + 1, _ :: cs => replaceClusters replaceStr skipped cs
  | 0, c :: cs =>
    match clusterMatch (c :: cs) with
    | 0 => c :: replaceClusters replaceStr 0 cs
    | length + 1 => replaceStr ++ replaceClusters replaceStr length cs

def clusterName (clusterNum : ℕ) : String := "Cluster=" ++ toString clusterNum

def modifyString (target : String) (clusterNum : ℕ) : String :=
  .ofList (replaceClusters (clusterName clusterNum).toList 0 target.toList)

/-- `find( "Cluster=" ) != npos`. -/
def namesCluster (name : String) : Bool := name.toList.tails.any clusterKey.isPrefixOf

theorem toList_clusterName (clusterNum : ℕ) :
    (clusterName clusterNum).toList = clusterKey ++ Nat.toDigits 10 clusterNum := by
  simp [clusterName, clusterKey]

theorem replaceClusters_skipped (replaceStr cs : List Char) :
    replaceClusters replaceStr cs.length cs = [] := by
  induction cs with
  | nil => rfl
  | cons c cs ih => exact ih

theorem modifyString_clusterName (clusterNum next : ℕ) :
    modifyString (clusterName clusterNum) next = clusterName next := by
  obtain ⟨digits, hdigits⟩ : ∃ digits, digits = Nat.toDigits 10 clusterNum := ⟨_, rfl⟩
  have hall : digits.takeWhile Char.isDigit = digits := hdigits ▸ takeWhile_toDigits clusterNum
  have hne : digits ≠ [] := hdigits ▸ Nat.toDigits_ne_nil
  have hmatch : clusterMatch (clusterKey ++ digits) = (clusterKey ++ digits).length := by
    have hprefix : clusterKey.isPrefixOf (clusterKey ++ digits) := by
      rw [List.isPrefixOf_iff_prefix]
      exact List.prefix_append _ _
    have hdrop : (clusterKey ++ digits).drop 8 = digits := List.drop_left' rfl
    rw [clusterMatch, if_pos hprefix, hdrop, hall, List.length_append]
    cases digits with
    | nil => exact absurd rfl hne
    | cons d ds => rfl
  rw [modifyString, toList_clusterName clusterNum, ← hdigits]
  cases hchars : clusterKey ++ digits with
  | nil => exact absurd hchars (by simp [clusterKey])
  | cons c cs =>
    rw [hchars, List.length_cons] at hmatch
    rw [replaceClusters, hmatch]
    simp only
    rw [replaceClusters_skipped, List.append_nil, String.ofList_toList]

end Strings

section Cloning

/-- `Rts()`. The type is set before it is read. -/
def Rts.blank (regionName : String) : Rts where
  regionName
  scorepId := 0
  parentScorepId := 0
  rtsType := .regularRegion
  reg := none
  parameter := []
  callpathstring := ""
  isValidRts := false

/-- A clone of a node with another cluster number, below `parent`. -/
def copyData (node parent nextCluster : ℕ) (tree : Cells Rts) : Outcome (Cells Rts) := do
  let data ← Outcome.found (dataOf tree node)
  let clone : Rts := { Rts.blank (modifyString data.regionName nextCluster) with
    scorepId := data.scorepId, parentScorepId := data.parentScorepId }
  let clone ←
    if namesCluster clone.regionName then clone.extractParameter tree.length (dataOf tree parent)
    else .ok { clone with reg := data.reg, rtsType := .regularRegion }
  return tree.attach parent clone

def cloneTree (nextCluster : ℕ) : ℕ → ℕ → ℕ → Cells Rts → Outcome (Cells Rts)
  | 0, _, _, _ => .undefined
  | depth + 1, parent, node, tree => do
    let cloned ← copyData node parent nextCluster tree
    (cloned.childrenOf node).foldlM
      (fun cloned child => cloneTree nextCluster depth tree.length child cloned) cloned

/-- The new node of the first cluster takes the children, whose parent pointers stay. -/
def modifyNode (node currCluster : ℕ) (tree : Cells Rts) : Outcome (Cells Rts) := do
  let data ← Outcome.found (dataOf tree node)
  let newCluster ←
    (Rts.blank (clusterName currCluster)).extractParameter tree.length (some data)
  return (tree.modify node fun cell => { cell with children := [tree.length] }) ++
    [⟨{ newCluster with
        parentScorepId := data.scorepId
        callpathstring := modifyString data.callpathstring currCluster },
      some node, tree.childrenOf node⟩]

/-- The loop over the children of the root, which get more in each round. -/
def cloneClusters (root numClusters : ℕ) : ℕ → ℕ → ℕ → Cells Rts → Outcome (Cells Rts)
  | 0, _, _, _ => .undefined
  | rounds + 1, ch, nextCluster, tree =>
    match (tree.childrenOf root)[ch]? with
    | none => return tree
    | some child =>
      if nextCluster + 1 ≤ numClusters then do
        let tree ← cloneTree (nextCluster + 1) tree.length root child tree
        if nextCluster + 1 = numClusters then return tree
        else cloneClusters root numClusters rounds (ch + 1) (nextCluster + 1) tree
      else cloneClusters root numClusters rounds (ch + 1) (nextCluster + 1) tree

/-- The overload of `setCallPaths` without a mapping. -/
def setCallPathStrings (depth node : ℕ) (tree : Cells Rts) : Outcome (Cells Rts) := do
  let (tree, _) ← setCallPaths depth node [] (tree, .empty)
  return tree

def modifyTree (node numClusters : ℕ) (tree : Cells Rts) : Outcome (Cells Rts) := do
  let tree ← modifyNode node 1 tree
  let tree ← cloneClusters node numClusters (numClusters + 2) 0 1 tree
  setCallPathStrings (tree.length + 1) node tree

end Cloning

section Purpose

/-- A copy has the name, type and parameters of a node; it may inherit more parameters. -/
def Agrees (data copy : Rts) : Prop :=
  copy.regionName = data.regionName ∧ copy.rtsType = data.rtsType ∧
    (data.parameter.map fun p => (p.paramName, p.paramValue, p.paramType)) <:+
      copy.parameter.map fun p => (p.paramName, p.paramValue, p.paramType)

/-- The second forest is a copy of the first. -/
inductive SameForest (tree tree' : Cells Rts) : List ℕ → List ℕ → Prop
  | nil : SameForest tree tree' [] []
  | cons (a b : ℕ) (as bs : List ℕ) (data copy : Rts) : dataOf tree a = some data →
      dataOf tree' b = some copy → Agrees data copy →
      SameForest tree tree' (tree.childrenOf a) (tree'.childrenOf b) →
      SameForest tree tree' as bs → SameForest tree tree' (a :: as) (b :: bs)

/-- The root has a child for each cluster with a copy of the forest, and the parents fit. -/
structure Clustered (tree : Cells Rts) (numClusters : ℕ) (tree' : Cells Rts) : Prop where
  clusters : (tree'.childrenOf 0).map (nameOf tree') =
    (List.range numClusters).map fun i => some (clusterName (i + 1))
  copies : ∀ c ∈ tree'.childrenOf 0,
    SameForest tree tree' (tree.childrenOf 0) (tree'.childrenOf c)
  parents : ∀ x c, c ∈ tree'.childrenOf x → parentOf tree' c = some x

end Purpose

section Copies
variable {tree : Cells Rts}

theorem dataOf_of_getElem? {a : ℕ} {cell : Cell Rts} (hcell : tree[a]? = some cell) :
    dataOf tree a = some cell.data := by
  rw [dataOf, hcell]
  rfl

theorem exists_dataOf {a : ℕ} (ha : a < tree.length) : ∃ data, dataOf tree a = some data :=
  ⟨_, dataOf_of_getElem? (List.getElem?_eq_getElem ha)⟩

/-- The clone is a new node below `parent` with the name of the node. -/
theorem copyData_attach (nextCluster : ℕ) {node parent : ℕ} (hparent : parent < tree.length) {data : Rts}
    (hdata : dataOf tree node = some data) :
    ∃ clone : Rts, copyData node parent nextCluster tree = .ok (tree.attach parent clone) ∧
      clone.regionName = modifyString data.regionName nextCluster := by
  obtain ⟨parentData, hparentData⟩ := exists_dataOf hparent
  rw [copyData, hdata, hparentData]
  simp only [Outcome.found, Outcome.ok_bind]
  split_ifs with hcluster
  · obtain ⟨clone, hclone⟩ := Rts.exists_extractParameter tree.length parentData
      { Rts.blank (modifyString data.regionName nextCluster) with
        scorepId := data.scorepId, parentScorepId := data.parentScorepId }
    rw [hclone]
    exact ⟨clone, rfl, (Rts.extractParameter_eq_ok hclone).1⟩
  · exact ⟨_, rfl, rfl⟩

/-- Cloning attaches one node below `parent`, and all others below new ones. The clones are
made from nodes of `source`, which stay as they are. -/
theorem cloneTree_grows {source : Cells Rts} (hroot : ∀ p, 0 ∉ source.childrenOf p)
    (nextCluster : ℕ) : ∀ (depth parent node : ℕ) (tree : Cells Rts) (data : Rts),
      source.Within depth node → node ≠ 0 → (parent = 0 ∨ source.length ≤ parent) →
      parent < tree.length → source.length ≤ tree.length →
      (∀ a < source.length, a ≠ 0 → tree[a]? = source[a]?) → dataOf source node = some data →
      ∃ (clone : Rts) (tree' : Cells Rts),
        cloneTree nextCluster depth parent node tree = .ok tree' ∧
        Cells.Grows tree.length (tree.attach parent clone) tree' ∧
        clone.regionName = modifyString data.regionName nextCluster ∧
        (source.childrenOf node = [] → tree' = tree.attach parent clone) := by
  intro depth
  induction depth with
  | zero => exact fun _ _ _ _ hwithin => absurd hwithin id
  | succ depth ih =>
    intro parent node tree data ⟨hnode, hbelow⟩ hne hfresh hparent hlength hsame hdata
    have hdata' : dataOf tree node = some data := by
      rw [dataOf, hsame node hnode hne]
      exact hdata
    obtain ⟨clone, hcopy, hname⟩ := copyData_attach nextCluster hparent hdata'
    have hchildren : (tree.attach parent clone).childrenOf node = source.childrenOf node := by
      rw [Cells.childrenOf_attach _ _ _ hparent, if_neg (by omega), Cells.childrenOf,
        hsame node hnode hne]
      rfl
    rw [cloneTree, hcopy]
    simp only [Outcome.ok_bind, hchildren]
    -- every round attaches below the clone or below a newer node
    have hfold : ∃ tree', (source.childrenOf node).foldlM
        (fun cloned child => cloneTree nextCluster depth tree.length child cloned)
        (tree.attach parent clone) = .ok tree' ∧
        Cells.Grows tree.length (tree.attach parent clone) tree' := by
      apply Outcome.foldlM_total fun cloned =>
        Cells.Grows tree.length (tree.attach parent clone) cloned
      · intro cloned child hchild hgrows
        have hlengths := hgrows.length_le
        rw [Cells.length_attach] at hlengths
        have hchildNe : child ≠ 0 := fun heq => hroot node (heq ▸ hchild)
        have hchildLt : child < source.length := by
          cases depth with
          | zero => exact absurd (hbelow child hchild) id
          | succ depth => exact (hbelow child hchild).1
        have hframe : ∀ a < source.length, a ≠ 0 → cloned[a]? = source[a]? := by
          intro a ha hne
          have hneParent : parent ≠ a := by omega
          rw [hgrows.getElem?_eq (by omega) (by rw [Cells.length_attach]; omega),
            Cells.getElem?_attach_old _ _ _ _ (by omega), hsame a ha hne]
          simp [hneParent]
        obtain ⟨childData, hchildData⟩ := exists_dataOf hchildLt
        obtain ⟨clone', tree', hrun, hgrows', -, -⟩ := ih tree.length child cloned childData
          (hbelow child hchild) hchildNe (.inr hlength) (by omega) (by omega) hframe hchildData
        have hattach := Cells.Grows.attach cloned tree.length clone' hgrows le_rfl (by omega)
        exact ⟨tree', hrun, hattach.trans (hgrows'.mono (by omega))⟩
      · exact .refl
    obtain ⟨tree', hrun, hgrows⟩ := hfold
    refine ⟨clone, tree', hrun, hgrows, hname, fun hleaf => ?_⟩
    rw [hleaf] at hrun
    exact (Outcome.ok.inj hrun).symm

end Copies

section Clusters
variable {tree : Cells Rts}

theorem nameOf_of_skeleton {tree' : Cells Rts}
    (h : Cells.skeleton Rts.regionName tree = Cells.skeleton Rts.regionName tree') (a : ℕ) :
    nameOf tree' a = nameOf tree a := by
  have hget := congrArg (fun l => (l[a]?).map fun x => x.1) h
  simp only [Cells.skeleton, List.getElem?_map, Option.map_map] at hget
  rw [nameOf, nameOf, dataOf, dataOf, Option.map_map, Option.map_map]
  exact hget.symm

/-- The order of the nodes of a tree with clusters: the node of the first cluster, at
`first`, is newer than the forest below it. -/
def clusterRank (first a : ℕ) : ℕ := if a = 0 then 0 else if a = first then 1 else a + 1

/-- After `k` clusters have been made from the call-tree `source`. -/
structure ClusterTree (source : Cells Rts) (k : ℕ) (tree : Cells Rts) : Prop where
  nonempty : 0 < source.length
  size : source.length < tree.length
  names : (tree.childrenOf 0).map (nameOf tree) =
    (List.range k).map fun i => some (clusterName (i + 1))
  first : tree.childrenOf source.length = source.childrenOf 0
  moved : ∀ c ∈ source.childrenOf 0, parentOf tree c = some 0
  edges : ∀ p c, c ∈ tree.childrenOf p → c < tree.length ∧
    clusterRank source.length p < clusterRank source.length c
  parents : ∀ p c, c ∈ tree.childrenOf p → p ≠ source.length → parentOf tree c = some p
  leaves : source.childrenOf 0 = [] → ∀ c ∈ tree.childrenOf 0, tree.childrenOf c = []

theorem ClusterTree.not_child_root {source : Cells Rts} {k : ℕ} (h : ClusterTree source k tree)
    (p : ℕ) : 0 ∉ tree.childrenOf p := by
  intro hchild
  have hrank := (h.edges p 0 hchild).2
  simp [clusterRank] at hrank

theorem ClusterTree.within {source : Cells Rts} {k : ℕ} (h : ClusterTree source k tree)
    {a depth : ℕ} (ha : a < tree.length)
    (hdepth : tree.length + 1 ≤ clusterRank source.length a + depth) : tree.Within depth a := by
  have hsize := h.size
  apply Cells.within_of_rank h.edges _ depth a ha hdepth
  intro b hb
  rw [clusterRank]
  split_ifs <;> omega

theorem nameOf_of_getElem? {a : ℕ} {cell : Cell Rts} (hcell : tree[a]? = some cell) :
    nameOf tree a = some cell.data.regionName := by
  rw [nameOf, dataOf_of_getElem? hcell]
  rfl

theorem parentOf_eq_some {c p : ℕ} :
    parentOf tree c = some p ↔ ∃ cell, tree[c]? = some cell ∧ cell.parent = some p :=
  Option.bind_eq_some_iff

/-- The first cluster. -/
theorem modifyNode_clusterTree (hr : tree.Rooted) :
    ∃ tree', modifyNode 0 1 tree = .ok tree' ∧ ClusterTree tree 1 tree' := by
  have hlength := hr.nonempty
  obtain ⟨root, hroot, -⟩ := hr.root
  obtain ⟨newCluster, hnew⟩ := Rts.exists_extractParameter tree.length root.data
    (Rts.blank (clusterName 1))
  have hnewName : newCluster.regionName = clusterName 1 := (Rts.extractParameter_eq_ok hnew).1
  obtain ⟨new, hnewCell⟩ : ∃ new : Rts, new = { newCluster with
      parentScorepId := root.data.scorepId
      callpathstring := modifyString root.data.callpathstring 1 } := ⟨_, rfl⟩
  obtain ⟨tree', htree'⟩ : ∃ tree' : Cells Rts, tree' =
      (tree.modify 0 fun cell => { cell with children := [tree.length] }) ++
        [⟨new, some 0, tree.childrenOf 0⟩] := ⟨_, rfl⟩
  have hrun : modifyNode 0 1 tree = .ok tree' := by
    rw [modifyNode, dataOf_of_getElem? hroot]
    simp only [Outcome.found, Outcome.ok_bind, hnew]
    rw [htree', hnewCell]
    rfl
  have hold : ∀ a, a ≠ 0 → a < tree.length → tree'[a]? = tree[a]? := by
    intro a hne ha
    rw [htree', List.getElem?_append_left (by rw [List.length_modify]; exact ha),
      List.getElem?_modify]
    simp [Ne.symm hne]
  have hlast : tree'[tree.length]? = some ⟨new, some 0, tree.childrenOf 0⟩ := by
    rw [htree', List.getElem?_append_right (by rw [List.length_modify]), List.length_modify,
      Nat.sub_self]
    rfl
  have hsize : tree'.length = tree.length + 1 := by
    rw [htree', List.length_append, List.length_modify]
    rfl
  have hchildren : ∀ a, tree'.childrenOf a = if a = 0 then [tree.length] else
      if a = tree.length then tree.childrenOf 0 else tree.childrenOf a := by
    intro a
    rw [Cells.childrenOf]
    split_ifs with hzero hfirst
    · rw [hzero, htree', List.getElem?_append_left (by rw [List.length_modify]; exact hlength),
        List.getElem?_modify, hroot]
      rfl
    · rw [hfirst, hlast]
      rfl
    · by_cases ha : a < tree.length
      · rw [hold a hzero ha]
        rfl
      · rw [Cells.childrenOf, List.getElem?_eq_none (by omega), List.getElem?_eq_none (by omega)]
  have hmoved : ∀ p c, c ∈ tree.childrenOf p → parentOf tree' c = some p := by
    intro p c hc
    have hlt := hr.child_lt hc
    rw [parentOf, hold c (by omega) hlt.2]
    exact parentOf_eq_some.mpr (hr.down p c hc)
  refine ⟨tree', hrun, hlength, by omega, ?_, ?_, hmoved 0, ?_, ?_, ?_⟩
  · rw [hchildren, if_pos rfl]
    simp [nameOf_of_getElem? hlast, hnewCell, hnewName]
  · rw [hchildren, if_neg (by omega), if_pos rfl]
  · intro p c hc
    rw [hchildren] at hc
    split_ifs at hc with hzero hfirst
    · rw [List.mem_singleton.mp hc, hzero]
      simp [clusterRank, hsize, hlength.ne']
    · have hlt := hr.child_lt hc
      have hrank : clusterRank tree.length c = c + 1 := by
        rw [clusterRank, if_neg (by omega), if_neg (by omega)]
      rw [hrank, hfirst, clusterRank, if_neg (by omega), if_pos rfl]
      omega
    · have hlt := hr.child_lt hc
      have hrank : clusterRank tree.length c = c + 1 := by
        rw [clusterRank, if_neg (by omega), if_neg (by omega)]
      rw [hrank, clusterRank, if_neg hzero, if_neg hfirst]
      omega
  · intro p c hc hne
    rw [hchildren, if_neg hne] at hc
    split_ifs at hc with hzero
    · rw [List.mem_singleton.mp hc, hzero, parentOf, hlast]
      rfl
    · exact hmoved p c hc
  · intro hleaf c hc
    rw [hchildren, if_pos rfl, List.mem_singleton] at hc
    rw [hc, hchildren, if_neg (by omega), if_pos rfl, hleaf]

/-- A round of the loop makes the next cluster. -/
theorem ClusterTree.cloneTree {source : Cells Rts} {k child : ℕ} (h : ClusterTree source (k + 1) tree)
    (hchild : (tree.childrenOf 0)[k]? = some child) :
    ∃ tree', cloneTree (k + 2) tree.length 0 child tree = .ok tree' ∧
      ClusterTree source (k + 2) tree' := by
  obtain ⟨hlt, hget⟩ := List.getElem?_eq_some_iff.mp hchild
  have hmem : child ∈ tree.childrenOf 0 := hget ▸ List.getElem_mem hlt
  have hnonempty := h.nonempty
  have hsize := h.size
  obtain ⟨hchildLt, hrank⟩ := h.edges 0 child hmem
  have hchildNe : child ≠ 0 := fun heq => h.not_child_root 0 (heq ▸ hmem)
  -- the name of the node that is cloned
  obtain ⟨data, hdata⟩ := exists_dataOf hchildLt
  have hname : data.regionName = clusterName (k + 1) := by
    have hnames := congrArg (fun names => names[k]?) h.names
    simp only [List.getElem?_map, hchild, Option.map_some, nameOf, hdata] at hnames
    rw [List.getElem?_range (by omega), Option.map_some, Option.some.injEq,
      Option.some.injEq] at hnames
    exact hnames
  obtain ⟨clone, tree', hrun, hgrows, hclone, hleaf⟩ := cloneTree_grows h.not_child_root (k + 2)
    tree.length 0 child tree data (h.within hchildLt (by rw [clusterRank] at hrank; simp at hrank; omega))
    hchildNe (.inl rfl) (by omega) le_rfl (fun a _ _ => rfl) hdata
  rw [hname, modifyString_clusterName] at hclone
  have hattach : Cells.Grows 0 tree (tree.attach 0 clone) :=
    .attach tree 0 clone .refl le_rfl (by omega)
  have hall : Cells.Grows 0 tree tree' := hattach.trans (hgrows.mono (Nat.zero_le _))
  have hlengths := hgrows.length_le
  rw [Cells.length_attach] at hlengths
  -- what the clones leave alone
  have hchildren : ∀ a < tree.length, tree'.childrenOf a =
      if 0 = a then tree.childrenOf a ++ [tree.length] else tree.childrenOf a := by
    intro a ha
    rw [← Cells.childrenOf_attach tree clone a (by omega), Cells.childrenOf,
      hgrows.getElem?_eq ha (by rw [Cells.length_attach]; omega)]
    rfl
  have hparent : ∀ a p, parentOf tree a = some p → parentOf tree' a = some p := by
    intro a p hp
    obtain ⟨cell, hcell, hcellParent⟩ := parentOf_eq_some.mp hp
    obtain ⟨cell', hcell', -, hsame⟩ := hall.getElem?_of_some hcell
    exact parentOf_eq_some.mpr ⟨cell', hcell', hsame.trans hcellParent⟩
  have hold : ∀ a < tree.length, nameOf tree' a = nameOf tree a := by
    intro a ha
    obtain ⟨cell', hcell', hsame, -⟩ := hall.getElem?_of_some (List.getElem?_eq_getElem ha)
    rw [nameOf_of_getElem? hcell', nameOf_of_getElem? (List.getElem?_eq_getElem ha), hsame]
  have hnew : nameOf tree' tree.length = some (clusterName (k + 2)) := by
    obtain ⟨cell', hcell', hsame, -⟩ := hgrows.getElem?_of_some (Cells.getElem?_attach_new tree 0 clone)
    rw [nameOf_of_getElem? hcell', hsame, hclone]
  refine ⟨tree', hrun, hnonempty, by omega, ?_, ?_, fun c hc => hparent c 0 (h.moved c hc),
    ?_, ?_, ?_⟩
  · have hnames : (tree.childrenOf 0).map (nameOf tree') = (tree.childrenOf 0).map (nameOf tree) :=
      List.map_congr_left fun c hc => hold c (h.edges 0 c hc).1
    have hrange : List.range (k + 2) = List.range (k + 1) ++ [k + 1] := List.range_succ
    rw [hchildren 0 (by omega), if_pos rfl, List.map_append, hnames, h.names, hrange,
      List.map_append, List.map_singleton, List.map_singleton, hnew]
  · rw [hchildren _ hsize, if_neg (by omega)]
    exact h.first
  · intro p c hc
    cases hall.childrenOf hc with
    | inl hbefore =>
      obtain ⟨hlt, hrank⟩ := h.edges p c hbefore
      exact ⟨by omega, hrank⟩
    | inr hafter =>
      obtain ⟨hge, hlt, -, hpc, -⟩ := hafter
      have hrankc : clusterRank source.length c = c + 1 := by
        rw [clusterRank, if_neg (by omega), if_neg (by omega)]
      refine ⟨hlt, ?_⟩
      rw [hrankc, clusterRank]
      split_ifs <;> omega
  · intro p c hc hne
    cases hall.childrenOf hc with
    | inl hbefore => exact hparent c p (h.parents p c hbefore hne)
    | inr hafter =>
      obtain ⟨-, -, -, -, hcell⟩ := hafter
      exact parentOf_eq_some.mpr hcell
  · intro hempty c hc
    have hnoChild : tree.childrenOf child = [] := h.leaves hempty child hmem
    rw [hleaf hnoChild] at hc ⊢
    rw [Cells.childrenOf_attach _ _ _ (by omega), if_pos rfl] at hc
    rw [Cells.childrenOf_attach _ _ _ (by omega)]
    cases List.mem_append.mp hc with
    | inl hbefore =>
      have hne : 0 ≠ c := fun heq => h.not_child_root 0 (heq ▸ hbefore)
      rw [if_neg hne]
      exact h.leaves hempty c hbefore
    | inr hafter =>
      rw [List.mem_singleton.mp hafter, if_neg (by omega), Cells.childrenOf,
        List.getElem?_eq_none (le_rfl)]
      rfl

theorem ClusterTree.count {source : Cells Rts} {k : ℕ} (h : ClusterTree source k tree) :
    (tree.childrenOf 0).length = k := by
  have hlengths := congrArg List.length h.names
  simpa using hlengths

/-- The loop ends with as many clusters as wanted. -/
theorem ClusterTree.cloneClusters {source : Cells Rts} {numClusters : ℕ} :
    ∀ (rounds k : ℕ) (tree : Cells Rts), ClusterTree source (k + 1) tree → k < numClusters →
      numClusters + 1 ≤ k + rounds →
      ∃ tree', cloneClusters 0 numClusters rounds k (k + 1) tree = .ok tree' ∧
        ClusterTree source numClusters tree' := by
  intro rounds
  induction rounds with
  | zero =>
    intro k tree _ hlt hrounds
    omega
  | succ rounds ih =>
    intro k tree h hlt hrounds
    have hcount := h.count
    obtain ⟨child, hchild⟩ : ∃ child, (tree.childrenOf 0)[k]? = some child :=
      ⟨_, List.getElem?_eq_getElem (by omega)⟩
    rw [Rtstree.cloneClusters, hchild]
    simp only
    by_cases hmore : k + 1 + 1 ≤ numClusters
    · obtain ⟨tree', hrun, h'⟩ := h.cloneTree hchild
      rw [if_pos hmore, hrun, Outcome.ok_bind]
      by_cases hlast : k + 1 + 1 = numClusters
      · rw [if_pos hlast]
        exact ⟨tree', rfl, hlast ▸ h'⟩
      · rw [if_neg hlast]
        exact ih (k + 1) tree' h' (by omega) (by omega)
    · -- one cluster: the only child has been passed
      have hone : numClusters = k + 1 := by omega
      rw [if_neg hmore, hone]
      cases rounds with
      | zero => omega
      | succ rounds =>
        have hnone : (tree.childrenOf 0)[k + 1]? = none := List.getElem?_eq_none (by omega)
        rw [Rtstree.cloneClusters, hnone]
        exact ⟨tree, rfl, h⟩

/-- The clusters are right exactly if there was nothing to put into them: the nodes below the
first cluster keep the root for a parent. -/
theorem modifyTree_clustered_iff {tree : Cells Rts} (hr : tree.Rooted) {numClusters : ℕ}
    (hn : 1 ≤ numClusters) : ∃ tree', modifyTree 0 numClusters tree = .ok tree' ∧
      (Clustered tree numClusters tree' ↔ tree.childrenOf 0 = []) := by
  obtain ⟨tree₁, hfirst, h₁⟩ := modifyNode_clusterTree hr
  have hclusters : ∃ tree₂, cloneClusters 0 numClusters (numClusters + 2) 0 1 tree₁ = .ok tree₂ ∧
      ClusterTree tree numClusters tree₂ :=
    h₁.cloneClusters (numClusters + 2) 0 tree₁ (by omega) (by omega)
  obtain ⟨tree₂, hloop, h₂⟩ := hclusters
  have hsize := h₂.size
  have hwithin : tree₂.Within (tree₂.length + 1) 0 :=
    h₂.within (by omega) (Nat.le_add_left _ _)
  obtain ⟨⟨tree', mapping⟩, hset, hsame⟩ := setCallPaths_returns (tree₂.length + 1) 0 []
    (tree₂, .empty) hwithin rfl
  have hrun : modifyTree 0 numClusters tree = .ok tree' := by
    rw [modifyTree, hfirst, Outcome.ok_bind, hloop, Outcome.ok_bind, setCallPathStrings, hset]
    rfl
  have hparent : ∀ c, parentOf tree' c = parentOf tree₂ c := parentOf_of_skeleton hsame.skeleton.symm
  have hchildren : ∀ a, tree'.childrenOf a = tree₂.childrenOf a := hsame.childrenOf
  have hname : ∀ a, nameOf tree' a = nameOf tree₂ a := nameOf_of_skeleton hsame.skeleton.symm
  refine ⟨tree', hrun, fun hclustered => ?_, fun hempty => ⟨?_, ?_, ?_⟩⟩
  · by_contra hne
    obtain ⟨c, hc⟩ := List.exists_mem_of_ne_nil _ hne
    have hright := hclustered.parents tree.length c (by rw [hchildren, h₂.first]; exact hc)
    rw [hparent, h₂.moved c hc, Option.some.injEq] at hright
    have hlength := hr.nonempty
    omega
  · rw [hchildren, ← h₂.names]
    exact List.map_congr_left fun c _ => hname c
  · intro c hc
    rw [hchildren] at hc
    rw [hempty, hchildren, h₂.leaves hempty c hc]
    exact .nil
  · intro x c hc
    rw [hchildren] at hc
    rw [hparent]
    apply h₂.parents x c hc
    intro heq
    rw [heq, h₂.first, hempty] at hc
    exact absurd hc List.not_mem_nil

/-- A root with one region below. -/
def solveTree : Cells Rts := [⟨Rts.blank "main", none, [1]⟩, ⟨Rts.blank "solve", some 0, []⟩]

theorem solveTree_rooted : solveTree.Rooted := by
  constructor
  · exact ⟨_, rfl, rfl⟩
  · intro c cell hcell hne
    have hlt : c < 2 := (List.getElem?_eq_some_iff.mp hcell).1
    have hone : c = 1 := by omega
    subst hone
    rw [← Option.some.inj hcell]
    exact ⟨0, rfl, by decide, by decide⟩
  · intro p c hc
    have hzero : p = 0 ∧ c = 1 := by
      match p, hc with
      | 0, hc => exact ⟨rfl, List.mem_singleton.mp hc⟩
      | 1, hc => exact absurd hc List.not_mem_nil
      | p + 2, hc => exact absurd hc List.not_mem_nil
    rw [hzero.1, hzero.2]
    exact ⟨_, rfl, rfl⟩

theorem modifyTree_clustered_iff_solveTree :
    ∃ tree', modifyTree 0 2 solveTree = .ok tree' ∧
      (Clustered solveTree 2 tree' ↔ solveTree.childrenOf 0 = []) :=
  modifyTree_clustered_iff solveTree_rooted (by decide)

theorem modifyTree_not_clustered :
    ¬ ∀ tree : Cells Rts, tree.Rooted → ∀ numClusters, 1 ≤ numClusters →
      ∃ tree', modifyTree 0 numClusters tree = .ok tree' ∧ Clustered tree numClusters tree' := by
  intro hall
  obtain ⟨tree', hrun, hclustered⟩ := hall solveTree solveTree_rooted 2 (by decide)
  have hreturns : (modifyTree 0 2 solveTree).returnsWith fun tree' =>
      decide (1 ∈ tree'.childrenOf 2 ∧ parentOf tree' 1 = some 0) := by decide +kernel
  rw [hrun] at hreturns
  obtain ⟨hchild, hparent⟩ : 1 ∈ tree'.childrenOf 2 ∧ parentOf tree' 1 = some 0 :=
    of_decide_eq_true hreturns
  rw [hclustered.parents 2 1 hchild] at hparent
  exact absurd hparent (by decide)

end Clusters
end ReadexPtf.Rtstree
