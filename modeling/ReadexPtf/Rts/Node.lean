import ReadexPtf.Lib.Cells
import ReadexPtf.Lib.OrdMap
import Mathlib

/-! The nodes of the call-tree (runtime situations): their names, types, parameters and
call-path strings. -/
namespace ReadexPtf.Rtstree
open ReadexPtf

/-- A record of a call-tree definitions buffer. -/
structure CallTreeDef where
  regionId : ℕ
  name : String
  scorepId : ℕ
  parentScorepId : ℕ
  deriving DecidableEq

inductive RtsNodeType where
  | regularRegion
  | parameter
  deriving DecidableEq

inductive ParameterNodeType where
  | string
  | integer
  | unsignedInt
  deriving DecidableEq

/-- A `Parameter_t*`: `owner` is the node that it has been made for. -/
structure Parameter where
  owner : ℕ
  paramName : String
  paramValue : String
  paramType : ParameterNodeType
  deriving DecidableEq

structure Rts where
  regionName : String
  scorepId : ℕ
  parentScorepId : ℕ
  rtsType : RtsNodeType
  reg : Option ℕ
  parameter : List Parameter
  callpathstring : String
  isValidRts : Bool
  deriving DecidableEq

/-- `Rts( buffer_data, rtsreg )`. The type is set by `extract_parameter` later. -/
def Rts.ofRecord (bufferData : CallTreeDef) (rtsreg : ℕ) : Rts where
  regionName := bufferData.name
  scorepId := bufferData.scorepId
  parentScorepId := bufferData.parentScorepId
  rtsType := .regularRegion
  reg := some rtsreg
  parameter := []
  callpathstring := ""
  isValidRts := false

section Names

def isSpace (c : Char) : Bool := c.toNat ∈ [9, 10, 11, 12, 13, 32]

/-- A match of `(\s+=)|(=\s+)|(={2,})|(=$)`. -/
def spacedEquals : List Char → Bool
  | [] => false
  | [c] => c == '='
  | a :: b :: rest =>
    (isSpace a && b == '=') || (a == '=' && (isSpace b || b == '=')) || spacedEquals (b :: rest)

/-- A match of `operator(\s)*((\\)|(!)|(-)|(\+)|(\*)|(/))*=`. -/
def operatorEquals : List Char → Bool
  | [] => false
  | c :: cs =>
    ("operator".toList.isPrefixOf (c :: cs) &&
      ((((c :: cs).drop 8).dropWhile isSpace).dropWhile fun c =>
        c ∈ ['\\', '!', '-', '+', '*', '/']).head? == some '=') || operatorEquals cs

/-- Whether a region name has the format name=value. -/
def isParameterName (regName : String) : Bool :=
  regName.toList.contains '=' && !spacedEquals regName.toList && !operatorEquals regName.toList

def paramName (regName : String) : String := .ofList (regName.toList.takeWhile (· ≠ '='))

def paramValue (regName : String) : String :=
  .ofList ((regName.toList.dropWhile (· ≠ '=')).drop 1)

def paramType (paramValue : String) : ParameterNodeType :=
  if paramValue.toList.any Char.isAlpha then .string else .integer

end Names

/-- The region of a parameter is that of its parent, which a root does not have. -/
def Rts.extractParameter (address : ℕ) (parent : Option Rts) (node : Rts) : Outcome Rts :=
  if isParameterName node.regionName then do
    let parent ← Outcome.found parent
    let value := paramValue node.regionName
    return { node with
      rtsType := .parameter
      parameter := node.parameter ++
        [⟨address, paramName node.regionName, value, paramType value⟩]
      reg := parent.reg }
  else return { node with rtsType := .regularRegion }

/-- The constructor and `extract_parameter` leave what a record says. -/
theorem Rts.extractParameter_eq_ok {address : ℕ} {parent : Option Rts} {node node' : Rts}
    (h : node.extractParameter address parent = .ok node') :
    node'.regionName = node.regionName ∧ node'.scorepId = node.scorepId ∧
      node'.parentScorepId = node.parentScorepId := by
  rw [extractParameter] at h
  split_ifs at h with hname
  · cases hparent : parent with
    | none => exact absurd h (by simp [hparent, Outcome.found])
    | some p =>
      rw [hparent] at h
      exact Outcome.ok.inj h ▸ ⟨rfl, rfl, rfl⟩
  · exact Outcome.ok.inj h ▸ ⟨rfl, rfl, rfl⟩

theorem Rts.exists_extractParameter (address : ℕ) (parent node : Rts) :
    ∃ node', node.extractParameter address (some parent) = .ok node' := by
  rw [extractParameter]
  split_ifs
  · exact ⟨_, rfl⟩
  · exact ⟨_, rfl⟩

def makeCallpathString (callpathStrings : List String) : String :=
  callpathStrings.foldl (fun callpathString name => callpathString ++ ("/" ++ name)) ""

/-- Every parameter of the parent that the node does not have yet goes to the front. -/
def propagate (parentParameter parameter : List Parameter) : List Parameter :=
  parentParameter.foldl (fun parameter p => if p ∈ parameter then parameter else p :: parameter)
    parameter

/-- Parameters go from a parameter node to the parameter nodes below. -/
def inherited (parent : Option Rts) (node : Rts) : List Parameter :=
  match parent with
  | none => node.parameter
  | some parent =>
    if parent.rtsType ≠ .regularRegion ∧ node.rtsType ≠ .regularRegion then
      propagate parent.parameter node.parameter
    else node.parameter

section Tree
variable (tree : Cells Rts)

def dataOf (address : ℕ) : Option Rts := (tree[address]?).map Cell.data

def parentOf (address : ℕ) : Option ℕ := (tree[address]?).bind Cell.parent

def hasParameterChild (address : ℕ) : Bool :=
  (tree.childrenOf address).any fun c =>
    match dataOf tree c with
    | none => false
    | some child => child.rtsType ≠ .regularRegion

/-- A node is valid unless it has a parameter below. -/
def setValidRts (address : ℕ) : Bool :=
  (tree.childrenOf address).isEmpty || !hasParameterChild tree address

end Tree

/-- The recursion is as deep as the tree. `insert` leaves a call-path string that the
mapping has for a node. -/
def setCallPaths : ℕ → ℕ → List String → Cells Rts × OrdMap ℕ String →
    Outcome (Cells Rts × OrdMap ℕ String)
  | 0, _, _, _ => .undefined
  | depth + 1, node, callpathStrings, (tree, rtscallpathMapping) => do
    let cell ← Outcome.found tree[node]?
    let callpathStrings := callpathStrings ++ [cell.data.regionName]
    let callpathstring := makeCallpathString callpathStrings
    let parameter := inherited (cell.parent.bind (dataOf tree)) cell.data
    let tree := tree.write node fun data => { data with
      callpathstring, parameter, isValidRts := setValidRts tree node }
    cell.children.foldlM (fun s child => setCallPaths depth child callpathStrings s)
      (tree, rtscallpathMapping.insertNew node callpathstring)

/-- Two trees with the same shape, names and ids. -/
def SameNodes (tree tree' : Cells Rts) : Prop :=
  Cells.skeleton (fun data => (data.regionName, data.scorepId, data.parentScorepId)) tree' =
    Cells.skeleton (fun data => (data.regionName, data.scorepId, data.parentScorepId)) tree

theorem SameNodes.childrenOf {tree tree' : Cells Rts} (h : SameNodes tree tree') (a : ℕ) :
    tree'.childrenOf a = tree.childrenOf a :=
  Cells.childrenOf_of_skeleton h.symm a

theorem SameNodes.length_eq {tree tree' : Cells Rts} (h : SameNodes tree tree') :
    tree'.length = tree.length := by
  have hlength := congrArg List.length h
  simpa [Cells.skeleton] using hlength

theorem SameNodes.write {tree tree' : Cells Rts} (h : SameNodes tree tree') (a : ℕ)
    {f : Rts → Rts} (hf : ∀ data, ((f data).regionName, (f data).scorepId, (f data).parentScorepId) =
      (data.regionName, data.scorepId, data.parentScorepId)) : SameNodes tree (tree'.write a f) :=
  (Cells.skeleton_write tree' a f hf).trans h

/-- The call paths are set for all nodes below. -/
theorem setCallPaths_returns {h : Cells Rts} :
    ∀ (depth node : ℕ) (callpathStrings : List String) (s : Cells Rts × OrdMap ℕ String),
      h.Within depth node → SameNodes h s.1 →
      ∃ s', setCallPaths depth node callpathStrings s = .ok s' ∧ SameNodes h s'.1 := by
  intro depth
  induction depth with
  | zero => exact fun _ _ _ hwithin => absurd hwithin id
  | succ depth ih =>
    intro node callpathStrings ⟨tree, rtscallpathMapping⟩ ⟨hnode, hbelow⟩ hsame
    have hlength := hsame.length_eq
    simp only at hlength
    have hget : tree[node]? = some tree[node] := List.getElem?_eq_getElem (by omega)
    rw [setCallPaths, hget]
    simp only [Outcome.found, Outcome.ok_bind]
    have hchildren : tree[node].children = h.childrenOf node := by
      rw [← hsame.childrenOf, Cells.childrenOf, hget]
      rfl
    rw [hchildren]
    -- what the loop over the children keeps
    apply Outcome.foldlM_total fun s : Cells Rts × OrdMap ℕ String => SameNodes h s.1
    · intro s child hchild hs
      exact ih child _ s (hbelow child hchild) hs
    · simp only
      apply SameNodes.write hsame
      exact fun _ => rfl

end ReadexPtf.Rtstree
