import ReadexPtf.Rts.AgentInsertion

/-! Runs of the analysis agent over the buffers of its processes: what the tree and the
mapping hold after any number of buffers. -/
namespace ReadexPtf.Rtstree
open ReadexPtf

theorem SameNodes.skeleton {tree tree' : Cells Rts} (h : SameNodes tree tree') :
    Cells.skeleton Rts.regionName tree' = Cells.skeleton Rts.regionName tree := by
  have hmap := congrArg (List.map fun x : (String × ℕ × ℕ) × Option ℕ × List ℕ =>
    (x.1.1, x.2.1, x.2.2)) h
  simpa [Cells.skeleton, List.map_map, Function.comp_def] using hmap

/-- No tree yet, or one whose call paths lead to one node each. -/
def Agent.Valid (agent : Agent) : Prop := agent.tree = [] ∨ agent.Sound

section Buffers
variable {regions : RegionMapping}

theorem assignRoot_empty {agent : Agent} (hempty : agent.tree = []) (record : CallTreeDef)
    (key : ℕ) : (assignRoot agent record key).tree = [⟨Rts.ofRecord record key, none, []⟩] := by
  simp [assignRoot, hempty]

theorem assignRoot_tree {agent : Agent} (htree : agent.tree ≠ []) (record : CallTreeDef)
    (key : ℕ) : (assignRoot agent record key).tree = reassignScorepID agent.tree 0 record := by
  simp [assignRoot, htree]

theorem assignRoot_sound {agent : Agent} (hvalid : agent.Valid) (record : CallTreeDef) (key : ℕ) :
    (assignRoot agent record key).Sound ∧
      idOf (assignRoot agent record key).tree 0 = some record.scorepId := by
  by_cases hempty : agent.tree = []
  · rw [assignRoot_empty hempty]
    have htree := assignRoot_empty hempty record key
    exact ⟨⟨htree ▸ Cells.rooted_singleton _, htree ▸ Cells.distinct_singleton _⟩, rfl⟩
  · have hsound := hvalid.resolve_left hempty
    have htree := assignRoot_tree hempty record key
    have hsound' := sound_reassignScorepID hsound 0 record
    rw [htree]
    exact ⟨⟨htree ▸ hsound'.rooted, htree ▸ hsound'.distinct⟩,
      idOf_reassignScorepID hsound.rooted.nonempty record⟩

/-- The root of the first tree, which is the root of the agent's tree. -/
theorem assignRoot_merged {agent : Agent} (hvalid : agent.Valid) (record : CallTreeDef) (key : ℕ)
    (hname : agent.tree ≠ [] → nameOf agent.tree 0 = some record.name) :
    Merged agent (assignRoot agent record key) [] [(record.scorepId, [record.name])] ∧
      CallPath (assignRoot agent record key).tree 0 [record.name] ∧
      idOf (assignRoot agent record key).tree 0 = some record.scorepId := by
  have hmapped : ∀ k a, agent.scorepidToRts.get? k = some a →
      (agent.scorepidToRts.insertNew record.scorepId 0).get? k = some a := by
    intro k a hk
    rw [OrdMap.get?_insertNew, hk]
    rfl
  by_cases hempty : agent.tree = []
  · have htree := assignRoot_empty hempty record key
    have hmapping : (assignRoot agent record key).scorepidToRts =
        agent.scorepidToRts.insertNew record.scorepId 0 := by
      simp [assignRoot, hempty]
    have hpath : CallPath (assignRoot agent record key).tree 0 [record.name] := by
      rw [htree]
      exact .root ⟨Rts.ofRecord record key, none, []⟩ rfl
    obtain ⟨hsound, hid⟩ := assignRoot_sound hvalid record key
    refine ⟨⟨hsound, ?_, ?_, ?_, ?_, hmapping.symm ▸ hmapped⟩, hpath, hid⟩
    · intro a q hq
      rw [hempty, parentOf] at hq
      exact absurd hq (by simp)
    · intro a path ha
      have := ha.lt_length
      rw [hempty] at this
      exact absurd this (Nat.not_lt_zero a)
    · intro a path ha
      right
      refine ⟨_, List.mem_singleton_self _, ?_⟩
      rw [htree] at ha
      cases Cells.pathTo_iff.mp ha with
      | inl hroot =>
        obtain ⟨rfl, cell, hcell, rfl⟩ := hroot
        rw [← Option.some.inj hcell]
        rfl
      | inr hbelow =>
        obtain ⟨p, init, cell, -, hc, -⟩ := hbelow
        rw [Cells.childrenOf_singleton] at hc
        exact absurd hc List.not_mem_nil
    · intro call hcall
      rw [List.mem_singleton.mp hcall]
      exact ⟨0, hpath⟩
  · have hsound := hvalid.resolve_left hempty
    have hagent : assignRoot agent record key = { agent with
        tree := reassignScorepID agent.tree 0 record
        scorepidToRts := agent.scorepidToRts.insertNew record.scorepId 0 } := by
      simp [assignRoot, hempty]
    have hmerged := reassignRoot_merged record hsound (hname hempty)
    rw [hagent]
    exact ⟨⟨⟨hmerged.sound.rooted, hmerged.sound.distinct⟩, hmerged.parents, hmerged.kept,
      hmerged.only, hmerged.all, hmapped⟩,
      hmerged.kept 0 _ (callPath_root (hname hempty)),
      idOf_reassignScorepID hsound.rooted.nonempty record⟩

theorem addNodeInfo_returns {agent : Agent} (hsound : agent.Sound) : ∃ agent',
    addNodeInfo agent = .ok agent' ∧ SameNodes agent.tree agent'.tree ∧
      agent'.scorepidToRts = agent.scorepidToRts := by
  obtain ⟨⟨tree, rtsCallpath⟩, hset, hsame⟩ := setCallPaths_returns agent.tree.length 0 []
    (agent.tree, agent.rtsCallpath) (hsound.rooted.within hsound.rooted.nonempty (by omega)) rfl
  refine ⟨{ agent with tree, rtsCallpath }, ?_, hsame, rfl⟩
  rw [addNodeInfo]
  simp only [hset, Outcome.ok_bind]
  rfl

/-- The root gets its data again, with its type and parameter. -/
theorem sameNodes_writeRoot {tree : Cells Rts} {cell : Cell Rts} {root : Rts}
    (hcell : tree[0]? = some cell) (hname : root.regionName = cell.data.regionName)
    (hid : root.scorepId = cell.data.scorepId)
    (hparent : root.parentScorepId = cell.data.parentScorepId) :
    SameNodes tree (tree.write 0 fun _ => root) := by
  apply List.ext_getElem?
  intro b
  simp only [Cells.skeleton, List.getElem?_map, Cells.getElem?_write, Option.map_map]
  by_cases hb : 0 = b
  · subst hb
    simp [hcell, hname, hid, hparent]
  · simp [hb, Function.comp_def]

theorem Agent.Sound.of_sameNodes {agent agent' : Agent} (hsound : agent.Sound)
    (h : SameNodes agent.tree agent'.tree) : agent'.Sound :=
  ⟨hsound.rooted.of_skeleton h.skeleton.symm, hsound.distinct.of_skeleton h.skeleton.symm⟩

/-- After the insertion only data that paths do not depend on is written. -/
theorem addNodeInfo_merged {agent : Agent} (hsound : agent.Sound) {name : String}
    (hpath : CallPath agent.tree 0 [name]) (hparameter : isParameterName name = false) :
    ∃ root root' agent', dataOf agent.tree 0 = some root ∧
      root.extractParameter 0 none = .ok root' ∧
      addNodeInfo { agent with tree := agent.tree.write 0 fun _ => root' } = .ok agent' ∧
      Merged agent agent' [] [] := by
  obtain ⟨cell, hcell, -⟩ := hsound.rooted.root
  have hname : cell.data.regionName = name := by
    have hsame := hpath.functional hsound.rooted (.root cell hcell)
    exact (List.cons.inj hsame).1.symm
  have hdata : dataOf agent.tree 0 = some cell.data := by
    rw [dataOf, hcell]
    rfl
  obtain ⟨root', hroot'⟩ : ∃ root', root' = { cell.data with rtsType := .regularRegion } := ⟨_, rfl⟩
  have hextract : cell.data.extractParameter 0 none = .ok root' := by
    have hregular : ¬ isParameterName cell.data.regionName = true := by
      rw [hname, hparameter]
      decide
    rw [Rts.extractParameter, if_neg hregular, hroot']
    rfl
  have hwrite : SameNodes agent.tree (agent.tree.write 0 fun _ => root') := by
    apply sameNodes_writeRoot hcell <;> rw [hroot']
  have hsound' : Agent.Sound { agent with tree := agent.tree.write 0 fun _ => root' } :=
    hsound.of_sameNodes hwrite
  obtain ⟨agent', hadd, hsame, hmapping⟩ := addNodeInfo_returns hsound'
  exact ⟨cell.data, root', agent', hdata, hextract, hadd,
    Merged.of_skeleton hsound (hsame.skeleton.trans hwrite.skeleton) hmapping []⟩

end Buffers

def CallTreeBuffer.records (buffer : CallTreeBuffer) : List CallTreeDef :=
  buffer.forest.preorder 0

/-- What the data provider does with the call-tree, process by process. -/
inductive AgentOp where
  | construct (buffer : CallTreeBuffer)
  | clearMapping
  | clearSerialize

namespace Agent

def start : Agent := ⟨[], [], .empty, .empty⟩

def step (agent : Agent) : AgentOp → Outcome Agent
  | .construct buffer => constructAagentCalltree buffer.regions agent buffer.records
  | .clearMapping => .ok { agent with scorepidToRts := .empty }
  | .clearSerialize => .ok { agent with rtsToSerialize := [] }

def run (ops : List AgentOp) (agent : Agent) : Outcome Agent := ops.foldlM step agent

/-- The insertion of a buffer takes no node for one of another name: all roots have the name of
the tree's root, which is no parameter, and what `findNode` finds has the name of its record. -/
def Recognises (agent : Agent) : AgentOp → Prop
  | .construct buffer =>
    match buffer.records with
    | [] => True
    | record :: rest => (agent.tree ≠ [] → nameOf agent.tree 0 = some record.name) ∧
        isParameterName record.name = false ∧
        ∀ key, ptfId buffer.regions record.regionId = .ok key →
          Outcome.StepsMeet Recognised (insertRecord buffer.regions) rest
            (assignRoot agent record key, 0)
  | _ => True

/-- The mapping can be extended by a buffer: no id of it has another node yet, and only the
first record is a root. -/
def Enters (agent : Agent) : AgentOp → Prop
  | .construct buffer =>
    match buffer.records with
    | [] => True
    | record :: rest => (∀ a, agent.scorepidToRts.get? record.scorepId = some a → a = 0) ∧
        ∀ key, ptfId buffer.regions record.regionId = .ok key →
          Outcome.StepsMeet Enterable (insertRecord buffer.regions) rest
            (assignRoot agent record key, 0)
  | _ => True

instance (agent : Agent) : ∀ op, Decidable (agent.Recognises op)
  | .construct buffer =>
    match h : buffer.records with
    | [] => isTrue (by simp [Recognises, h])
    | record :: rest => decidable_of_iff ((agent.tree ≠ [] → nameOf agent.tree 0 = some record.name) ∧
        isParameterName record.name = false ∧
        ∀ key, ptfId buffer.regions record.regionId = .ok key →
          Outcome.StepsMeet Recognised (insertRecord buffer.regions) rest
            (assignRoot agent record key, 0)) (by simp only [Recognises, h])
  | .clearMapping => isTrue trivial
  | .clearSerialize => isTrue trivial

instance (agent : Agent) : ∀ op, Decidable (agent.Enters op)
  | .construct buffer =>
    match h : buffer.records with
    | [] => isTrue (by simp [Enters, h])
    | record :: rest => decidable_of_iff
        ((∀ a, agent.scorepidToRts.get? record.scorepId = some a → a = 0) ∧
        ∀ key, ptfId buffer.regions record.regionId = .ok key →
          Outcome.StepsMeet Enterable (insertRecord buffer.regions) rest
            (assignRoot agent record key, 0)) (by simp only [Enters, h])
  | .clearMapping => isTrue trivial
  | .clearSerialize => isTrue trivial

end Agent

/-- One buffer: its call paths come to the tree, and its ids to the mapping. -/
theorem construct_spec {agent : Agent} (hvalid : agent.Valid) (buffer : CallTreeBuffer)
    (hrecognises : agent.Recognises (.construct buffer)) :
    ∃ agent', agent.step (.construct buffer) = .ok agent' ∧
      Merged agent agent' [] buffer.forest.callPaths ∧
      (agent.Enters (.construct buffer) → Resolved agent' [] buffer.forest.callPaths) := by
  obtain ⟨forest, regions, hnonempty, hnodup, hzero, hknown⟩ := buffer
  cases forest with
  | nil => exact absurd rfl hnonempty
  | cons scorepId name regionId children siblings =>
    simp only [CallForest.ids, List.mem_cons, List.mem_append, not_or] at hzero
    simp only [CallForest.ids, List.nodup_cons, List.mem_append, not_or, List.nodup_append] at hnodup
    simp only [CallForest.regionIds, List.mem_cons, List.mem_append] at hknown
    obtain ⟨key, hkey⟩ := hknown regionId (.inl rfl)
    obtain ⟨hname, hparameter, hmeet⟩ := hrecognises
    have hmeet₁ := Outcome.StepsMeet.append (hmeet key hkey)
    obtain ⟨agent₁, hagent₁⟩ : ∃ agent₁, agent₁ = assignRoot agent
      ⟨regionId, name, scorepId, 0⟩ key := ⟨_, rfl⟩
    obtain ⟨hmerged₁, hpath₁, hid₁⟩ :=
      assignRoot_merged hvalid ⟨regionId, name, scorepId, 0⟩ key hname
    have hmapping₁ : agent₁.scorepidToRts = agent.scorepidToRts.insertNew scorepId 0 := by
      rw [hagent₁, assignRoot]
      split_ifs <;> rfl
    rw [← hagent₁] at hmerged₁ hpath₁ hid₁ hmeet₁
    obtain ⟨places₂, s₂, hins₂⟩ := @exists_inserts_here regions (agent₁, 0) scorepId children
      hmerged₁.sound hid₁ (Ne.symm hzero.1) (List.nodup_cons.mpr ⟨hnodup.1.1, hnodup.2.1⟩)
      hzero.2.1 (fun r hr => hknown r (.inr (.inl hr)))
    obtain ⟨hmerged₂, hresolved₂⟩ := hins₂.merged hmerged₁.sound hpath₁ hmeet₁.1
    obtain ⟨places₃, s₃, hins₃⟩ := exists_insertsThreads siblings
      hmerged₂.sound hnodup.2.2.1 hzero.2.2 (fun r hr => hknown r (.inr (.inr hr)))
    have hrun₂ := hins₂.insertNode
    have hrun₃ := hins₃.insertNode
    obtain ⟨hmerged₃, hresolved₃⟩ := hins₃.merged hmerged₂.sound (hmeet₁.2 _ hrun₂)
    have hmerged₂' : Merged agent₁ s₂.1 ([] ++ [name]) children.callPaths := hmerged₂
    have hpath₃ := hmerged₃.kept _ _ (hmerged₂.kept _ _ hpath₁)
    obtain ⟨root, root', agent₄, hroot, hextract, hadd, hmerged₄⟩ :=
      addNodeInfo_merged hmerged₃.sound hpath₃ hparameter
    have hmerged := ((hmerged₁.trans hmerged₂'.below).trans hmerged₃).trans hmerged₄
    rw [List.append_nil] at hmerged
    refine ⟨agent₄, ?_, hmerged, fun henters => ?_⟩
    · rw [insertNode] at hrun₂ hrun₃
      simp only [Agent.step, CallTreeBuffer.records, CallForest.preorder, constructAagentCalltree,
        hkey, Outcome.ok_bind, insertNode, List.foldlM_append, ← hagent₁, hrun₂, hrun₃, hroot,
        Outcome.found, hextract, hadd]
    · obtain ⟨hfirst, henter⟩ := henters
      have henter₁ := Outcome.StepsMeet.append (henter key hkey)
      rw [← hagent₁] at henter₁
      have h₁ : Resolved agent₁ [] [(scorepId, [name])] := by
        intro call hcall
        rw [List.mem_singleton.mp hcall]
        refine ⟨0, ?_, hpath₁⟩
        rw [hmapping₁, OrdMap.get?_insertNew]
        cases hget : agent.scorepidToRts.get? scorepId with
        | none => simp
        | some a => simp [hfirst a hget]
      have h₂ : Resolved s₂.1 ([] ++ [name]) children.callPaths := hresolved₂ henter₁.1
      exact ((((h₁.mono hmerged₂').append h₂.below).mono hmerged₃).append
        (hresolved₃ (henter₁.2 _ hrun₂))).mono hmerged₄

/-- The calls of a buffer. -/
def AgentOp.calls : AgentOp → List (ℕ × List String)
  | .construct buffer => buffer.forest.callPaths
  | _ => []

theorem step_recognises {agent : Agent} (hvalid : agent.Valid) {op : AgentOp}
    (hrecognises : agent.Recognises op) : ∃ agent', agent.step op = .ok agent' ∧ agent'.Valid ∧
      ∀ path, (∃ a, CallPath agent'.tree a path) ↔
        (∃ a, CallPath agent.tree a path) ∨ ∃ call ∈ op.calls, path = call.2 := by
  cases op with
  | construct buffer =>
    obtain ⟨agent', hstep, hmerged, -⟩ := construct_spec hvalid buffer hrecognises
    refine ⟨agent', hstep, .inr hmerged.sound, fun path => ?_⟩
    constructor
    · intro ⟨a, ha⟩
      cases hmerged.only a path ha with
      | inl hold => exact .inl ⟨a, hold⟩
      | inr hnew => exact .inr hnew
    · intro hpath
      cases hpath with
      | inl hold =>
        obtain ⟨a, ha⟩ := hold
        exact ⟨a, hmerged.kept a path ha⟩
      | inr hnew =>
        obtain ⟨call, hcall, rfl⟩ := hnew
        exact hmerged.all call hcall
  | clearMapping | clearSerialize =>
    refine ⟨_, rfl, ?_, fun path => ?_⟩
    · cases hvalid with
      | inl hempty => exact .inl hempty
      | inr hsound => exact .inr ⟨hsound.rooted, hsound.distinct⟩
    · constructor
      · exact .inl
      · intro hpath
        exact hpath.resolve_right fun ⟨call, hcall, _⟩ => absurd hcall List.not_mem_nil

theorem run_recognises {ops : List AgentOp} : ∀ {agent : Agent}, agent.Valid →
    Outcome.StepsMeet Agent.Recognises Agent.step ops agent →
    ∃ agent', agent.run ops = .ok agent' ∧ agent'.Valid ∧
      ∀ path, (∃ a, CallPath agent'.tree a path) ↔
        (∃ a, CallPath agent.tree a path) ∨ ∃ op ∈ ops, ∃ call ∈ op.calls, path = call.2 := by
  induction ops with
  | nil =>
    intro agent hvalid _
    exact ⟨agent, rfl, hvalid, fun path => by simp⟩
  | cons op ops ih =>
    intro agent hvalid hmeet
    obtain ⟨agent₁, hstep, hvalid₁, hpaths₁⟩ := step_recognises hvalid hmeet.1
    obtain ⟨agent₂, hrun, hvalid₂, hpaths₂⟩ := ih hvalid₁ (hmeet.2 _ hstep)
    refine ⟨agent₂, ?_, hvalid₂, fun path => ?_⟩
    · rw [Agent.run, List.foldlM_cons, hstep, Outcome.ok_bind]
      exact hrun
    · rw [hpaths₂, hpaths₁]
      simp [or_assoc]

/-- After any buffers the tree has the call paths of the buffers, each at one node, if every
buffer is inserted without a mistake. -/
theorem calltree_callPaths {ops : List AgentOp}
    (hmeet : Outcome.StepsMeet Agent.Recognises Agent.step ops .start) :
    ∃ agent, Agent.start.run ops = .ok agent ∧
      (∀ path, (∃ a, CallPath agent.tree a path) ↔
        ∃ op ∈ ops, ∃ call ∈ op.calls, path = call.2) ∧
      ∀ a b path, CallPath agent.tree a path → CallPath agent.tree b path → a = b := by
  obtain ⟨agent, hrun, hvalid, hpaths⟩ := run_recognises (.inl rfl) hmeet
  have hnone : ∀ path, ¬ ∃ a, CallPath Agent.start.tree a path :=
    fun path ⟨a, ha⟩ => absurd ha.lt_length (Nat.not_lt_zero a)
  refine ⟨agent, hrun, fun path => ?_, fun a b path ha hb => ?_⟩
  · rw [hpaths]
    exact or_iff_right (hnone path)
  · cases hvalid with
    | inl hempty =>
      have := ha.lt_length
      rw [hempty] at this
      exact absurd this (Nat.not_lt_zero a)
    | inr hsound => exact ha.injective hsound.distinct hb

/-- The name at the end of a call path is that of its node. -/
theorem CallPath.mem_tree {tree : Cells Rts} {a : ℕ} {path : List String}
    (h : CallPath tree a path) : ∃ cell ∈ tree, path.getLast? = some cell.data.regionName := by
  cases Cells.pathTo_iff.mp h with
  | inl hroot =>
    obtain ⟨-, cell, hcell, rfl⟩ := hroot
    exact ⟨cell, List.mem_of_getElem? hcell, rfl⟩
  | inr hbelow =>
    obtain ⟨p, init, cell, -, -, hcell, rfl⟩ := hbelow
    exact ⟨cell, List.mem_of_getElem? hcell, by simp⟩

/-- A process with one thread that calls one function. -/
def oneCall (scorepId : ℕ) (name : String) (hid : scorepId ∉ [0, 1]) : CallTreeBuffer where
  forest := .cons 1 "main" 10 (.cons scorepId name 20 .nil .nil) .nil
  regions := [(100, [10]), (200, [20])]
  nonempty := by simp
  unique := by
    simp only [List.mem_cons, not_or] at hid
    simp [CallForest.ids, Ne.symm hid.2.1]
  nonzero := by
    simp only [List.mem_cons, not_or] at hid
    simp [CallForest.ids, Ne.symm hid.1]
  known := by
    intro regionId h
    simp only [CallForest.regionIds, List.append_nil, List.mem_cons, List.not_mem_nil, or_false] at h
    cases h with
    | inl h => exact ⟨100, by rw [h]; rfl⟩
    | inr h => exact ⟨200, by rw [h]; rfl⟩

/-- Two processes that call different functions under different ids. -/
def twoProcesses : List AgentOp :=
  [.construct (oneCall 2 "init" (by decide)), .clearMapping,
    .construct (oneCall 3 "solve" (by decide))]

set_option maxRecDepth 10000 in
theorem calltree_callPaths_twoProcesses : ∃ agent, Agent.start.run twoProcesses = .ok agent ∧
    (∀ path, (∃ a, CallPath agent.tree a path) ↔
      ∃ op ∈ twoProcesses, ∃ call ∈ op.calls, path = call.2) ∧
    ∀ a b path, CallPath agent.tree a path → CallPath agent.tree b path → a = b :=
  calltree_callPaths (by decide +kernel)

/-- Two processes that have the same id for different functions. -/
def sharedIds : List AgentOp :=
  [.construct (oneCall 2 "init" (by decide)), .clearMapping,
    .construct (oneCall 2 "solve" (by decide))]

set_option maxRecDepth 10000 in
theorem calltree_not_callPaths : ¬ ∀ (ops : List AgentOp) (agent : Agent),
    Agent.start.run ops = .ok agent → ∀ path, (∃ a, CallPath agent.tree a path) ↔
      ∃ op ∈ ops, ∃ call ∈ op.calls, path = call.2 := by
  intro hall
  have h : (Agent.start.run sharedIds).returnsWith fun agent =>
      agent.tree.all fun cell => cell.data.regionName ≠ "solve" := by
    decide +kernel
  obtain ⟨agent, hrun, hnames⟩ := Outcome.returnsWith_iff.mp h
  have hcall : ∃ op ∈ sharedIds, ∃ call ∈ op.calls, ["main", "solve"] = call.2 :=
    ⟨.construct (oneCall 2 "solve" (by decide)), by simp [sharedIds], (2, ["main", "solve"]),
      by simp [AgentOp.calls, oneCall, CallForest.callPaths], rfl⟩
  obtain ⟨a, ha⟩ := (hall sharedIds agent hrun ["main", "solve"]).mpr hcall
  obtain ⟨cell, hcell, hlast⟩ := ha.mem_tree
  have hname := of_decide_eq_true (List.all_eq_true.mp hnames cell hcell)
  exact hname (Option.some.inj hlast).symm

/-- The calls of the buffers since the mapping was cleared. -/
def pending (ops : List AgentOp) : List (ℕ × List String) :=
  ops.foldl (fun calls op =>
    match op with
    | .clearMapping => []
    | op => calls ++ op.calls) []

/-- In every run, the mapping leads the ids of the buffers since it was cleared to the nodes
with their call paths, if every buffer is inserted without a mistake and can be entered. -/
theorem scorepidToRts_resolves {ops : List AgentOp}
    (hmeet : Outcome.StepsMeet (fun agent op => agent.Recognises op ∧ agent.Enters op)
      Agent.step ops .start) :
    ∃ agent, Agent.start.run ops = .ok agent ∧
      ∀ call ∈ pending ops, ∃ a, agent.scorepidToRts.get? call.1 = some a ∧
        CallPath agent.tree a call.2 := by
  have hgeneral : ∀ (ops : List AgentOp) (agent : Agent) (calls : List (ℕ × List String)),
      agent.Valid → Resolved agent [] calls →
      Outcome.StepsMeet (fun agent op => agent.Recognises op ∧ agent.Enters op)
        Agent.step ops agent →
      ∃ agent', agent.run ops = .ok agent' ∧ Resolved agent' [] (ops.foldl (fun calls op =>
        match op with
        | .clearMapping => []
        | op => calls ++ op.calls) calls) := by
    intro ops
    induction ops with
    | nil =>
      intro agent calls _ hresolved _
      exact ⟨agent, rfl, hresolved⟩
    | cons op ops ih =>
      intro agent calls hvalid hresolved hmeet
      cases op with
      | construct buffer =>
        obtain ⟨agent₁, hstep, hmerged, hnew⟩ := construct_spec hvalid buffer hmeet.1.1
        obtain ⟨agent₂, hrun, hresolved₂⟩ := ih agent₁ (calls ++ buffer.forest.callPaths)
          (.inr hmerged.sound) ((hresolved.mono hmerged).append (hnew hmeet.1.2)) (hmeet.2 _ hstep)
        refine ⟨agent₂, ?_, hresolved₂⟩
        rw [Agent.run, List.foldlM_cons, hstep, Outcome.ok_bind]
        exact hrun
      | clearMapping =>
        have hvalid₁ : Agent.Valid { agent with scorepidToRts := .empty } := by
          cases hvalid with
          | inl hempty => exact .inl hempty
          | inr hsound => exact .inr ⟨hsound.rooted, hsound.distinct⟩
        exact ih _ [] hvalid₁ (fun call hcall => absurd hcall List.not_mem_nil) (hmeet.2 _ rfl)
      | clearSerialize =>
        have hvalid₁ : Agent.Valid { agent with rtsToSerialize := [] } := by
          cases hvalid with
          | inl hempty => exact .inl hempty
          | inr hsound => exact .inr ⟨hsound.rooted, hsound.distinct⟩
        have hresolved₁ : Resolved { agent with rtsToSerialize := [] } [] (calls ++ []) := by
          rw [List.append_nil]
          exact hresolved
        exact ih _ _ hvalid₁ hresolved₁ (hmeet.2 _ rfl)
  exact hgeneral ops .start [] (.inl rfl) (fun call hcall => absurd hcall List.not_mem_nil) hmeet

set_option maxRecDepth 10000 in
theorem scorepidToRts_resolves_twoProcesses : ∃ agent,
    Agent.start.run twoProcesses = .ok agent ∧
      ∀ call ∈ pending twoProcesses, ∃ a, agent.scorepidToRts.get? call.1 = some a ∧
        CallPath agent.tree a call.2 :=
  scorepidToRts_resolves (by decide +kernel)

/-- A process with two threads. -/
def twoThreads : CallTreeBuffer where
  forest := .cons 1 "main" 10 (.cons 2 "solve" 20 .nil .nil)
    (.cons 3 "main" 10 (.cons 4 "solve" 20 .nil .nil) .nil)
  regions := [(100, [10]), (200, [20])]
  nonempty := by simp
  unique := by decide
  nonzero := by decide
  known := by
    intro regionId h
    simp only [CallForest.regionIds, List.append_nil, List.nil_append, List.cons_append,
      List.mem_cons, List.not_mem_nil, or_false] at h
    have hcase : regionId = 10 ∨ regionId = 20 := by omega
    cases hcase with
    | inl h => exact ⟨100, by rw [h]; rfl⟩
    | inr h => exact ⟨200, by rw [h]; rfl⟩

set_option maxRecDepth 10000 in
theorem scorepidToRts_not_resolves : ¬ ∀ (ops : List AgentOp) (agent : Agent),
    Agent.start.run ops = .ok agent → ∀ call ∈ pending ops,
      ∃ a, agent.scorepidToRts.get? call.1 = some a ∧ CallPath agent.tree a call.2 := by
  intro hall
  have h : (Agent.start.run [.construct twoThreads]).returnsWith fun agent =>
      agent.scorepidToRts.get? 3 = none := by
    decide +kernel
  obtain ⟨agent, hrun, hnone⟩ := Outcome.returnsWith_iff.mp h
  have hcall : (3, ["main"]) ∈ pending [.construct twoThreads] := by
    simp [pending, AgentOp.calls, twoThreads, CallForest.callPaths]
  obtain ⟨a, ha, -⟩ := hall [.construct twoThreads] agent hrun (3, ["main"]) hcall
  rw [of_decide_eq_true hnone] at ha
  exact absurd ha (by simp)

end ReadexPtf.Rtstree
