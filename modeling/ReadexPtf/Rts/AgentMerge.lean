import ReadexPtf.Rts.AgentTree

/-! Merging call-tree buffers: where no node is taken for another one, the tree has the
call paths of all buffers, and the mapping leads each record to its node. -/
namespace ReadexPtf.Rtstree
open ReadexPtf

structure Agent.Sound (agent : Agent) : Prop where
  rooted : agent.tree.Rooted
  distinct : Cells.Distinct Rts.regionName agent.tree

/-- What an insertion below the call path `base` adds to the tree. -/
structure Merged (agent agent' : Agent) (base : List String) (calls : List (ℕ × List String)) :
    Prop where
  sound : agent'.Sound
  parents : ∀ a q, parentOf agent.tree a = some q → parentOf agent'.tree a = some q
  kept : ∀ a path, CallPath agent.tree a path → CallPath agent'.tree a path
  only : ∀ a path, CallPath agent'.tree a path →
    CallPath agent.tree a path ∨ ∃ call ∈ calls, path = base ++ call.2
  all : ∀ call ∈ calls, ∃ a, CallPath agent'.tree a (base ++ call.2)
  mapped : ∀ k a, agent.scorepidToRts.get? k = some a → agent'.scorepidToRts.get? k = some a

theorem Merged.refl {agent : Agent} (h : agent.Sound) (base : List String) :
    Merged agent agent base [] where
  sound := h
  parents _ _ h := h
  kept _ _ h := h
  only _ _ h := .inl h
  all _ h := absurd h List.not_mem_nil
  mapped _ _ h := h

theorem Merged.trans {agent agent' agent'' : Agent} {base : List String}
    {calls calls' : List (ℕ × List String)} (h : Merged agent agent' base calls)
    (h' : Merged agent' agent'' base calls') : Merged agent agent'' base (calls ++ calls') where
  sound := h'.sound
  parents a q hq := h'.parents a q (h.parents a q hq)
  kept a path hpath := h'.kept a path (h.kept a path hpath)
  only a path hpath := by
    cases h'.only a path hpath with
    | inl hbefore =>
      cases h.only a path hbefore with
      | inl hold => exact .inl hold
      | inr hnew =>
        obtain ⟨call, hcall, heq⟩ := hnew
        exact .inr ⟨call, List.mem_append_left _ hcall, heq⟩
    | inr hnew =>
      obtain ⟨call, hcall, heq⟩ := hnew
      exact .inr ⟨call, List.mem_append_right _ hcall, heq⟩
  all call hcall := by
    cases List.mem_append.mp hcall with
    | inl hfirst =>
      obtain ⟨a, ha⟩ := h.all call hfirst
      exact ⟨a, h'.kept a _ ha⟩
    | inr hsecond => exact h'.all call hsecond
  mapped k a hk := h'.mapped k a (h.mapped k a hk)

/-- Calls below a node are calls below its parent that begin with its name. -/
theorem Merged.below {agent agent' : Agent} {base : List String} {name : String}
    {calls : List (ℕ × List String)} (h : Merged agent agent' (base ++ [name]) calls) :
    Merged agent agent' base (calls.map fun call => (call.1, name :: call.2)) where
  sound := h.sound
  parents := h.parents
  kept := h.kept
  only a path hpath := by
    cases h.only a path hpath with
    | inl hold => exact .inl hold
    | inr hnew =>
      obtain ⟨call, hcall, heq⟩ := hnew
      exact .inr ⟨_, List.mem_map_of_mem hcall, by rw [heq, List.append_assoc]; rfl⟩
  all call hcall := by
    obtain ⟨inner, hinner, heq⟩ := List.mem_map.mp hcall
    obtain ⟨a, ha⟩ := h.all inner hinner
    refine ⟨a, ?_⟩
    rw [List.append_assoc] at ha
    exact heq ▸ ha
  mapped := h.mapped

/-- The mapping finds the nodes of these calls. -/
def Resolved (agent : Agent) (base : List String) (calls : List (ℕ × List String)) : Prop :=
  ∀ call ∈ calls, ∃ a, agent.scorepidToRts.get? call.1 = some a ∧
    CallPath agent.tree a (base ++ call.2)

theorem Resolved.mono {agent agent' : Agent} {base base' : List String}
    {calls calls' : List (ℕ × List String)} (h : Resolved agent base calls)
    (hmerged : Merged agent agent' base' calls') : Resolved agent' base calls := by
  intro call hcall
  obtain ⟨a, ha, hpath⟩ := h call hcall
  exact ⟨a, hmerged.mapped _ a ha, hmerged.kept a _ hpath⟩

theorem Resolved.append {agent : Agent} {base : List String} {calls calls' : List (ℕ × List String)}
    (h : Resolved agent base calls) (h' : Resolved agent base calls') :
    Resolved agent base (calls ++ calls') := by
  intro call hcall
  cases List.mem_append.mp hcall with
  | inl hfirst => exact h call hfirst
  | inr hsecond => exact h' call hsecond

theorem Resolved.below {agent : Agent} {base : List String} {name : String}
    {calls : List (ℕ × List String)} (h : Resolved agent (base ++ [name]) calls) :
    Resolved agent base (calls.map fun call => (call.1, name :: call.2)) := by
  intro call hcall
  obtain ⟨inner, hinner, heq⟩ := List.mem_map.mp hcall
  obtain ⟨a, ha, hpath⟩ := h inner hinner
  rw [List.append_assoc] at hpath
  exact ⟨a, heq ▸ ha, heq ▸ hpath⟩

section Conditions

/-- The child that a record is taken for, if there is one, has the name of the record. -/
def Recognised (s : Agent × ℕ) (record : CallTreeDef) : Prop :=
  if record.parentScorepId = 0 then nameOf s.1.tree 0 = some record.name
  else ∀ p, enclosing s.1.tree record.parentScorepId s.1.tree.length s.2 = .ok p →
    ∀ c, findNode s.1.tree p record = some c → nameOf s.1.tree c = some record.name

/-- The mapping has no other node for the id of a record. A root is not entered. -/
def Enterable (s : Agent × ℕ) (record : CallTreeDef) : Prop :=
  if record.parentScorepId = 0 then s.1.scorepidToRts.get? record.scorepId = some 0
  else ∀ p, enclosing s.1.tree record.parentScorepId s.1.tree.length s.2 = .ok p →
    ∀ a, s.1.scorepidToRts.get? record.scorepId = some a → findNode s.1.tree p record = some a

instance (s : Agent × ℕ) (record : CallTreeDef) : Decidable (Recognised s record) :=
  inferInstanceAs (Decidable (if record.parentScorepId = 0 then _ = _
    else ∀ p, enclosing s.1.tree record.parentScorepId s.1.tree.length s.2 = .ok p →
      ∀ c, findNode s.1.tree p record = some c → _ = _))

instance (s : Agent × ℕ) (record : CallTreeDef) : Decidable (Enterable s record) :=
  inferInstanceAs (Decidable (if record.parentScorepId = 0 then _ = _
    else ∀ p, enclosing s.1.tree record.parentScorepId s.1.tree.length s.2 = .ok p →
      ∀ a, s.1.scorepidToRts.get? record.scorepId = some a → _ = _))

end Conditions

/-- What one record does below its parent. -/
structure Inserted (agent agent' : Agent) (p c : ℕ) (record : CallTreeDef) : Prop where
  sound : agent'.Sound
  parent : parentOf agent'.tree c = some p
  younger : p < c
  id : idOf agent'.tree c = some record.scorepId
  ids : ∀ a k, a ≠ c → idOf agent.tree a = some k → idOf agent'.tree a = some k
  parents : ∀ a q, parentOf agent.tree a = some q → parentOf agent'.tree a = some q
  paths : ∀ a path, CallPath agent'.tree a path ↔ CallPath agent.tree a path ∨
    (a = c ∧ ∃ base, CallPath agent.tree p base ∧ path = base ++ [record.name])
  mapping : agent'.scorepidToRts = agent.scorepidToRts.insertNew record.scorepId c

theorem findNode_eq_some {tree : Cells Rts} {p c : ℕ} {record : CallTreeDef}
    (h : findNode tree p record = some c) : c ∈ tree.childrenOf p := List.mem_of_find?_eq_some h

theorem findNode_eq_none {tree : Cells Rts} {p : ℕ} {record : CallTreeDef}
    (h : findNode tree p record = none) {c : ℕ} {cell : Cell Rts} (hc : c ∈ tree.childrenOf p)
    (hcell : tree[c]? = some cell) : cell.data.regionName ≠ record.name := by
  have hnot := List.find?_eq_none.mp h c hc
  rw [dataOf, hcell] at hnot
  simp only [Option.map_some, Bool.or_eq_true, beq_iff_eq, not_or] at hnot
  exact hnot.2

theorem Inserted.merged {agent agent' : Agent} {p c : ℕ} {record : CallTreeDef}
    (h : Inserted agent agent' p c record) {base : List String} (hbase : CallPath agent.tree p base)
    (hrooted : agent.tree.Rooted) :
    Merged agent agent' base [(record.scorepId, [record.name])] ∧
      CallPath agent'.tree c (base ++ [record.name]) := by
  have hpath : CallPath agent'.tree c (base ++ [record.name]) :=
    (h.paths c _).mpr (.inr ⟨rfl, base, hbase, rfl⟩)
  refine ⟨⟨h.sound, h.parents, fun a path hold => (h.paths a path).mpr (.inl hold), ?_, ?_, ?_⟩,
    hpath⟩
  · intro a path ha
    cases (h.paths a path).mp ha with
    | inl hold => exact .inl hold
    | inr hnew =>
      obtain ⟨-, base', hbase', rfl⟩ := hnew
      exact .inr ⟨_, List.mem_singleton_self _, by rw [hbase.functional hrooted hbase']⟩
  · intro call hcall
    rw [List.mem_singleton.mp hcall]
    exact ⟨c, hpath⟩
  · intro k a hk
    rw [h.mapping, OrdMap.get?_insertNew, hk]
    rfl

/-- An enterable id finds the node of its record from then on. -/
theorem Inserted.resolved {agent agent' : Agent} {p c : ℕ} {record : CallTreeDef}
    (h : Inserted agent agent' p c record) {base : List String}
    (hpath : CallPath agent'.tree c (base ++ [record.name]))
    (hmapping : ∀ a, agent.scorepidToRts.get? record.scorepId = some a → a = c) :
    Resolved agent' base [(record.scorepId, [record.name])] := by
  intro call hcall
  rw [List.mem_singleton.mp hcall]
  refine ⟨c, ?_, hpath⟩
  rw [h.mapping, OrdMap.get?_insertNew]
  cases hget : agent.scorepidToRts.get? record.scorepId with
  | none => simp
  | some a => simp [hmapping a hget]

theorem parentOf_of_skeleton {tree tree' : Cells Rts}
    (h : Cells.skeleton Rts.regionName tree = Cells.skeleton Rts.regionName tree') (a : ℕ) :
    parentOf tree' a = parentOf tree a := by
  have hget := congrArg (fun l => (l[a]?).bind fun x => x.2.1) h
  simp only [Cells.skeleton, List.getElem?_map, Option.bind_map] at hget
  exact hget.symm

/-- Writes that leave names and shape do not change the call paths. -/
theorem Merged.of_skeleton {agent agent' : Agent} (hsound : agent.Sound)
    (h : Cells.skeleton Rts.regionName agent'.tree = Cells.skeleton Rts.regionName agent.tree)
    (hmapping : agent'.scorepidToRts = agent.scorepidToRts) (base : List String) :
    Merged agent agent' base [] where
  sound := ⟨hsound.rooted.of_skeleton h.symm, hsound.distinct.of_skeleton h.symm⟩
  parents a q hq := (parentOf_of_skeleton h.symm a).trans hq
  kept _ _ hpath := hpath.of_skeleton h.symm
  only _ _ hpath := .inl (hpath.of_skeleton h)
  all _ hcall := absurd hcall List.not_mem_nil
  mapped k a hk := by rw [hmapping, hk]

theorem callPath_root {tree : Cells Rts} {name : String} (h : nameOf tree 0 = some name) :
    CallPath tree 0 [name] := by
  obtain ⟨data, hdata, rfl⟩ := Option.map_eq_some_iff.mp h
  obtain ⟨cell, hcell, rfl⟩ := Option.map_eq_some_iff.mp hdata
  exact .root cell hcell

theorem callPath_child {tree : Cells Rts} {p c : ℕ} {base : List String} {name : String}
    (hbase : CallPath tree p base) (hc : c ∈ tree.childrenOf p) (hname : nameOf tree c = some name) :
    CallPath tree c (base ++ [name]) := by
  obtain ⟨data, hdata, rfl⟩ := Option.map_eq_some_iff.mp hname
  obtain ⟨cell, hcell, rfl⟩ := Option.map_eq_some_iff.mp hdata
  exact .child p c base cell hbase hc hcell

/-- Writing new ids to the root of the same name. -/
theorem reassignRoot_merged {agent : Agent} (record : CallTreeDef) (hsound : agent.Sound)
    (hname : nameOf agent.tree 0 = some record.name) :
    Merged agent { agent with tree := reassignScorepID agent.tree 0 record } []
      [(record.scorepId, [record.name])] := by
  have hmerged : Merged agent { agent with tree := reassignScorepID agent.tree 0 record } [] [] := by
    apply Merged.of_skeleton hsound
    · exact skeleton_reassignScorepID agent.tree 0 record
    · rfl
  refine ⟨hmerged.sound, hmerged.parents, hmerged.kept, fun a path hpath => ?_, ?_, hmerged.mapped⟩
  · cases hmerged.only a path hpath with
    | inl hold => exact .inl hold
    | inr hnew =>
      obtain ⟨call, hcall, -⟩ := hnew
      exact absurd hcall List.not_mem_nil
  · intro call hcall
    rw [List.mem_singleton.mp hcall]
    exact ⟨0, hmerged.kept 0 _ (callPath_root hname)⟩

end ReadexPtf.Rtstree
