import ReadexPtf.Agents.PropertyRounds
import ReadexPtf.Lib.Weights
import Mathlib

/-! The severities and confidences of the clusters that go up in a forest of high-level agents.
They are rational numbers here and arrive as they were sent; how a message prints them is left
out. -/
namespace ReadexPtf.Agents
open ReadexPtf

section Forwarding

/-- A property with the leaves that were merged into it, of which the agents know nothing. -/
abbrev TracedProperty := MetaProperty ℚ × List (CollectedProperty ℚ)

/-- What is below an agent: leaf properties and other agents. -/
inductive Sources where
  | nothing
  | found (leaf : CollectedProperty ℚ) (others : Sources)
  | agent (nocluster gatherproperties : Bool) (below others : Sources)

def Sources.leaves : Sources → List (CollectedProperty ℚ)
  | .nothing => []
  | .found leaf others => leaf :: others.leaves
  | .agent _ _ below others => below.leaves ++ others.leaves

/-- One call of `clusterProps`. -/
structure Clustering where
  gatherproperties : Bool
  collected : List TracedProperty
  sent : List TracedProperty

def Clustering.groups (call : Clustering) : List (TracedProperty × List TracedProperty) :=
  ReadexPtf.groups (fun a b => joins Autotune.ratArith call.gatherproperties a.1 b.1) call.collected

/-- What is sent for a group has the leaves of its members. -/
structure Clustering.Runs (garbage : Bool) (call : Clustering) : Prop where
  sent : clusterProps Autotune.ratArith garbage call.gatherproperties
    (call.collected.map Prod.fst) = .ok (call.sent.map Prod.fst)
  leaves : List.Forall₂ (fun group t => t.2 = (group.1 :: group.2).flatMap Prod.snd) call.groups
    call.sent

/-- What arrives from `sources` at the agent above them, and the calls of `clusterProps` below.
The properties of several children arrive in any order. An agent that does not cluster passes
them on; any other reads a process of each, and keeps those of the scalability analysis apart. -/
inductive Delivers (garbage : Bool) : Sources → List TracedProperty → List Clustering → Prop where
  | nothing : Delivers garbage .nothing [] []
  | found {leaf : CollectedProperty ℚ} {others : Sources} {arrived : List TracedProperty}
      {calls : List Clustering} (rest : Delivers garbage others arrived calls) :
      Delivers garbage (.found leaf others) ((leaf.1, [leaf]) :: arrived) calls
  | passes {gatherproperties : Bool} {below others : Sources}
      {order found arrived : List TracedProperty} {calls later : List Clustering}
      (inner : Delivers garbage below found calls) (arrives : found.Perm order)
      (rest : Delivers garbage others arrived later) :
      Delivers garbage (.agent true gatherproperties below others) (order ++ arrived)
        (calls ++ later)
  | clusters {gatherproperties : Bool} {below others : Sources}
      {order found sent arrived : List TracedProperty} {calls later : List Clustering}
      (inner : Delivers garbage below found calls) (arrives : found.Perm order)
      (reads : ∀ t ∈ order, ∃ process, t.1.getProcess = .ok process)
      (runs : Clustering.Runs garbage
        ⟨gatherproperties, order.filter fun t => !t.1.hotregion, sent⟩)
      (rest : Delivers garbage others arrived later) :
      Delivers garbage (.agent false gatherproperties below others)
        (sent ++ (order.filter fun t => t.1.hotregion) ++ arrived)
        (calls ++ ⟨gatherproperties, order.filter fun t => !t.1.hotregion, sent⟩ :: later)

end Forwarding

section Purpose

def CollectedProperty.objects (leaf : CollectedProperty ℚ) : ℚ := leaf.1.execObjs.length

/-- How many execution objects a property stands for. -/
def standsFor (t : TracedProperty) : ℚ := (t.2.map CollectedProperty.objects).sum

/-- In a cluster the values of the members are not correlated with how many execution objects
they stand for. Gathering divides by the threads of the first objects in place of the number
of members. -/
def Unbiased (gatherproperties : Bool) (value : MetaProperty ℚ → ℚ)
    (group : TracedProperty × List TracedProperty) : Prop :=
  if gatherproperties then
    ((group.1 :: group.2).map fun t => value t.1).sum * ((group.1 :: group.2).map standsFor).sum =
      ((group.1 :: group.2).map fun t => standsFor t * value t.1).sum *
        groupInstances true (Prod.map Prod.fst (List.map Prod.fst) group)
  else coSpread standsFor (fun t => value t.1) (group.1 :: group.2) = 0

def Clustering.Balanced (call : Clustering) : Prop :=
  ∀ group ∈ call.groups, Unbiased call.gatherproperties MetaProperty.severity group ∧
    Unbiased call.gatherproperties MetaProperty.confidence group

end Purpose

section Means
variable {gatherproperties : Bool} {value : MetaProperty ℚ → ℚ}

end Means

section Calls
variable {garbage : Bool} {call : Clustering}

/-- What an agent relies on for what it has received. -/
structure TracedProperty.Sound (t : TracedProperty) : Prop where
  regionId : t.1.regionId ≠ ""
  pending : t.1.done = false
  leaves : t.2 ≠ []

theorem Clustering.mem_of_mem_groups {group : TracedProperty × List TracedProperty}
    (h : group ∈ call.groups) : ∀ t ∈ group.1 :: group.2, t ∈ call.collected :=
  ReadexPtf.mem_of_mem_groups h

/-- Every property that is sent is the one for its group, with the leaves of the group. -/
theorem Clustering.Runs.merges (h : call.Runs garbage)
    (hcollected : ∀ t ∈ call.collected, t.1.Collected ∧ t.2 ≠ []) :
    List.Forall₂ (fun group t => Merges Autotune.ratArith garbage call.gatherproperties
        (Prod.map Prod.fst (List.map Prod.fst) group) t.1 ∧
      t.2 = (group.1 :: group.2).flatMap Prod.snd) call.groups call.sent := by
  have hprops : ∀ prop ∈ call.collected.map Prod.fst, prop.Collected := by
    intro prop hprop
    obtain ⟨t, ht, rfl⟩ := List.mem_map.mp hprop
    exact (hcollected t ht).1
  obtain ⟨props, hsent, hmerges⟩ := @clusterProps_merges ℚ Autotune.ratArith garbage
    call.gatherproperties _ hprops
  rw [← Outcome.ok.inj (h.sent.symm.trans hsent), groups_map, List.forall₂_map_left_iff,
    List.forall₂_map_right_iff] at hmerges
  exact forall₂_and hmerges h.leaves

theorem Clustering.Runs.sound (h : call.Runs garbage)
    (hcollected : ∀ t ∈ call.collected, t.1.Collected ∧ t.2 ≠ []) :
    ∀ t ∈ call.sent, TracedProperty.Sound t := by
  have hgroups : ∀ group ∈ call.groups, group.1.1.regionId ≠ "" ∧ group.1.2 ≠ [] := by
    intro group hgroup
    have hfirst := hcollected _ (call.mem_of_mem_groups hgroup group.1 List.mem_cons_self)
    exact ⟨hfirst.1.regionId, hfirst.2⟩
  have hmerges := h.merges hcollected
  generalize call.sent = sent at hmerges
  generalize call.groups = groups at hgroups hmerges
  induction hmerges with
  | nil => exact fun t ht => absurd ht List.not_mem_nil
  | @cons group sent groups others hfirst _ ih =>
    obtain ⟨hgroup, hgroups⟩ := List.forall_mem_cons.mp hgroups
    refine List.forall_mem_cons.mpr ⟨⟨?_, hfirst.1.pending, ?_⟩, ih hgroups⟩
    · rw [hfirst.1.forwards.key.2]
      exact hgroup.1
    · rw [hfirst.2, List.flatMap_cons]
      exact List.append_ne_nil_of_left_ne_nil hgroup.2 _

end Calls

section Runs
variable {garbage : Bool} {sources : Sources} {arrived : List TracedProperty}
  {calls : List Clustering}

/-- What an agent keeps for the next clustering. -/
theorem collected_of_reads {order found : List TracedProperty} (arrives : found.Perm order)
    (reads : ∀ t ∈ order, ∃ process, t.1.getProcess = .ok process)
    (hfound : ∀ t ∈ found, TracedProperty.Sound t) :
    ∀ t ∈ order.filter fun t => !t.1.hotregion, t.1.Collected ∧ t.2 ≠ [] := by
  intro t ht
  have horder := List.mem_of_mem_filter ht
  have hsound := hfound t (arrives.symm.subset horder)
  refine ⟨⟨⟨hsound.regionId, fun hnone => ?_⟩, hsound.pending⟩, hsound.leaves⟩
  obtain ⟨process, hprocess⟩ := reads t horder
  rw [MetaProperty.getProcess, hnone] at hprocess
  cases hprocess

theorem Delivers.sound (h : Delivers garbage sources arrived calls) :
    ∀ t ∈ arrived, TracedProperty.Sound t := by
  induction h with
  | nothing => exact fun t ht => absurd ht List.not_mem_nil
  | @found leaf others arrived calls rest ih =>
    refine List.forall_mem_cons.mpr ⟨?_, ih⟩
    exact ⟨leaf.2.regionId, leaf.2.pending, List.cons_ne_nil leaf []⟩
  | passes inner arrives rest ihInner ihRest =>
    intro t ht
    cases List.mem_append.mp ht with
    | inl ht => exact ihInner t (arrives.symm.subset ht)
    | inr ht => exact ihRest t ht
  | clusters inner arrives reads runs rest ihInner ihRest =>
    have hcollected := collected_of_reads arrives reads ihInner
    intro t ht
    simp only [List.mem_append, List.mem_filter] at ht
    rcases ht with (ht | ht) | ht
    · exact runs.sound hcollected t ht
    · exact ihInner t (arrives.symm.subset ht.1)
    · exact ihRest t ht

end Runs

section Instances

end Instances

end ReadexPtf.Agents
