import ReadexPtf.Agents.AgentInfo
import ReadexPtf.Agents.ClusterProps
import ReadexPtf.Lib.Arrivals
import Mathlib

/-! The rounds in which a high-level agent checks its children for properties. -/
namespace ReadexPtf.Agents
open ReadexPtf

inductive PropertyAction where
  | check (tag : String)
  | foundprop (propData : String)
  | propertiessent (tag : String)
  deriving DecidableEq

/-- A message with the child that sends it. -/
inductive PropertyMessage where
  | foundprop (tag propData : String)
  | propertiessent (tag : String)
  deriving DecidableEq

def PropertyMessage.tag : PropertyMessage → String
  | .foundprop tag _ => tag
  | .propertiessent tag => tag

@[simp] theorem PropertyMessage.tag_foundprop (tag propData : String) :
    (PropertyMessage.foundprop tag propData).tag = tag := rfl

@[simp] theorem PropertyMessage.tag_propertiessent (tag : String) :
    (PropertyMessage.propertiessent tag).tag = tag := rfl

def PropertyMessage.sent : PropertyMessage → Option String
  | .foundprop _ _ => none
  | .propertiessent tag => some tag

def PropertyMessage.propData : PropertyMessage → Option String
  | .foundprop _ propData => some propData
  | .propertiessent _ => none

structure PropertyAgent (V : Type) where
  localTag : String
  childAgents : List AgentInfo
  nocluster : Bool
  gatherproperties : Bool
  properties : List (MetaProperty V)
  propertiesHotregionprop : List (MetaProperty V)
  actions : List PropertyAction

/-- What the handlers use beside the agent: the arithmetic, the value that a variable was
left with, the XML parser, how numbers are printed, and which children can be connected to. -/
structure PropertyEnv (V : Type) where
  arith : Autotune.DoubleArith V
  garbage : Bool
  readXml : String → Option (PropertyTree V)
  text : V → String
  reachable : String → ℤ → Bool

section Handlers
variable {V : Type} (env : PropertyEnv V)

def PropertyEnv.read (propData : String) : Outcome (MetaProperty V) :=
  MetaProperty.fromXMLDeserialize (env.arith.ofInt 0) env.readXml propData

/-- Properties for the scalability analysis have their values in the name. -/
def MetaProperty.hotregion (prop : MetaProperty V) : Bool :=
  (findFrom [':', ':', ':', ':', ':'] prop.name.toList 0).isSome

/-- The debug message reads a process of the property. -/
def PropertyAgent.foundProperty (agent : PropertyAgent V) (propData : String) :
    Outcome (PropertyAgent V) :=
  if agent.nocluster then .ok { agent with actions := agent.actions ++ [.foundprop propData] }
  else do
    let prop ← env.read propData
    let _process ← prop.getProcess
    if prop.hotregion then
      .ok { agent with propertiesHotregionprop := agent.propertiesHotregionprop ++ [prop] }
    else .ok { agent with properties := agent.properties ++ [prop] }

/-- The properties go to the parent as they are. -/
def PropertyAgent.forward (agent : PropertyAgent V) (props : List (MetaProperty V)) :
    PropertyAgent V :=
  { agent with
    actions := agent.actions ++
      props.map fun prop => .foundprop (prop.toXMLSerialize env.text) }

def PropertyAgent.clusterProps (agent : PropertyAgent V) : Outcome (PropertyAgent V) := do
  let props ← Agents.clusterProps env.arith env.garbage agent.gatherproperties agent.properties
  .ok { agent.forward env props with properties := [] }

def PropertyAgent.addHotRegionProps (agent : PropertyAgent V) : PropertyAgent V :=
  { agent.forward env agent.propertiesHotregionprop with propertiesHotregionprop := [] }

def PropertyAgent.propertiessent (agent : PropertyAgent V) : PropertyAgent V :=
  { agent with actions := agent.actions ++ [.propertiessent agent.localTag] }

/-- Here the loop goes through all children. -/
def markPropertiesSent (tag : String) (agents : List AgentInfo) : List AgentInfo :=
  agents.map fun ai => if ai.tag = tag then { ai with propertiesSent := true } else ai

def PropertyAgent.onPropertiessent (agent : PropertyAgent V) (tag : String) :
    Outcome (PropertyAgent V) :=
  let agent := { agent with childAgents := markPropertiesSent tag agent.childAgents }
  if agent.childAgents.all AgentInfo.propertiesSent then
    if agent.nocluster then .ok agent.propertiessent
    else do
      let agent ← agent.clusterProps env
      .ok (agent.addHotRegionProps env).propertiessent
  else .ok agent

def PropertyAgent.onCheck (agent : PropertyAgent V) : PropertyAgent V :=
  let (childAgents, actions) := forChildren env.reachable
    (fun ai => { ai with propertiesSent := false }) PropertyAction.check agent.childAgents
  { agent with childAgents, actions := agent.actions ++ actions }

def PropertyAgent.receive (agent : PropertyAgent V) : PropertyMessage → Outcome (PropertyAgent V)
  | .foundprop _ propData => agent.foundProperty env propData
  | .propertiessent tag => agent.onPropertiessent env tag

def PropertyAgent.run (agent : PropertyAgent V) (messages : List PropertyMessage) :
    Outcome (PropertyAgent V) :=
  messages.foldlM (PropertyAgent.receive env) agent

end Handlers

section Rounds
variable {V : Type}

def PropertyAgent.tags (agent : PropertyAgent V) : List String :=
  agent.childAgents.map AgentInfo.tag

/-- How often the agent has told its parent that the properties were sent. -/
def PropertyAgent.reports (agent : PropertyAgent V) : ℕ :=
  agent.actions.count (.propertiessent agent.localTag)

/-- The children that have sent their properties. -/
def propertySenders (messages : List PropertyMessage) : List String :=
  messages.filterMap PropertyMessage.sent

@[simp] theorem propertySenders_foundprop (tag propData : String)
    (rest : List PropertyMessage) :
    propertySenders (.foundprop tag propData :: rest) = propertySenders rest := rfl

@[simp] theorem propertySenders_propertiessent (tag : String) (rest : List PropertyMessage) :
    propertySenders (.propertiessent tag :: rest) = tag :: propertySenders rest := rfl

def foundProps (messages : List PropertyMessage) : List String :=
  messages.filterMap PropertyMessage.propData

/-- The messages of the children in any order, where each child sends its properties before
it says so. -/
structure Interleaving (tags : List String) (messages : List PropertyMessage) : Prop where
  children : ∀ message ∈ messages, message.tag ∈ tags
  streams : ∀ tag ∈ tags, ∃ found : List String,
    messages.filter (fun message => message.tag = tag) =
      found.map (.foundprop tag) ++ [.propertiessent tag]

/-- The properties in the messages can be read and name an execution object. -/
def Readable (env : PropertyEnv V) (messages : List PropertyMessage) : Prop :=
  ∀ propData ∈ foundProps messages, ∃ prop, env.read propData = .ok prop ∧ prop.execObjs ≠ []

/-- A property is among those that were sent, or was merged into one of them. -/
def SentIn (env : PropertyEnv V) (nocluster : Bool) (sent : List PropertyAction)
    (propData : String) : Prop :=
  if nocluster then .foundprop propData ∈ sent
  else ∃ prop merged : MetaProperty V, env.read propData = .ok prop ∧
    .foundprop (merged.toXMLSerialize env.text) ∈ sent ∧
    merged.id = prop.id ∧ merged.regionId = prop.regionId

/-- The agent reports once, when all children have sent their properties, and every property
of the round was sent on before. -/
structure PropertiesForwarded (env : PropertyEnv V) (agent : PropertyAgent V)
    (messages : List PropertyMessage) : Prop where
  reported : ∀ first rest, messages = first ++ rest →
    ∃ next, (agent.onCheck env).run env first = .ok next ∧
      next.reports = agent.reports + if agent.tags ⊆ propertySenders first then 1 else 0
  forwarded : ∃ last sent, (agent.onCheck env).run env messages = .ok last ∧
    last.actions = (agent.onCheck env).actions ++ sent ++ [.propertiessent agent.localTag] ∧
    ∀ propData ∈ foundProps messages, SentIn env agent.nocluster sent propData

end Rounds

/-- What an agent keeps between the messages. -/
def PropertyAgent.Sound {V : Type} (agent : PropertyAgent V) : Prop :=
  ∀ prop ∈ agent.properties ++ agent.propertiesHotregionprop, prop.Collected

def propertyMarks (agents : List AgentInfo) : List (String × Bool) :=
  agents.map fun ai => (ai.tag, ai.propertiesSent)

/-- An agent that has received some of the messages of a round, and waits for others. -/
structure Collecting {V : Type} (env : PropertyEnv V) (start : PropertyAgent V)
    (first : List PropertyMessage) (agent : PropertyAgent V) : Prop where
  marked : propertyMarks agent.childAgents = marks start.tags (propertySenders first)
  localTag : agent.localTag = start.localTag
  nocluster : agent.nocluster = start.nocluster
  sound : agent.Sound
  actions : agent.actions = start.actions ++
    if start.nocluster then (foundProps first).map .foundprop else []
  stored : start.nocluster = false → ∀ propData ∈ foundProps first,
    ∃ prop ∈ agent.properties ++ agent.propertiesHotregionprop, env.read propData = .ok prop

section Collecting
variable {V : Type} {env : PropertyEnv V} {start agent : PropertyAgent V}
  {first : List PropertyMessage}

theorem markPropertiesSent_marks (tag : String) (agents : List AgentInfo) :
    propertyMarks (markPropertiesSent tag agents) =
      (propertyMarks agents).map fun mark => (mark.1, mark.2 || decide (mark.1 = tag)) := by
  simp only [propertyMarks, markPropertiesSent, List.map_map]
  apply List.map_congr_left
  intro ai _
  simp only [Function.comp_apply]
  split
  · rename_i htag
    simp [htag]
  · rename_i htag
    simp [htag]

theorem all_propertiesSent (agents : List AgentInfo) :
    agents.all AgentInfo.propertiesSent = (propertyMarks agents).all Prod.snd := by
  rw [propertyMarks, List.all_map]
  rfl

theorem propertySenders_append (messages rest : List PropertyMessage) :
    propertySenders (messages ++ rest) = propertySenders messages ++ propertySenders rest :=
  List.filterMap_append

theorem foundProps_append (messages rest : List PropertyMessage) :
    foundProps (messages ++ rest) = foundProps messages ++ foundProps rest :=
  List.filterMap_append

theorem PropertyEnv.read_collected {propData : String} {prop : MetaProperty V}
    (h : env.read propData = .ok prop) (hobjs : prop.execObjs ≠ []) : prop.Collected := by
  unfold PropertyEnv.read MetaProperty.fromXMLDeserialize at h
  split at h
  · cases h
  · have htree := MetaProperty.ofTree_ok h
    exact ⟨⟨htree.1, hobjs⟩, htree.2⟩

/-- A property that was read is kept with the others. -/
theorem Collecting.foundprop {tag propData : String} (h : Collecting env start first agent)
    (hreadable : start.nocluster = false →
      ∃ prop, env.read propData = .ok prop ∧ prop.execObjs ≠ []) :
    ∃ next, agent.foundProperty env propData = .ok next ∧
      Collecting env start (first ++ [.foundprop tag propData]) next := by
  have hsenders : propertySenders (first ++ [.foundprop tag propData]) = propertySenders first := by
    rw [propertySenders_append]
    exact List.append_nil _
  have hfound : foundProps (first ++ [.foundprop tag propData]) = foundProps first ++ [propData] :=
    foundProps_append first _
  unfold PropertyAgent.foundProperty
  rw [h.nocluster]
  cases hnocluster : start.nocluster with
  | true =>
    rw [if_pos rfl]
    refine ⟨_, rfl, ?_, h.localTag, hnocluster.symm, h.sound, ?_, ?_⟩
    · rw [hsenders]
      exact h.marked
    · rw [h.actions, hnocluster, if_pos rfl, if_pos rfl, hfound, List.map_append,
        List.append_assoc]
      rfl
    · exact fun hfalse => absurd (hnocluster.symm.trans hfalse) (by decide)
  | false =>
    obtain ⟨prop, hread, hobjs⟩ := hreadable hnocluster
    have hcollected := PropertyEnv.read_collected hread hobjs
    obtain ⟨process, hprocess⟩ := hcollected.toSound.getProcess
    have hstored : ∀ kept : List (MetaProperty V),
        (∀ other ∈ agent.properties ++ agent.propertiesHotregionprop, other ∈ kept) →
        prop ∈ kept → ∀ data ∈ foundProps first ++ [propData],
          ∃ other ∈ kept, env.read data = .ok other := by
      intro kept hothers hprop data hdata
      cases List.mem_append.mp hdata with
      | inl hearlier =>
        obtain ⟨other, hother, hreadOther⟩ := h.stored hnocluster data hearlier
        exact ⟨other, hothers other hother, hreadOther⟩
      | inr hlast => exact ⟨prop, hprop, List.mem_singleton.mp hlast ▸ hread⟩
    have hsound : ∀ kept : List (MetaProperty V),
        (∀ other ∈ kept, other ∈ agent.properties ++ agent.propertiesHotregionprop ∨
          other = prop) → ∀ other ∈ kept, other.Collected := by
      intro kept hkept other hother
      cases hkept other hother with
      | inl hearlier => exact h.sound other hearlier
      | inr heq => exact heq ▸ hcollected
    have hactions : agent.actions = start.actions ++ [] := by
      rw [h.actions, hnocluster, if_neg Bool.false_ne_true]
    rw [if_neg Bool.false_ne_true, hread, Outcome.ok_bind, hprocess, Outcome.ok_bind]
    split
    · refine ⟨_, rfl, by rw [hsenders]; exact h.marked, h.localTag, hnocluster.symm, ?_, ?_, ?_⟩
      · exact hsound _ (by simp; tauto)
      · rw [hnocluster, if_neg Bool.false_ne_true]
        exact hactions
      · intro _
        rw [hfound]
        exact hstored _ (by simp; tauto) (by simp)
    · refine ⟨_, rfl, by rw [hsenders]; exact h.marked, h.localTag, hnocluster.symm, ?_, ?_, ?_⟩
      · exact hsound _ (by simp; tauto)
      · rw [hnocluster, if_neg Bool.false_ne_true]
        exact hactions
      · intro _
        rw [hfound]
        exact hstored _ (by simp; tauto) (by simp)

/-- The flag of the sender is set, and the agent goes on to wait. -/
theorem Collecting.propertiessent {tag : String} (h : Collecting env start first agent)
    (hwaits : ¬start.tags ⊆ propertySenders (first ++ [.propertiessent tag])) :
    ∃ next, agent.onPropertiessent env tag = .ok next ∧
      Collecting env start (first ++ [.propertiessent tag]) next := by
  have hmarked : propertyMarks (markPropertiesSent tag agent.childAgents) =
      marks start.tags (propertySenders (first ++ [.propertiessent tag])) := by
    rw [markPropertiesSent_marks, h.marked, ← marks_snoc, propertySenders_append]
    rfl
  have hfound : foundProps (first ++ [.propertiessent tag]) = foundProps first := by
    rw [foundProps_append]
    exact List.append_nil _
  have hwaiting : ¬(markPropertiesSent tag agent.childAgents).all AgentInfo.propertiesSent = true := by
    rw [all_propertiesSent, hmarked, marks_all]
    exact hwaits
  refine ⟨{ agent with childAgents := markPropertiesSent tag agent.childAgents }, ?_, hmarked,
    h.localTag, h.nocluster, h.sound, ?_, ?_⟩
  · rw [PropertyAgent.onPropertiessent, if_neg hwaiting]
  · rw [hfound]
    exact h.actions
  · rw [hfound]
    exact h.stored

/-- Before all children have sent their properties the agent only waits. -/
theorem Collecting.run {messages : List PropertyMessage} (h : Collecting env start [] start)
    (hreadable : start.nocluster = false → Readable env messages)
    (hwaits : ¬start.tags ⊆ propertySenders messages) :
    ∃ next, start.run env messages = .ok next ∧ Collecting env start messages next := by
  induction messages using List.reverseRecOn with
  | nil => exact ⟨start, rfl, h⟩
  | append_singleton messages message ih =>
    have hearlier : start.nocluster = false → Readable env messages := fun hnocluster propData hdata =>
      hreadable hnocluster propData (by
        rw [foundProps_append]
        exact List.mem_append_left _ hdata)
    have hstill : ¬start.tags ⊆ propertySenders messages := fun hall =>
      hwaits fun tag htag => by
        rw [propertySenders_append]
        exact List.mem_append_left _ (hall htag)
    obtain ⟨before, hbefore, hcollecting⟩ := ih hearlier hstill
    have hrun : start.run env (messages ++ [message]) = before.receive env message := by
      rw [PropertyAgent.run, List.foldlM_append]
      show (start.run env messages >>= fun agent => List.foldlM _ agent [message]) = _
      rw [hbefore, Outcome.ok_bind, List.foldlM_cons]
      cases before.receive env message <;> rfl
    rw [hrun]
    cases message with
    | foundprop tag propData =>
      exact hcollecting.foundprop fun hnocluster =>
        hreadable hnocluster propData (by
          rw [foundProps_append]
          exact List.mem_append_right _ List.mem_cons_self)
    | propertiessent tag => exact hcollecting.propertiessent hwaits

/-- What is kept is sent on, each property as it is or merged. -/
theorem PropertyAgent.clusterProps_ok (hsound : agent.Sound) :
    ∃ sent next, (agent.clusterProps env) = .ok next ∧
      (next.addHotRegionProps env).actions = agent.actions ++ sent ∧
      (next.addHotRegionProps env).localTag = agent.localTag ∧
      (∀ tag, PropertyAction.propertiessent tag ∉ sent) ∧
      ∀ prop ∈ agent.properties ++ agent.propertiesHotregionprop,
        ∃ merged : MetaProperty V, .foundprop (merged.toXMLSerialize env.text) ∈ sent ∧
          merged.id = prop.id ∧ merged.regionId = prop.regionId := by
  obtain ⟨props, hprops, hforwards⟩ := @clusterProps_spec V env.arith env.garbage
    agent.gatherproperties agent.properties fun prop hprop =>
      hsound prop (List.mem_append_left _ hprop)
  refine ⟨(props ++ agent.propertiesHotregionprop).map fun prop =>
    .foundprop (prop.toXMLSerialize env.text),
    { agent.forward env props with properties := [] }, ?_, ?_, rfl, ?_, ?_⟩
  · rw [PropertyAgent.clusterProps, hprops]
    rfl
  · show agent.actions ++ _ ++ _ = _
    rw [List.append_assoc, ← List.map_append]
    rfl
  · intro tag h
    obtain ⟨prop, -, heq⟩ := List.mem_map.mp h
    cases heq
  · intro prop hprop
    cases List.mem_append.mp hprop with
    | inl hkept =>
      obtain ⟨merged, hmerged, hkey⟩ := exists_sent hforwards hkept
      exact ⟨merged, List.mem_map.mpr ⟨merged, List.mem_append_left _ hmerged, rfl⟩, hkey⟩
    | inr hhot =>
      exact ⟨prop, List.mem_map.mpr ⟨prop, List.mem_append_right _ hhot, rfl⟩, rfl, rfl⟩

/-- The last message of a round. -/
theorem Collecting.last {tag : String} (h : Collecting env start first agent)
    (hall : start.tags ⊆ propertySenders (first ++ [.propertiessent tag])) :
    ∃ next sent, agent.onPropertiessent env tag = .ok next ∧ next.localTag = start.localTag ∧
      next.actions = start.actions ++ sent ++ [.propertiessent start.localTag] ∧
      (∀ tag, PropertyAction.propertiessent tag ∉ sent) ∧
      ∀ propData ∈ foundProps first, SentIn env start.nocluster sent propData := by
  have hmarked : propertyMarks (markPropertiesSent tag agent.childAgents) =
      marks start.tags (propertySenders (first ++ [.propertiessent tag])) := by
    rw [markPropertiesSent_marks, h.marked, ← marks_snoc, propertySenders_append]
    rfl
  have hdone : (markPropertiesSent tag agent.childAgents).all AgentInfo.propertiesSent = true := by
    rw [all_propertiesSent, hmarked, marks_all]
    exact hall
  rw [PropertyAgent.onPropertiessent, if_pos hdone]
  cases hnocluster : start.nocluster with
  | true =>
    have hactions := h.actions
    rw [hnocluster, if_pos rfl] at hactions
    rw [if_pos (h.nocluster.trans hnocluster)]
    refine ⟨_, (foundProps first).map .foundprop, rfl, h.localTag, ?_, by simp, ?_⟩
    · show agent.actions ++ [_] = _
      rw [hactions, ← h.localTag]
    · intro propData hdata
      exact List.mem_map_of_mem hdata
  | false =>
    have hactions : agent.actions = start.actions := by
      rw [h.actions, hnocluster, if_neg Bool.false_ne_true, List.append_nil]
    obtain ⟨marked, hmarkedAgent⟩ : ∃ marked : PropertyAgent V, marked =
        { agent with childAgents := markPropertiesSent tag agent.childAgents } := ⟨_, rfl⟩
    have hsound : marked.Sound := by
      rw [hmarkedAgent]
      exact h.sound
    obtain ⟨sent, clustered, hclustered, hsent, hlocal, hnone, hmerged⟩ :=
      @PropertyAgent.clusterProps_ok V env marked hsound
    rw [hmarkedAgent] at hclustered hsent hlocal hmerged
    refine ⟨(clustered.addHotRegionProps env).propertiessent, sent, ?_, hlocal.trans h.localTag,
      ?_, hnone, ?_⟩
    · rw [if_neg (by rw [h.nocluster, hnocluster]; exact Bool.false_ne_true), hclustered]
      rfl
    · show (clustered.addHotRegionProps env).actions ++ [_] = _
      rw [hsent, hlocal, ← h.localTag, hactions]
    · intro propData hdata
      obtain ⟨prop, hprop, hread⟩ := h.stored hnocluster propData hdata
      obtain ⟨merged, hforwarded, hkey⟩ := hmerged prop hprop
      exact ⟨prop, merged, hread, hforwarded, hkey⟩

end Collecting

section Interleavings
variable {tags : List String} {messages : List PropertyMessage}

theorem propertySenders_filter (tag : String) (messages : List PropertyMessage) :
    (propertySenders messages).filter (· = tag) =
      propertySenders (messages.filter fun message => message.tag = tag) := by
  induction messages with
  | nil => rfl
  | cons message rest ih =>
    cases message with
    | foundprop other propData =>
      by_cases htag : other = tag <;> simp [htag, ih]
    | propertiessent other =>
      by_cases htag : other = tag <;> simp [htag, ih]

/-- Each child says once that it has sent its properties. -/
theorem Interleaving.senders (h : Interleaving tags messages) (htags : tags.Nodup) :
    (propertySenders messages).Perm tags := by
  rw [List.perm_iff_count]
  intro tag
  by_cases htag : tag ∈ tags
  · obtain ⟨found, hfound⟩ := h.streams tag htag
    have honly : (propertySenders messages).filter (· = tag) = [tag] := by
      have hnone : propertySenders (found.map (PropertyMessage.foundprop tag)) = [] := by
        rw [propertySenders, List.filterMap_map]
        exact List.filterMap_eq_nil_iff.mpr fun _ _ => rfl
      rw [propertySenders_filter, hfound, propertySenders_append, hnone]
      rfl
    rw [List.count_eq_one_of_mem htags htag, List.count_eq_length_filter]
    have hbeq : (fun x : String => x == tag) = fun x => decide (x = tag) := rfl
    rw [hbeq, honly]
    rfl
  · have hnone : tag ∉ propertySenders messages := by
      intro hmem
      obtain ⟨message, hmessage, hsent⟩ := List.mem_filterMap.mp hmem
      cases message with
      | foundprop other propData => cases hsent
      | propertiessent other =>
        cases hsent
        exact htag (h.children _ hmessage)
    rw [List.count_eq_zero_of_not_mem hnone, List.count_eq_zero_of_not_mem htag]

/-- The last message of a round says that a child has sent its properties. -/
theorem Interleaving.last (h : Interleaving tags messages) (hne : tags ≠ []) :
    ∃ first tag, messages = first ++ [.propertiessent tag] := by
  cases htags : tags with
  | nil => exact absurd htags hne
  | cons child others =>
    obtain ⟨found, hfound⟩ := h.streams child (htags ▸ List.mem_cons_self)
    cases messages using List.reverseRecOn with
    | nil =>
      have hlength := congrArg List.length hfound
      simp at hlength
    | append_singleton first message _ =>
      cases message with
      | propertiessent tag => exact ⟨first, tag, rfl⟩
      | foundprop tag propData =>
        obtain ⟨props, hprops⟩ := h.streams tag
          (h.children (.foundprop tag propData) (List.mem_append_right _ List.mem_cons_self))
        rw [List.filter_append] at hprops
        have hlast := congrArg List.getLast? hprops
        simp [PropertyMessage.tag] at hlast

end Interleavings

section Results
variable {V : Type} {env : PropertyEnv V} {agent : PropertyAgent V}
  {messages : List PropertyMessage}

theorem PropertyAgent.onCheck_childAgents :
    (agent.onCheck env).childAgents = agent.childAgents.map fun ai =>
      if ai.served env.reachable then { ai with handler := true, propertiesSent := false }
      else ai :=
  forChildren_agents

theorem PropertyAgent.onCheck_tags : (agent.onCheck env).tags = agent.tags := by
  rw [PropertyAgent.tags, PropertyAgent.onCheck_childAgents, List.map_map]
  apply List.map_congr_left
  intro ai _
  rw [Function.comp_apply]
  split <;> rfl

/-- Other actions are no reports. -/
theorem PropertyAgent.count_propertiessent {actions : List PropertyAction}
    (h : .propertiessent agent.localTag ∉ actions) :
    (agent.actions ++ actions).count (.propertiessent agent.localTag) = agent.reports := by
  rw [List.count_append, List.count_eq_zero_of_not_mem h]
  rfl

theorem PropertyAgent.onCheck_reports : (agent.onCheck env).reports = agent.reports := by
  have hothers : PropertyAction.propertiessent agent.localTag ∉ (forChildren env.reachable
      (fun ai => { ai with propertiesSent := false }) PropertyAction.check
      agent.childAgents).2 := by
    rw [forChildren_actions]
    intro h
    cases List.mem_map.mp h with
    | intro ai hai => cases hai.2
  exact PropertyAgent.count_propertiessent hothers

/-- The check resets the flags of the children that it reaches. -/
theorem PropertyAgent.onCheck_collecting (hsound : agent.Sound)
    (hserved : ∀ ai ∈ agent.childAgents, ai.served env.reachable = true) :
    Collecting env (agent.onCheck env) [] (agent.onCheck env) where
  marked := by
    rw [propertyMarks, marks, PropertyAgent.tags, PropertyAgent.onCheck_childAgents,
      List.map_map, List.map_map, List.map_map]
    apply List.map_congr_left
    intro ai hai
    rw [Function.comp_apply, Function.comp_apply, if_pos (hserved ai hai)]
    rfl
  localTag := rfl
  nocluster := rfl
  sound := hsound
  actions := by simp [foundProps]
  stored := fun _ propData hdata => by cases hdata

theorem Collecting.reports {start : PropertyAgent V} {first : List PropertyMessage}
    (h : Collecting env start first agent) : agent.reports = start.reports := by
  have hnone : PropertyAction.propertiessent start.localTag ∉
      if start.nocluster then (foundProps first).map PropertyAction.foundprop else [] := by
    split <;> simp
  rw [PropertyAgent.reports, h.actions, h.localTag]
  exact PropertyAgent.count_propertiessent hnone

/-- A round of an agent whose check reaches all of its children, of which there are some. -/
theorem PropertyAgent.propertiesForwarded (hsound : agent.Sound) (htags : agent.tags.Nodup)
    (hchildren : agent.childAgents ≠ [])
    (hserved : ∀ ai ∈ agent.childAgents, ai.served env.reachable = true)
    (hmessages : Interleaving agent.tags messages)
    (hreadable : agent.nocluster = false → Readable env messages) :
    PropertiesForwarded env agent messages := by
  obtain ⟨start, hstart⟩ : ∃ start, start = agent.onCheck env := ⟨_, rfl⟩
  have hcollecting : Collecting env start [] start :=
    hstart ▸ PropertyAgent.onCheck_collecting hsound hserved
  have hstartTags : start.tags = agent.tags := hstart ▸ PropertyAgent.onCheck_tags
  have hreports : start.reports = agent.reports := hstart ▸ PropertyAgent.onCheck_reports
  have hnocluster : start.nocluster = agent.nocluster := by rw [hstart]; rfl
  have hlocalTag : start.localTag = agent.localTag := by rw [hstart]; rfl
  have hsenders := hmessages.senders htags
  obtain ⟨init, tag, hinit⟩ := hmessages.last (by simpa [PropertyAgent.tags] using hchildren)
  -- all children are there exactly at the end of the round
  have hend : ∀ first rest, messages = first ++ rest →
      (agent.tags ⊆ propertySenders first ↔ rest = []) := by
    intro first rest hsplit
    have hall := subset_arrived_iff htags hsenders
      (show propertySenders messages = propertySenders first ++ propertySenders rest by
        rw [hsplit, propertySenders_append])
    rw [hall]
    constructor
    · intro hnone
      cases rest using List.reverseRecOn with
      | nil => rfl
      | append_singleton others message _ =>
        have hlast : message = .propertiessent tag := by
          rw [hinit, ← List.append_assoc] at hsplit
          exact (List.append_inj' hsplit rfl).2 |> fun h => (List.cons.inj h).1.symm
        rw [propertySenders_append, hlast] at hnone
        exact absurd (List.append_eq_nil_iff.mp hnone).2 (by simp [propertySenders, PropertyMessage.sent])
    · intro hnil
      rw [hnil]
      rfl
  have hwaits : ∀ first rest, messages = first ++ rest → rest ≠ [] →
      ∃ next, start.run env first = .ok next ∧ Collecting env start first next := by
    intro first rest hsplit hne
    refine hcollecting.run (fun hclusters propData hdata => ?_) fun hall => ?_
    · refine hreadable (hnocluster ▸ hclusters) propData ?_
      rw [hsplit, foundProps_append]
      exact List.mem_append_left _ hdata
    · exact hne ((hend first rest hsplit).mp (hstartTags ▸ hall))
  obtain ⟨before, hbefore, hwaiting⟩ := hwaits init _ hinit (List.cons_ne_nil _ _)
  have hcomplete : start.tags ⊆ propertySenders (init ++ [.propertiessent tag]) := by
    rw [hstartTags, ← hinit]
    exact (hend messages [] (List.append_nil _).symm).mpr rfl
  obtain ⟨last, sent, hlast, hlastTag, hactions, hnone, hsent⟩ := hwaiting.last hcomplete
  have hrun : start.run env messages = .ok last := by
    rw [PropertyAgent.run, hinit, List.foldlM_append]
    show (start.run env init >>= fun agent => List.foldlM _ agent [_]) = _
    rw [hbefore, Outcome.ok_bind, List.foldlM_cons]
    show (before.onPropertiessent env tag >>= fun agent => List.foldlM _ agent []) = _
    rw [hlast]
    rfl
  constructor
  · intro first rest hsplit
    rw [← hstart]
    by_cases hrest : rest = []
    · have hfirst : messages = first := by rw [hsplit, hrest, List.append_nil]
      refine ⟨last, hfirst ▸ hrun, ?_⟩
      rw [if_pos ((hend first rest hsplit).mpr hrest), PropertyAgent.reports, hlastTag, hactions,
        List.count_append, List.count_singleton_self, ← hreports]
      exact congrArg (· + 1) (PropertyAgent.count_propertiessent (hnone _))
    · obtain ⟨next, hnext, hcollected⟩ := hwaits first rest hsplit hrest
      refine ⟨next, hnext, ?_⟩
      rw [if_neg fun hall => hrest ((hend first rest hsplit).mp hall), hcollected.reports,
        hreports, Nat.add_zero]
  · refine ⟨last, sent, hstart ▸ hrun, ?_, ?_⟩
    · rw [← hstart, ← hlocalTag]
      exact hactions
    · intro propData hdata
      rw [← hnocluster]
      apply hsent
      rw [hinit, foundProps_append] at hdata
      exact (List.append_nil (foundProps init)) ▸ hdata

/-- An agent with children that every check reaches. -/
structure PropertyAgent.Ready (env : PropertyEnv V) (agent : PropertyAgent V) : Prop where
  sound : agent.Sound
  tags : agent.tags.Nodup
  children : agent.childAgents ≠ []
  served : ∀ ai ∈ agent.childAgents, ai.served env.reachable = true

/-- What the messages of a round do not change. -/
def PropertyAgent.fixed (env : PropertyEnv V) (agent : PropertyAgent V) :
    List (String × Bool) × Bool :=
  (agent.childAgents.map fun ai => (ai.tag, ai.served env.reachable), agent.nocluster)

theorem PropertyAgent.tags_eq_fixed : agent.tags = (agent.fixed env).1.map Prod.fst := by
  rw [PropertyAgent.fixed, List.map_map]
  rfl

/-- An agent stays ready while its children stay the same. -/
theorem PropertyAgent.Ready.of_fixed {next : PropertyAgent V} (h : agent.Ready env)
    (hsound : next.Sound) (hfixed : next.fixed env = agent.fixed env) : next.Ready env where
  sound := hsound
  tags := by
    rw [PropertyAgent.tags_eq_fixed, hfixed, ← PropertyAgent.tags_eq_fixed]
    exact h.tags
  children := by
    intro hnil
    have hlength := congrArg (fun fixed => fixed.1.length) hfixed
    simp only [PropertyAgent.fixed, List.length_map, hnil, List.length_nil] at hlength
    exact h.children (List.length_eq_zero_iff.mp hlength.symm)
  served := by
    intro ai hai
    have hmem : (ai.tag, ai.served env.reachable) ∈ (agent.fixed env).1 := by
      rw [← hfixed]
      exact List.mem_map_of_mem hai
    obtain ⟨child, hchild, heq⟩ := List.mem_map.mp hmem
    exact (congrArg Prod.snd heq).symm.trans (h.served child hchild)

theorem PropertyAgent.onCheck_fixed : (agent.onCheck env).fixed env = agent.fixed env := by
  unfold PropertyAgent.fixed
  rw [PropertyAgent.onCheck_childAgents, List.map_map]
  refine Prod.ext (List.map_congr_left fun ai _ => ?_) rfl
  rw [Function.comp_apply]
  split
  · rename_i hserved
    have hstill : AgentInfo.served env.reachable { ai with
        handler := true
        propertiesSent := false } = true := by
      rw [AgentInfo.served, Bool.and_eq_true] at hserved ⊢
      exact ⟨hserved.1, rfl⟩
    rw [hstill, hserved]
  · rfl

theorem markPropertiesSent_fixed (reachable : String → ℤ → Bool) (tag : String)
    (agents : List AgentInfo) :
    (markPropertiesSent tag agents).map (fun ai => (ai.tag, ai.served reachable)) =
      agents.map fun ai => (ai.tag, ai.served reachable) := by
  rw [markPropertiesSent, List.map_map]
  apply List.map_congr_left
  intro ai _
  rw [Function.comp_apply]
  split <;> rfl

/-- Whatever the agent receives, what it keeps is sound and its children stay. -/
theorem PropertyAgent.receive_keeps {message : PropertyMessage} {next : PropertyAgent V}
    (hsound : agent.Sound) (h : agent.receive env message = .ok next) :
    next.Sound ∧ next.fixed env = agent.fixed env := by
  cases message with
  | foundprop tag propData =>
    have hreceive : agent.foundProperty env propData = .ok next := h
    unfold PropertyAgent.foundProperty at hreceive
    split at hreceive
    · cases hreceive
      exact ⟨hsound, rfl⟩
    · rw [Outcome.bind_eq_ok] at hreceive
      obtain ⟨prop, hread, hreceive⟩ := hreceive
      rw [Outcome.bind_eq_ok] at hreceive
      obtain ⟨process, hprocess, hreceive⟩ := hreceive
      have hobjs : prop.execObjs ≠ [] := by
        intro hnil
        rw [MetaProperty.getProcess, hnil] at hprocess
        cases hprocess
      have hcollected := PropertyEnv.read_collected hread hobjs
      have hkept : ∀ kept : List (MetaProperty V),
          (∀ other ∈ kept, other ∈ agent.properties ++ agent.propertiesHotregionprop ∨
            other = prop) → ∀ other ∈ kept, other.Collected := by
        intro kept hkept other hother
        cases hkept other hother with
        | inl hearlier => exact hsound other hearlier
        | inr heq => exact heq ▸ hcollected
      split at hreceive
      · rw [← Outcome.ok.inj hreceive]
        exact ⟨hkept _ (by simp; tauto), rfl⟩
      · rw [← Outcome.ok.inj hreceive]
        exact ⟨hkept _ (by simp; tauto), rfl⟩
  | propertiessent tag =>
    have hreceive : agent.onPropertiessent env tag = .ok next := h
    have hfixed := markPropertiesSent_fixed env.reachable tag agent.childAgents
    unfold PropertyAgent.onPropertiessent at hreceive
    dsimp only at hreceive
    split at hreceive
    · split at hreceive
      · rw [← Outcome.ok.inj hreceive]
        exact ⟨hsound, Prod.ext hfixed rfl⟩
      · rw [Outcome.bind_eq_ok] at hreceive
        obtain ⟨clustered, hclustered, hreceive⟩ := hreceive
        rw [PropertyAgent.clusterProps, Outcome.bind_eq_ok] at hclustered
        obtain ⟨props, -, hclustered⟩ := hclustered
        rw [← Outcome.ok.inj hreceive, ← Outcome.ok.inj hclustered]
        exact ⟨fun prop hprop => (by cases hprop), Prod.ext hfixed rfl⟩
    · rw [← Outcome.ok.inj hreceive]
      exact ⟨hsound, Prod.ext hfixed rfl⟩

theorem PropertyAgent.run_keeps {next : PropertyAgent V} (hsound : agent.Sound)
    (h : agent.run env messages = .ok next) :
    next.Sound ∧ next.fixed env = agent.fixed env := by
  refine Outcome.foldlM_invariant (fun after => after.Sound ∧ after.fixed env = agent.fixed env)
    ?_ messages agent next ⟨hsound, rfl⟩ h
  intro before message after hbefore hafter
  have hkeeps := PropertyAgent.receive_keeps hbefore.1 hafter
  exact ⟨hkeeps.1, hkeeps.2.trans hbefore.2⟩

/-- A check and the messages that answer it. -/
def PropertyAgent.round (env : PropertyEnv V) (agent : PropertyAgent V)
    (messages : List PropertyMessage) : Outcome (PropertyAgent V) :=
  (agent.onCheck env).run env messages

/-- In every round of a run the agent reports once, after it has sent on what it was told. -/
theorem PropertyAgent.propertiesForwarded_rounds {rounds past future : List (List PropertyMessage)}
    (hready : agent.Ready env)
    (hrounds : ∀ messages ∈ rounds, Interleaving agent.tags messages ∧
      (agent.nocluster = false → Readable env messages))
    (hsplit : rounds = past ++ messages :: future) :
    ∃ before, past.foldlM (PropertyAgent.round env) agent = .ok before ∧
      PropertiesForwarded env before messages := by
  induction past generalizing agent rounds with
  | nil =>
    have hround := hrounds messages (by rw [hsplit]; exact List.mem_cons_self)
    exact ⟨agent, rfl, PropertyAgent.propertiesForwarded hready.sound hready.tags
      hready.children hready.served hround.1 hround.2⟩
  | cons first past ih =>
    have hround := hrounds first (by rw [hsplit]; exact List.mem_cons_self)
    obtain ⟨last, -, hlast, -⟩ := (PropertyAgent.propertiesForwarded hready.sound hready.tags
      hready.children hready.served hround.1 hround.2).forwarded
    have hchecked : (agent.onCheck env).Sound := hready.sound
    have hkeeps := PropertyAgent.run_keeps hchecked hlast
    have hfixed : last.fixed env = agent.fixed env := hkeeps.2.trans PropertyAgent.onCheck_fixed
    have htags : last.tags = agent.tags := by
      rw [PropertyAgent.tags_eq_fixed, hfixed, ← PropertyAgent.tags_eq_fixed]
    have hnocluster : last.nocluster = agent.nocluster := congrArg Prod.snd hfixed
    obtain ⟨before, hbefore, hforwarded⟩ := @ih last (past ++ messages :: future)
      (hready.of_fixed hkeeps.1 hfixed) (fun other hother => by
        rw [htags, hnocluster]
        exact hrounds other (by rw [hsplit]; exact List.mem_cons_of_mem first hother)) rfl
    refine ⟨before, ?_, hforwarded⟩
    rw [List.foldlM_cons]
    show (PropertyAgent.round env agent first >>= _) = _
    rw [PropertyAgent.round, hlast]
    exact hbefore

end Results

section Instances

/-- What the parser reads of a property of one thread. -/
def soloTree : PropertyTree ℚ where
  id := "1-0"
  cluster := "false"
  name := "Execution Time"
  severity := 1
  confidence := 1
  purpose := 0
  fileId := 1
  fileName := "main.c"
  startLine := 1
  regionType := 1
  configuration := "1x1"
  regionId := some "main.c*main*1"
  callpath := "main"
  rtsBased := false
  execObjs := [⟨0, 0⟩]
  addInfo := []

def soloEnv : PropertyEnv ℚ where
  arith := Autotune.ratArith
  garbage := false
  readXml := fun propData => if propData = "<property/>" then some soloTree else none
  text := fun q => toString q.num
  reachable := fun _ _ => true

def PropertyAgent.ofChildren (childAgents : List AgentInfo) : PropertyAgent ℚ :=
  ⟨"hl", childAgents, false, false, [], [], []⟩

theorem soloEnv_read : ∃ prop, soloEnv.read "<property/>" = .ok prop ∧ prop.execObjs ≠ [] := by
  refine ⟨_, rfl, ?_⟩
  exact List.cons_ne_nil _ _

/-- Two children, the first of which sends a property. -/
theorem PropertyAgent.propertiesForwarded_rounds_pair :
    ∃ before, ([] : List (List PropertyMessage)).foldlM (PropertyAgent.round soloEnv)
        (.ofChildren [.ofTag "a", .ofTag "b"]) = .ok before ∧
      PropertiesForwarded soloEnv before
        [.foundprop "a" "<property/>", .propertiessent "b", .propertiessent "a"] := by
  refine @PropertyAgent.propertiesForwarded_rounds ℚ soloEnv (.ofChildren [.ofTag "a", .ofTag "b"])
    _ _ [] [] ⟨fun prop hprop => (by cases hprop), by decide, by decide, by decide⟩ ?_ rfl
  intro messages hmessages
  rw [List.mem_singleton.mp hmessages]
  refine ⟨⟨by decide, ?_⟩, ?_⟩
  · intro tag htag
    have hpair : tag ∈ ["a", "b"] := htag
    have hcases : tag = "a" ∨ tag = "b" := by simpa using hpair
    cases hcases with
    | inl h => exact ⟨["<property/>"], by rw [h]; decide⟩
    | inr h => exact ⟨[], by rw [h]; decide⟩
  · intro _ propData hdata
    rw [List.mem_singleton.mp hdata]
    exact soloEnv_read

/-- A child that the check does not reach counts with what it sent before, and an agent
without children never reports. -/
theorem not_propertiesForwarded :
    (¬∀ (env : PropertyEnv ℚ) (agent : PropertyAgent ℚ) (messages : List PropertyMessage),
      agent.Sound → agent.tags.Nodup → agent.childAgents ≠ [] →
      Interleaving agent.tags messages → (agent.nocluster = false → Readable env messages) →
      PropertiesForwarded env agent messages) ∧
    ¬∀ (env : PropertyEnv ℚ) (agent : PropertyAgent ℚ) (messages : List PropertyMessage),
      agent.Sound → agent.tags.Nodup →
      (∀ ai ∈ agent.childAgents, ai.served env.reachable = true) →
      Interleaving agent.tags messages → (agent.nocluster = false → Readable env messages) →
      PropertiesForwarded env agent messages := by
  constructor
  · intro h
    have hstreams : Interleaving ["a", "b"] [.propertiessent "a", .propertiessent "b"] := by
      refine ⟨by decide, ?_⟩
      intro tag htag
      have hcases : tag = "a" ∨ tag = "b" := by simpa using htag
      cases hcases with
      | inl heq => exact ⟨[], by rw [heq]; decide⟩
      | inr heq => exact ⟨[], by rw [heq]; decide⟩
    have hround := h soloEnv
      (.ofChildren [.ofTag "a", { AgentInfo.ofTag "b" with
        status := .connected
        propertiesSent := true }]) _ (fun prop hprop => (by cases hprop)) (by decide)
      (List.cons_ne_nil _ _) hstreams (fun _ propData hdata => by cases hdata)
    obtain ⟨next, hnext, hreports⟩ := hround.reported [.propertiessent "a"] [.propertiessent "b"] rfl
    cases hnext
    revert hreports
    decide
  · intro h
    have hround := h soloEnv (.ofChildren []) [] (fun prop hprop => (by cases hprop)) (by decide)
      (by decide) ⟨by decide, fun tag htag => by cases htag⟩
      (fun _ propData hdata => by cases hdata)
    obtain ⟨next, hnext, hreports⟩ := hround.reported [] [] rfl
    cases hnext
    revert hreports
    decide

end Instances

end ReadexPtf.Agents
