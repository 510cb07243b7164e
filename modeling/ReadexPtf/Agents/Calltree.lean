import ReadexPtf.Agents.AgentInfo
import ReadexPtf.Lib.Arrivals
import ReadexPtf.Lib.Outcome
import Mathlib

/-! How the call-trees come up from the analysis agents: the frontend's request goes down
through the high-level agents, and each agent tells its parent when the nodes were sent. -/
namespace ReadexPtf.Agents
open ReadexPtf

inductive CalltreeAction where
  | serializecalltree (tag : String)
  | sendcalltree (calltreeData : String)
  | calltreesent (tag : String)
  deriving DecidableEq

/-- What a high-level agent receives from its children. -/
inductive CalltreeMessage where
  | calltree (calltreeData : String)
  | calltreesent (tag : String)
  deriving DecidableEq

def CalltreeMessage.sender : CalltreeMessage → Option String
  | .calltree _ => none
  | .calltreesent tag => some tag

/-- The loop over the children ends at the sender. The result is whether all children before
it have sent their call-trees. -/
def markCalltreeSent (tag : String) : List AgentInfo → List AgentInfo × Bool
  | [] => ([], true)
  | ai :: rest =>
    if ai.tag = tag then ({ ai with calltreeSent := true } :: rest, true)
    else
      let (agents, done) := markCalltreeSent tag rest
      (ai :: agents, ai.calltreeSent && done)

section AnalysisAgent

structure CalltreeLeaf where
  localTag : String
  rtsToSerialize : List String
  actions : List CalltreeAction

def CalltreeLeaf.onSerializecalltree (leaf : CalltreeLeaf) : CalltreeLeaf :=
  { leaf with
    actions := leaf.actions ++
      (leaf.rtsToSerialize.map .sendcalltree ++ [.calltreesent leaf.localTag])
    rtsToSerialize := [] }

end AnalysisAgent

section HighLevelAgent
variable (reachable : String → ℤ → Bool)

structure CalltreeAgent where
  localTag : String
  childAgents : List AgentInfo
  actions : List CalltreeAction

def CalltreeAgent.onSerializecalltree (agent : CalltreeAgent) : CalltreeAgent :=
  let (childAgents, actions) := forChildren reachable
    (fun ai => { ai with calltreeSent := false }) CalltreeAction.serializecalltree
    agent.childAgents
  { agent with childAgents, actions := agent.actions ++ actions }

def CalltreeAgent.onCalltree (agent : CalltreeAgent) (calltreeData : String) :
    CalltreeAgent :=
  { agent with actions := agent.actions ++ [.sendcalltree calltreeData] }

def CalltreeAgent.onCalltreesent (agent : CalltreeAgent) (tag : String) : CalltreeAgent :=
  let (childAgents, done) := markCalltreeSent tag agent.childAgents
  let agent := { agent with childAgents := childAgents }
  if done then { agent with actions := agent.actions ++ [.calltreesent agent.localTag] }
  else agent

def CalltreeAgent.receive (agent : CalltreeAgent) : CalltreeMessage → CalltreeAgent
  | .calltree calltreeData => agent.onCalltree calltreeData
  | .calltreesent tag => agent.onCalltreesent tag

end HighLevelAgent

section Frontend

structure CalltreeFrontend where
  childAgents : List AgentInfo
  automatic : Bool
  stopped : Bool
  quit : Bool
  actions : List CalltreeAction

/-- The children have no handler before a connection was made. -/
def requestCalltree : List AgentInfo → Outcome (List CalltreeAction)
  | [] => .ok []
  | ag :: rest =>
    if ag.handler then do
      let actions ← requestCalltree rest
      .ok (.serializecalltree ag.tag :: actions)
    else .undefined

/-- The request that the loop over the children makes for one of them. -/
def CalltreeFrontend.requestFor (fe : CalltreeFrontend) (child : AgentInfo) :
    Outcome CalltreeFrontend := do
  let childAgents := fe.childAgents.map fun ai =>
    if ai.tag = child.tag then { ai with calltreeSent := false } else ai
  let requests ← requestCalltree childAgents
  .ok { fe with childAgents := childAgents, actions := fe.actions ++ requests }

/-- The step of the frontend in the state REQUESTCALLTREE. -/
def CalltreeFrontend.handleStep (timedOut : Bool) (fe : CalltreeFrontend) :
    Outcome CalltreeFrontend :=
  if fe.childAgents.all fun ai => ai.status = .started then
    fe.childAgents.foldlM CalltreeFrontend.requestFor fe
  else if timedOut then .ok { fe with quit := true }
  else .ok fe

def CalltreeFrontend.onCalltreesent (reachable : String → ℤ → Bool) (fe : CalltreeFrontend)
    (tag : String) : CalltreeFrontend :=
  let (childAgents, done) := markCalltreeSent tag fe.childAgents
  if done then
    let (childAgents, stops) :=
      if fe.automatic then forChildren reachable id id childAgents else (childAgents, [])
    { fe with
      childAgents := childAgents.map fun ai => { ai with calltreeSent := false }
      stopped := fe.stopped || !stops.isEmpty }
  else { fe with childAgents := childAgents }

end Frontend

def CalltreeAgent.tags (agent : CalltreeAgent) : List String :=
  agent.childAgents.map AgentInfo.tag

/-- How often the agent has reported to its parent. -/
def CalltreeAgent.reports (agent : CalltreeAgent) : ℕ :=
  agent.actions.count (.calltreesent agent.localTag)

/-- How often a child was sent a request. -/
def CalltreeAgent.requests (agent : CalltreeAgent) (tag : String) : ℕ :=
  agent.actions.count (.serializecalltree tag)

def CalltreeFrontend.tags (fe : CalltreeFrontend) : List String :=
  fe.childAgents.map AgentInfo.tag

def CalltreeFrontend.requests (fe : CalltreeFrontend) (tag : String) : ℕ :=
  fe.actions.count (.serializecalltree tag)

/-- The children whose reports are among the messages. -/
def calltreeSenders (messages : List CalltreeMessage) : List String :=
  messages.filterMap CalltreeMessage.sender

section Loops

/-- The children with the flag of their call-trees. -/
def calltreeMarks (agents : List AgentInfo) : List (String × Bool) :=
  agents.map fun ai => (ai.tag, ai.calltreeSent)

theorem map_fst_calltreeMarks (agents : List AgentInfo) :
    (calltreeMarks agents).map Prod.fst = agents.map AgentInfo.tag := by
  rw [calltreeMarks, List.map_map]
  rfl

theorem markCalltreeSent_marks {tag : String} {agents : List AgentInfo}
    (htags : (agents.map AgentInfo.tag).Nodup) :
    calltreeMarks (markCalltreeSent tag agents).1 =
      (calltreeMarks agents).map fun mark => (mark.1, mark.2 || decide (mark.1 = tag)) := by
  induction agents with
  | nil => rfl
  | cons ai rest ih =>
    rw [List.map_cons, List.nodup_cons] at htags
    have hrest := ih htags.2
    simp only [calltreeMarks, List.map_map] at hrest ⊢
    by_cases htag : ai.tag = tag
    · -- the other children have other tags, and the loop has left them as they were
      simp only [markCalltreeSent, if_pos htag, List.map_cons, List.cons.injEq]
      refine ⟨by simp [htag], List.map_congr_left fun other hother => ?_⟩
      have hne : other.tag ≠ tag := fun h =>
        htags.1 (List.mem_map.mpr ⟨other, hother, h.trans htag.symm⟩)
      simp [hne]
    · simp only [markCalltreeSent, if_neg htag, List.map_cons, hrest, List.cons.injEq, and_true]
      simp [htag]

theorem markCalltreeSent_done {tag : String} {agents : List AgentInfo} :
    (markCalltreeSent tag agents).2 =
      ((calltreeMarks agents).takeWhile fun mark => mark.1 ≠ tag).all Prod.snd := by
  induction agents with
  | nil => rfl
  | cons ai rest ih =>
    rw [markCalltreeSent, calltreeMarks, List.map_cons, List.takeWhile_cons]
    by_cases htag : ai.tag = tag
    · simp [htag]
    · simp [htag, ih, calltreeMarks]

end Loops

/-- An analysis agent reports once for each request, after its nodes. -/
theorem CalltreeLeaf.onSerializecalltree_reports (leaf : CalltreeLeaf) :
    leaf.onSerializecalltree.actions.count (.calltreesent leaf.localTag) =
      leaf.actions.count (.calltreesent leaf.localTag) + 1 := by
  have hnodes : CalltreeAction.calltreesent leaf.localTag ∉
      leaf.rtsToSerialize.map CalltreeAction.sendcalltree := by simp
  rw [CalltreeLeaf.onSerializecalltree, List.count_append, List.count_append,
    List.count_eq_zero_of_not_mem hnodes, List.count_singleton_self]

section Requests
variable {reachable : String → ℤ → Bool}

theorem requestCalltree_ok {agents : List AgentInfo} {actions : List CalltreeAction}
    (h : requestCalltree agents = .ok actions) :
    actions = agents.map fun ai => .serializecalltree ai.tag := by
  induction agents generalizing actions with
  | nil => cases h; rfl
  | cons ai rest ih =>
    unfold requestCalltree at h
    split at h
    · rw [Outcome.bind_eq_ok] at h
      obtain ⟨others, hothers, heq⟩ := h
      cases heq
      rw [List.map_cons, ih hothers]
    · cases h

theorem count_serializecalltree (agents : List AgentInfo) (tag : String) :
    (agents.map fun ai => CalltreeAction.serializecalltree ai.tag).count
      (.serializecalltree tag) = (agents.map AgentInfo.tag).count tag := by
  induction agents with
  | nil => rfl
  | cons ai rest ih =>
    simp only [List.map_cons, List.count_cons, ih, beq_iff_eq,
      CalltreeAction.serializecalltree.injEq]

/-- One round of the frontend's loop sends a request to every child. -/
theorem CalltreeFrontend.requestFor_ok {fe next : CalltreeFrontend} {child : AgentInfo}
    (h : fe.requestFor child = .ok next) :
    next.tags = fe.tags ∧ ∀ tag, next.requests tag = fe.requests tag + fe.tags.count tag := by
  unfold CalltreeFrontend.requestFor at h
  obtain ⟨childAgents, hchildren⟩ : ∃ childAgents, childAgents = fe.childAgents.map fun ai =>
      if ai.tag = child.tag then { ai with calltreeSent := false } else ai := ⟨_, rfl⟩
  have htags : childAgents.map AgentInfo.tag = fe.tags := by
    rw [hchildren, List.map_map]
    apply List.map_congr_left
    intro ai _
    rw [Function.comp_apply]
    split <;> rfl
  simp only [← hchildren] at h
  rw [Outcome.bind_eq_ok] at h
  obtain ⟨requests, hrequests, heq⟩ := h
  cases heq
  refine ⟨htags, fun tag => ?_⟩
  rw [CalltreeFrontend.requests, List.count_append, requestCalltree_ok hrequests,
    count_serializecalltree, htags]
  rfl

/-- The loop over the children makes one request of all of them for each. -/
theorem CalltreeFrontend.requestLoop_ok {children : List AgentInfo} {fe next : CalltreeFrontend}
    (h : children.foldlM CalltreeFrontend.requestFor fe = .ok next) (tag : String) :
    next.requests tag = fe.requests tag + children.length * fe.tags.count tag := by
  induction children generalizing fe with
  | nil =>
    cases h
    rw [List.length_nil, Nat.zero_mul, Nat.add_zero]
  | cons child rest ih =>
    rw [List.foldlM_cons, Outcome.bind_eq_ok] at h
    obtain ⟨after, hafter, hrest⟩ := h
    have hround := CalltreeFrontend.requestFor_ok hafter
    rw [ih hrest, hround.1, hround.2, List.length_cons, Nat.succ_mul]
    omega

theorem CalltreeFrontend.handleStep_requests {fe next : CalltreeFrontend} {timedOut : Bool}
    (hstarted : ∀ ai ∈ fe.childAgents, ai.status = .started) (htags : fe.tags.Nodup)
    (h : fe.handleStep timedOut = .ok next) {tag : String} (htag : tag ∈ fe.tags) :
    next.requests tag = fe.requests tag + fe.childAgents.length := by
  have hall : (fe.childAgents.all fun ai => ai.status = .started) = true := by
    simpa only [List.all_eq_true, decide_eq_true_eq] using hstarted
  rw [CalltreeFrontend.handleStep, if_pos hall] at h
  rw [CalltreeFrontend.requestLoop_ok h, List.count_eq_one_of_mem htags htag, Nat.mul_one]

theorem AgentInfo.served_update {ai : AgentInfo} (h : ai.served reachable = true) :
    AgentInfo.served reachable { ai with handler := true, calltreeSent := false } = true := by
  rw [AgentInfo.served, Bool.and_eq_true] at h ⊢
  exact ⟨h.1, rfl⟩

theorem CalltreeAgent.onSerializecalltree_childAgents (agent : CalltreeAgent) :
    (agent.onSerializecalltree reachable).childAgents =
      agent.childAgents.map fun ai =>
        if ai.served reachable then { ai with handler := true, calltreeSent := false }
        else ai :=
  forChildren_agents

theorem CalltreeAgent.onSerializecalltree_requests (agent : CalltreeAgent) (tag : String) :
    (agent.onSerializecalltree reachable).requests tag = agent.requests tag +
      ((agent.childAgents.filter (AgentInfo.served reachable)).map AgentInfo.tag).count tag := by
  rw [← count_serializecalltree]
  show List.count _ (agent.actions ++ (forChildren reachable _ _ agent.childAgents).2) = _
  rw [List.count_append, forChildren_actions]
  rfl

/-- The same children are served at the next request. -/
theorem CalltreeAgent.onSerializecalltree_served (agent : CalltreeAgent) :
    ((agent.onSerializecalltree reachable).childAgents.filter
        (AgentInfo.served reachable)).map AgentInfo.tag =
      (agent.childAgents.filter (AgentInfo.served reachable)).map AgentInfo.tag := by
  rw [CalltreeAgent.onSerializecalltree_childAgents]
  induction agent.childAgents with
  | nil => rfl
  | cons ai rest ih =>
    rw [List.map_cons]
    by_cases hserved : ai.served reachable = true
    · rw [if_pos hserved, List.filter_cons_of_pos (AgentInfo.served_update hserved),
        List.filter_cons_of_pos hserved, List.map_cons, List.map_cons, ih]
    · rw [if_neg hserved, List.filter_cons_of_neg hserved, List.filter_cons_of_neg hserved, ih]

/-- Each of the agent's requests goes once to every child that the loop reaches. -/
theorem CalltreeAgent.onSerializecalltree_iterate (agent : CalltreeAgent) (tag : String)
    (n : ℕ) :
    ((CalltreeAgent.onSerializecalltree reachable)^[n] agent).requests tag =
      agent.requests tag + n *
        ((agent.childAgents.filter (AgentInfo.served reachable)).map AgentInfo.tag).count tag := by
  induction n generalizing agent with
  | zero => rw [Function.iterate_zero, id, Nat.zero_mul, Nat.add_zero]
  | succ n ih =>
    rw [Function.iterate_succ_apply, ih, CalltreeAgent.onSerializecalltree_requests,
      CalltreeAgent.onSerializecalltree_served, Nat.succ_mul]
    omega

end Requests

section Reports
variable {reachable : String → ℤ → Bool} {agent : CalltreeAgent}

/-- A report changes the flag of the sender only. -/
theorem CalltreeAgent.onCalltreesent_marks {tag : String} (htags : agent.tags.Nodup) :
    calltreeMarks (agent.onCalltreesent tag).childAgents =
      (calltreeMarks agent.childAgents).map fun mark =>
        (mark.1, mark.2 || decide (mark.1 = tag)) := by
  rw [← markCalltreeSent_marks htags, CalltreeAgent.onCalltreesent]
  dsimp only
  split <;> rfl

/-- The agent passes a report on when all children before the sender have reported. -/
theorem CalltreeAgent.onCalltreesent_reports (tag : String) :
    (agent.onCalltreesent tag).reports = agent.reports +
      if ((calltreeMarks agent.childAgents).takeWhile fun mark => mark.1 ≠ tag).all Prod.snd
      then 1 else 0 := by
  rw [← markCalltreeSent_done, CalltreeAgent.onCalltreesent]
  dsimp only
  split
  · rw [CalltreeAgent.reports, List.count_append, List.count_singleton_self]
    rfl
  · rfl

/-- Other actions are no reports. -/
theorem CalltreeAgent.count_calltreesent {actions : List CalltreeAction}
    (h : .calltreesent agent.localTag ∉ actions) :
    (agent.actions ++ actions).count (.calltreesent agent.localTag) = agent.reports := by
  rw [List.count_append, List.count_eq_zero_of_not_mem h]
  rfl

theorem CalltreeAgent.onCalltree_reports (calltreeData : String) :
    (agent.onCalltree calltreeData).reports = agent.reports := by
  have hother : CalltreeAction.calltreesent agent.localTag ∉
      [CalltreeAction.sendcalltree calltreeData] := by simp
  exact CalltreeAgent.count_calltreesent hother

/-- After a request that reached every child no call-tree is there. -/
theorem CalltreeAgent.onSerializecalltree_marks
    (hserved : ∀ ai ∈ agent.childAgents, ai.served reachable = true) :
    calltreeMarks (agent.onSerializecalltree reachable).childAgents = marks agent.tags [] := by
  rw [CalltreeAgent.onSerializecalltree_childAgents, calltreeMarks, marks, CalltreeAgent.tags,
    List.map_map, List.map_map]
  apply List.map_congr_left
  intro ai hai
  rw [Function.comp_apply, if_pos (hserved ai hai)]
  rfl

theorem CalltreeAgent.onSerializecalltree_tags :
    (agent.onSerializecalltree reachable).tags = agent.tags := by
  rw [CalltreeAgent.tags, CalltreeAgent.onSerializecalltree_childAgents, List.map_map]
  apply List.map_congr_left
  intro ai _
  rw [Function.comp_apply]
  split <;> rfl

theorem CalltreeAgent.onSerializecalltree_reports :
    (agent.onSerializecalltree reachable).reports = agent.reports := by
  have hothers : CalltreeAction.calltreesent agent.localTag ∉ (forChildren reachable
      (fun ai => { ai with calltreeSent := false }) CalltreeAction.serializecalltree
      agent.childAgents).2 := by
    rw [forChildren_actions]
    intro h
    cases List.mem_map.mp h with
    | intro ai hai => cases hai.2
  exact CalltreeAgent.count_calltreesent hothers

theorem calltreeSenders_snoc (messages : List CalltreeMessage) (message : CalltreeMessage) :
    calltreeSenders (messages ++ [message]) =
      calltreeSenders messages ++ message.sender.toList := by
  rw [calltreeSenders, List.filterMap_append]
  cases message <;> rfl

/-- The flags tell which children have reported since the request. -/
theorem CalltreeAgent.run_marks (messages : List CalltreeMessage) (htags : agent.tags.Nodup)
    (hmarks : calltreeMarks agent.childAgents = marks agent.tags []) :
    calltreeMarks (messages.foldl CalltreeAgent.receive agent).childAgents =
      marks agent.tags (calltreeSenders messages) := by
  induction messages using List.reverseRecOn with
  | nil => exact hmarks
  | append_singleton messages message ih =>
    rw [List.foldl_append, calltreeSenders_snoc]
    cases message with
    | calltree calltreeData =>
      rw [CalltreeMessage.sender, Option.toList, List.append_nil]
      exact ih
    | calltreesent tag =>
      have hnodup : (messages.foldl CalltreeAgent.receive agent).tags.Nodup := by
        rw [CalltreeAgent.tags, ← map_fst_calltreeMarks, ih, marks, List.map_map]
        simpa [Function.comp_def] using htags
      show calltreeMarks (CalltreeAgent.onCalltreesent _ tag).childAgents = _
      rw [CalltreeAgent.onCalltreesent_marks hnodup, ih, ← marks_snoc]
      rfl

/-- The report of one child is passed on when those before it in the map are there. -/
theorem CalltreeAgent.run_reports_snoc (messages : List CalltreeMessage) (tag : String)
    (htags : agent.tags.Nodup) (hmarks : calltreeMarks agent.childAgents = marks agent.tags []) :
    ((messages ++ [CalltreeMessage.calltreesent tag]).foldl CalltreeAgent.receive agent).reports =
      (messages.foldl CalltreeAgent.receive agent).reports +
        if (agent.tags.takeWhile fun other => other ≠ tag) ⊆ calltreeSenders messages then 1
        else 0 := by
  rw [List.foldl_append]
  show (CalltreeAgent.onCalltreesent _ tag).reports = _
  rw [CalltreeAgent.onCalltreesent_reports, CalltreeAgent.run_marks messages htags hmarks]
  simp only [marks_takeWhile]

/-- Before the first child of the map has reported, nothing is passed on. -/
theorem CalltreeAgent.run_reports_before {messages : List CalltreeMessage} {tag : String}
    (htags : agent.tags.Nodup) (hmarks : calltreeMarks agent.childAgents = marks agent.tags [])
    (hfirst : agent.tags.head? = some tag) (hbefore : tag ∉ calltreeSenders messages) :
    (messages.foldl CalltreeAgent.receive agent).reports = agent.reports := by
  induction messages using List.reverseRecOn with
  | nil => rfl
  | append_singleton messages message ih =>
    rw [calltreeSenders_snoc, List.mem_append, not_or] at hbefore
    have hrest := ih hbefore.1
    cases message with
    | calltree calltreeData =>
      rw [List.foldl_append, ← hrest]
      exact CalltreeAgent.onCalltree_reports calltreeData
    | calltreesent other =>
      have hne : tag ≠ other := fun h => hbefore.2 (List.mem_singleton.mpr h)
      have hmem : tag ∈ agent.tags.takeWhile fun earlier => earlier ≠ other := by
        rw [List.head?_eq_some_iff] at hfirst
        obtain ⟨later, hlater⟩ := hfirst
        rw [hlater, List.takeWhile_cons_of_pos (by simpa using hne)]
        exact List.mem_cons_self
      rw [CalltreeAgent.run_reports_snoc messages other htags hmarks, hrest,
        if_neg fun h => hbefore.1 (h hmem), Nat.add_zero]

/-- The report of the first child of the map is passed on at once. -/
theorem CalltreeAgent.run_reports_first {messages : List CalltreeMessage} {tag : String}
    (htags : agent.tags.Nodup) (hmarks : calltreeMarks agent.childAgents = marks agent.tags [])
    (hfirst : agent.tags.head? = some tag) (hbefore : tag ∉ calltreeSenders messages) :
    ((messages ++ [CalltreeMessage.calltreesent tag]).foldl CalltreeAgent.receive agent).reports =
      agent.reports + 1 := by
  have hnone : agent.tags.takeWhile (fun other => other ≠ tag) = [] := by
    rw [List.head?_eq_some_iff] at hfirst
    obtain ⟨later, hlater⟩ := hfirst
    rw [hlater, List.takeWhile_cons_of_neg (by simp)]
  rw [CalltreeAgent.run_reports_snoc messages tag htags hmarks,
    CalltreeAgent.run_reports_before htags hmarks hfirst hbefore, hnone,
    if_pos (List.nil_subset _)]

theorem CalltreeAgent.run_reports_nodes {messages : List CalltreeMessage}
    (h : calltreeSenders messages = []) :
    (messages.foldl CalltreeAgent.receive agent).reports = agent.reports := by
  induction messages generalizing agent with
  | nil => rfl
  | cons message rest ih =>
    cases message with
    | calltree calltreeData =>
      rw [List.foldl_cons, ih h]
      exact CalltreeAgent.onCalltree_reports calltreeData
    | calltreesent tag => cases h

theorem calltreeSenders_append (first rest : List CalltreeMessage) :
    calltreeSenders (first ++ rest) = calltreeSenders first ++ calltreeSenders rest :=
  List.filterMap_append

/-- The messages up to the report of a child. -/
theorem calltreeSenders_split {messages : List CalltreeMessage} {tag : String}
    (h : tag ∈ calltreeSenders messages) :
    ∃ first rest, messages = first ++ [.calltreesent tag] ++ rest ∧
      tag ∉ calltreeSenders first := by
  have hmem (list : List CalltreeMessage) :
      tag ∈ calltreeSenders list ↔ .calltreesent tag ∈ list := by
    simp only [calltreeSenders, List.mem_filterMap]
    constructor
    · rintro ⟨message, hmessage, hsender⟩
      cases message with
      | calltree calltreeData => cases hsender
      | calltreesent other => cases hsender; exact hmessage
    · intro hmessage
      exact ⟨_, hmessage, rfl⟩
  obtain ⟨first, rest, hsplit, hfirst⟩ := List.eq_append_cons_of_mem ((hmem messages).mp h)
  exact ⟨first, rest, by simpa using hsplit, fun h => hfirst ((hmem first).mp h)⟩

/-- The frontend does not wait for its other children once the first one has reported. -/
theorem CalltreeFrontend.onCalltreesent_first {fe : CalltreeFrontend} {child : AgentInfo}
    (hfirst : fe.childAgents.head? = some child) (hserved : child.served reachable = true)
    (hautomatic : fe.automatic = true) :
    (fe.onCalltreesent reachable child.tag).stopped = true := by
  rw [List.head?_eq_some_iff] at hfirst
  obtain ⟨rest, hrest⟩ := hfirst
  have hmark : markCalltreeSent child.tag fe.childAgents =
      ({ child with calltreeSent := true } :: rest, true) := by
    rw [hrest, markCalltreeSent, if_pos rfl]
  have hstill : AgentInfo.served reachable { child with calltreeSent := true } = true := hserved
  simp only [CalltreeFrontend.onCalltreesent, hmark, hautomatic, if_true]
  rw [forChildren_cons, if_pos hstill]
  exact Bool.or_true fe.stopped

end Reports

/-- A step of the frontend and a round of one of its high-level agents, in which every child
of this agent reports once. -/
structure CalltreeRound (fe next : CalltreeFrontend) (timedOut : Bool) (agent : CalltreeAgent)
    (messages : List CalltreeMessage) : Prop where
  started : ∀ ai ∈ fe.childAgents, ai.status = .started
  step : fe.handleStep timedOut = .ok next
  frontendTags : fe.tags.Nodup
  child : agent.localTag ∈ fe.tags
  agentTags : agent.tags.Nodup
  senders : (calltreeSenders messages).Perm agent.tags

/-- Every child of the agent receives one request for the frontend's, and the agent reports
once to its parent, when all children have reported to it. -/
structure CalltreesCollected (reachable : String → ℤ → Bool) (fe next : CalltreeFrontend)
    (agent : CalltreeAgent) (messages : List CalltreeMessage) : Prop where
  requested : ∀ tag ∈ agent.tags,
    ((CalltreeAgent.onSerializecalltree reachable)^[next.requests agent.localTag -
      fe.requests agent.localTag] agent).requests tag = agent.requests tag + 1
  reported : ∀ first rest, messages = first ++ rest →
    (first.foldl CalltreeAgent.receive (agent.onSerializecalltree reachable)).reports =
      agent.reports + if agent.tags ⊆ calltreeSenders first then 1 else 0

section Rounds
variable {reachable : String → ℤ → Bool} {fe next : CalltreeFrontend} {timedOut : Bool}
  {agent : CalltreeAgent} {messages : List CalltreeMessage}

/-- Each child is sent as many requests as the frontend has children. -/
theorem CalltreeRound.requested_iff (hround : CalltreeRound fe next timedOut agent messages)
    (tag : String) :
    ((CalltreeAgent.onSerializecalltree reachable)^[next.requests agent.localTag -
        fe.requests agent.localTag] agent).requests tag = agent.requests tag + 1 ↔
      fe.childAgents.length = 1 ∧
        tag ∈ (agent.childAgents.filter (AgentInfo.served reachable)).map AgentInfo.tag := by
  have hnodup : ((agent.childAgents.filter (AgentInfo.served reachable)).map
      AgentInfo.tag).Nodup :=
    hround.agentTags.sublist (List.filter_sublist.map _)
  rw [CalltreeFrontend.handleStep_requests hround.started hround.frontendTags hround.step
    hround.child, Nat.add_sub_cancel_left, CalltreeAgent.onSerializecalltree_iterate,
    Nat.add_left_cancel_iff]
  by_cases hserved : tag ∈ (agent.childAgents.filter (AgentInfo.served reachable)).map
      AgentInfo.tag
  · rw [List.count_eq_one_of_mem hnodup hserved, Nat.mul_one]
    simp only [hserved, and_true]
  · rw [List.count_eq_zero_of_not_mem hserved, Nat.mul_zero]
    simp only [hserved, and_false, iff_false]
    exact Nat.zero_ne_one

/-- After a request that reached every child, the agent reports once and at the end exactly
when the first child of its map is the last to report. -/
theorem CalltreeRound.reported_iff (hround : CalltreeRound fe next timedOut agent messages)
    (hserved : ∀ ai ∈ agent.childAgents, ai.served reachable = true) :
    (∀ first rest, messages = first ++ rest →
      (first.foldl CalltreeAgent.receive (agent.onSerializecalltree reachable)).reports =
        agent.reports + if agent.tags ⊆ calltreeSenders first then 1 else 0) ↔
      agent.childAgents ≠ [] ∧ (calltreeSenders messages).getLast? = agent.tags.head? := by
  have hnodup : (calltreeSenders messages).Nodup :=
    hround.senders.nodup_iff.mpr hround.agentTags
  obtain ⟨asked, hasked⟩ : ∃ asked, asked = agent.onSerializecalltree reachable := ⟨_, rfl⟩
  have htags : asked.tags = agent.tags := hasked ▸ CalltreeAgent.onSerializecalltree_tags
  have hreports : asked.reports = agent.reports :=
    hasked ▸ CalltreeAgent.onSerializecalltree_reports
  have hmarks : calltreeMarks asked.childAgents = marks asked.tags [] := by
    rw [htags, hasked]
    exact CalltreeAgent.onSerializecalltree_marks hserved
  have hasktags : asked.tags.Nodup := htags ▸ hround.agentTags
  rw [← hasked, ← hreports, ← htags]
  cases hchildren : agent.childAgents with
  | nil =>
    have hnone : asked.tags = [] := by rw [htags, CalltreeAgent.tags, hchildren, List.map_nil]
    constructor
    · intro h
      have hstart := h [] messages rfl
      rw [hnone, if_pos (List.nil_subset _)] at hstart
      exact absurd hstart (Nat.succ_ne_self _).symm
    · intro h
      exact absurd rfl h.1
  | cons child others =>
    have hhead : asked.tags.head? = some child.tag := by
      rw [htags, CalltreeAgent.tags, hchildren, List.map_cons, List.head?_cons]
    have hchild : child.tag ∈ asked.tags := List.mem_of_head? hhead
    have hsends : child.tag ∈ calltreeSenders messages :=
      hround.senders.symm.subset (htags ▸ hchild)
    obtain ⟨before, after, hsplit, hbefore⟩ := calltreeSenders_split hsends
    have hpassed := CalltreeAgent.run_reports_first hasktags hmarks hhead hbefore
    rw [hhead]
    constructor
    · intro h
      have hend := h _ _ hsplit
      rw [hpassed] at hend
      have hall : asked.tags ⊆ calltreeSenders (before ++ [.calltreesent child.tag]) := by
        by_contra hmissing
        rw [if_neg hmissing] at hend
        exact absurd hend (Nat.succ_ne_self _)
      have hafter : calltreeSenders after = [] := by
        rw [htags] at hall
        refine (subset_arrived_iff hround.agentTags hround.senders ?_).mp hall
        rw [← calltreeSenders_append, ← hsplit]
      refine ⟨List.cons_ne_nil _ _, ?_⟩
      rw [hsplit, calltreeSenders_append, hafter, List.append_nil, calltreeSenders_snoc]
      exact List.getLast?_concat
    · intro h first rest hsplit
      have hsenders : calltreeSenders messages = calltreeSenders first ++ calltreeSenders rest := by
        rw [hsplit, calltreeSenders_append]
      by_cases harrived : child.tag ∈ calltreeSenders first
      · -- the last report is there, and all others were before it
        have hrest : calltreeSenders rest = [] :=
          rest_eq_nil_of_last (hsenders ▸ hnodup) (hsenders ▸ h.2) harrived
        have hall : asked.tags ⊆ calltreeSenders first := by
          rw [htags]
          exact (subset_arrived_iff hround.agentTags hround.senders hsenders).mpr hrest
        obtain ⟨earlier, later, hfirst, hearlier⟩ := calltreeSenders_split harrived
        have hlater : calltreeSenders later = [] := by
          rw [hrest, List.append_nil, hfirst, calltreeSenders_append] at hsenders
          refine rest_eq_nil_of_last (hsenders ▸ hnodup) (hsenders ▸ h.2) ?_
          rw [calltreeSenders_snoc]
          exact List.mem_append_right _ (List.mem_singleton_self _)
        rw [if_pos hall, hfirst, List.foldl_append, CalltreeAgent.run_reports_nodes hlater]
        exact CalltreeAgent.run_reports_first hasktags hmarks hhead hearlier
      · rw [CalltreeAgent.run_reports_before hasktags hmarks hhead harrived,
          if_neg fun hall => harrived (hall hchild), Nat.add_zero]

theorem CalltreeAgent.served_iff (htags : agent.tags.Nodup) :
    (∀ tag ∈ agent.tags,
      tag ∈ (agent.childAgents.filter (AgentInfo.served reachable)).map AgentInfo.tag) ↔
      ∀ ai ∈ agent.childAgents, ai.served reachable = true := by
  constructor
  · intro h ai hai
    obtain ⟨other, hother, heq⟩ := List.mem_map.mp (h ai.tag (List.mem_map_of_mem hai))
    rw [List.mem_filter] at hother
    rw [← List.inj_on_of_nodup_map htags hother.1 hai heq]
    exact hother.2
  · intro h tag htag
    rw [List.filter_eq_self.mpr h]
    exact htag

/-- A round of the call-trees ends as it should exactly when the frontend has no other child, the
request reaches all children of the agent, and the first of them in its map is the last to
report. -/
theorem CalltreeRound.collected_iff (hround : CalltreeRound fe next timedOut agent messages) :
    CalltreesCollected reachable fe next agent messages ↔
      fe.childAgents.length = 1 ∧ agent.childAgents ≠ [] ∧
        (∀ ai ∈ agent.childAgents, ai.served reachable = true) ∧
        (calltreeSenders messages).getLast? = agent.tags.head? := by
  constructor
  · intro h
    have hrequested : ∀ tag ∈ agent.tags, fe.childAgents.length = 1 ∧
        tag ∈ (agent.childAgents.filter (AgentInfo.served reachable)).map AgentInfo.tag :=
      fun tag htag => (hround.requested_iff tag).mp (h.requested tag htag)
    have hserved := (CalltreeAgent.served_iff hround.agentTags).mp
      fun tag htag => (hrequested tag htag).2
    have hreported := (hround.reported_iff hserved).mp h.reported
    refine ⟨?_, hreported.1, hserved, hreported.2⟩
    cases hchildren : agent.childAgents with
    | nil => exact absurd hchildren hreported.1
    | cons child others =>
      have hchild : child.tag ∈ agent.tags := by
        rw [CalltreeAgent.tags, hchildren]
        exact List.mem_cons_self
      exact (hrequested child.tag hchild).1
  · rintro ⟨hone, hchildren, hserved, hlast⟩
    constructor
    · intro tag htag
      exact (hround.requested_iff tag).mpr
        ⟨hone, (CalltreeAgent.served_iff hround.agentTags).mpr hserved tag htag⟩
    · exact (hround.reported_iff hserved).mpr ⟨hchildren, hlast⟩

end Rounds

section Instances

def CalltreeFrontend.ofTags (tags : List String) : CalltreeFrontend :=
  ⟨tags.map AgentInfo.ofTag, true, false, false, []⟩

def CalltreeAgent.ofTags (localTag : String) (tags : List String) : CalltreeAgent :=
  ⟨localTag, tags.map AgentInfo.ofTag, []⟩

/-- A frontend with one high-level agent that has two children. -/
theorem calltreeRound_pair {messages : List CalltreeMessage}
    (hmessages : (calltreeSenders messages).Perm ["a", "b"]) :
    CalltreeRound (.ofTags ["hl"])
      { CalltreeFrontend.ofTags ["hl"] with actions := [.serializecalltree "hl"] } false
      (.ofTags "hl" ["a", "b"]) messages where
  started := by decide
  step := rfl
  frontendTags := by decide
  child := by decide
  agentTags := by decide
  senders := hmessages

/-- The second child reports first. -/
theorem CalltreeRound.collected_iff_pair :
    CalltreesCollected (fun _ _ => true) (.ofTags ["hl"])
      { CalltreeFrontend.ofTags ["hl"] with actions := [.serializecalltree "hl"] }
      (.ofTags "hl" ["a", "b"]) [.calltreesent "b", .calltree "<node/>", .calltreesent "a"] :=
  (@calltreeRound_pair [.calltreesent "b", .calltree "<node/>", .calltreesent "a"]
    (List.Perm.swap "a" "b" [])).collected_iff.mpr (by decide)

/-- The first child reports first, and the agent reports at once. -/
theorem not_calltreesCollected : ¬∀ (reachable : String → ℤ → Bool)
    (fe next : CalltreeFrontend) (timedOut : Bool) (agent : CalltreeAgent)
    (messages : List CalltreeMessage), CalltreeRound fe next timedOut agent messages →
      CalltreesCollected reachable fe next agent messages := by
  intro h
  have hround := @calltreeRound_pair [.calltreesent "a", .calltreesent "b"] (List.Perm.refl _)
  have hfirst := (h (fun _ _ => true) _ _ _ _ _ hround).reported
    [.calltreesent "a"] [.calltreesent "b"] rfl
  revert hfirst
  decide

end Instances

end ReadexPtf.Agents
