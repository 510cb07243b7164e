import ReadexPtf.Agents.Hierarchy

/-! Rounds of the hierarchy: what every agent has sent, in every reachable state. -/
namespace ReadexPtf.Agents

/-- The status of a child in the table of its parent. -/
def statusOf : Option Request → SearchStatus
  | none => .undefined
  | some request => request.searchStatus

def AgentInfo.view (ai : AgentInfo) : String × SearchStatus := (ai.tag, ai.searchStatus)

section Tables
variable {agents : List AgentInfo} {children : List String} {value : String → Option Request}

theorem setSearchStatus_view {tag : String} {status : SearchStatus}
    {entry : String → SearchStatus} (hnodup : children.Nodup)
    (h : agents.map AgentInfo.view = children.map fun child => (child, entry child)) :
    (setSearchStatus tag status agents).map AgentInfo.view =
      children.map fun child => (child, if child = tag then status else entry child) := by
  induction agents generalizing children with
  | nil =>
    rw [List.map_nil, eq_comm, List.map_eq_nil_iff] at h
    rw [h]
    rfl
  | cons ai rest ih =>
    cases children with
    | nil => cases h
    | cons child children =>
      rw [List.map_cons, List.map_cons, List.cons.injEq] at h
      have htag : ai.tag = child := congrArg Prod.fst h.1
      rw [List.nodup_cons] at hnodup
      rw [setSearchStatus, List.map_cons]
      by_cases heq : child = tag
      · rw [if_pos (htag.trans heq), if_pos heq, List.map_cons, h.2, AgentInfo.view, htag]
        congr 1
        apply List.map_congr_left
        intro other hother
        have hother' : other ≠ tag := by
          intro hsame
          rw [hsame, ← heq] at hother
          exact hnodup.1 hother
        rw [if_neg hother']
      · rw [if_neg (htag.trans_ne heq), if_neg heq, List.map_cons, h.1, ih hnodup.2 h.2]

/-- A child that has not reported keeps the decision back. -/
theorem prioritize_waits
    (hview : agents.map AgentInfo.view = children.map fun child => (child, statusOf (value child)))
    (h : ∃ child ∈ children, value child = none) {status : SearchStatus} :
    prioritize status agents = none := by
  obtain ⟨child, hchild, hnone⟩ := h
  have hmem : (child, SearchStatus.undefined) ∈ agents.map AgentInfo.view := by
    rw [hview]
    exact List.mem_map.mpr ⟨child, hchild, by rw [hnone]; rfl⟩
  obtain ⟨ai, hai, heq⟩ := List.mem_map.mp hmem
  exact prioritize_eq_none.mpr ⟨ai, hai, congrArg Prod.snd heq⟩

/-- When all children have reported, the highest of their requests decides. -/
theorem prioritize_sends
    (hview : agents.map AgentInfo.view = children.map fun child => (child, statusOf (value child)))
    (h : ∀ child ∈ children, value child ≠ none) :
    prioritize .finished agents = some (highest (children.filterMap value)).searchStatus := by
  have hstatuses : agents.map AgentInfo.searchStatus =
      (children.filterMap value).map Request.searchStatus := by
    have hsecond := congrArg (List.map Prod.snd) hview
    rw [List.map_map, List.map_map] at hsecond
    refine hsecond.trans ?_
    clear hview hsecond
    induction children with
    | nil => rfl
    | cons child rest ih =>
      have hrest := ih fun other hother => h other (List.mem_cons_of_mem _ hother)
      cases hvalue : value child with
      | none => exact absurd hvalue (h child List.mem_cons_self)
      | some request =>
        rw [List.filterMap_cons_some hvalue, List.map_cons, List.map_cons, hrest,
          Function.comp_apply, hvalue]
        rfl
  exact @prioritize_eq agents .searchfinished _ hstatuses

theorem Agent.forwardRequest_waits {agent : Agent}
    (hview : agent.childAgents.map AgentInfo.view =
      children.map fun child => (child, statusOf (value child)))
    (h : ∃ child ∈ children, value child = none) : agent.forwardRequest = agent := by
  rw [Agent.forwardRequest, prioritize_waits hview h]

/-- The highest request goes to the parent, and the table is reset. -/
theorem Agent.forwardRequest_sends {agent : Agent}
    (hview : agent.childAgents.map AgentInfo.view =
      children.map fun child => (child, statusOf (value child)))
    (h : ∀ child ∈ children, value child ≠ none) :
    agent.forwardRequest = { agent.send (highest (children.filterMap value)) with
      childAgents := agent.childAgents.map fun ai =>
        { ai with searchStatus := .undefined } } := by
  rw [Agent.forwardRequest, prioritize_sends hview h]
  cases highest (children.filterMap value) <;> rfl

end Tables

section Records
variable {agent : Agent}

theorem Agent.sent_length : agent.sent.length = agent.reported.length + agent.requests.length :=
  List.length_append

@[simp] theorem Agent.sent_send {request : Request} :
    (agent.send request).sent = agent.sent ++ [request] := by
  rw [Agent.sent, Agent.sent, List.append_assoc]
  rfl

@[simp] theorem Agent.sent_report : agent.report.sent = agent.sent := by
  cases agent with
  | mk childAgents started begun commands reported requests =>
    cases requests with
    | nil => simp [Agent.report, Agent.sent]
    | cons request rest => simp [Agent.report, Agent.sent]

theorem Agent.commanded_next {command : Command} (h : command ∈ agent.commands.head?) :
    agent.next.commanded = agent.commanded := by
  cases agent with
  | mk childAgents started begun commands reported requests =>
    cases commands with
    | nil => cases h
    | cons first rest =>
      simp only [Agent.next, Agent.commanded, List.tail_cons, List.length_cons]
      omega

/-- What the agent has sent together with what it still owes. -/
def Agent.owed (agent : Agent) : ℕ := agent.sent.length + agent.started.toNat

/-- What a handler of an analysis agent does: at most one of the experiments it owes becomes
a request. -/
structure Agent.Keeps (agent next : Agent) : Prop where
  begun : next.begun = agent.begun
  commanded : next.commanded = agent.commanded
  reported : next.reported = agent.reported

theorem Agent.onCommand_keeps {delayed : Bool} {state : ApplicationState} {command : Command} :
    agent.Keeps (agent.onCommand delayed state command) := by
  cases command with
  | start =>
    simp only [Agent.onCommand, Agent.onStart]
    split
    · split <;> exact ⟨rfl, rfl, rfl⟩
    · exact ⟨rfl, rfl, rfl⟩
  | startexperiment =>
    simp only [Agent.onCommand, Agent.onStartexperiment]
    split <;> exact ⟨rfl, rfl, rfl⟩

theorem Agent.onCommand_owed {delayed : Bool} {state : ApplicationState} {command : Command}
    (h : agent.started = false) :
    (agent.onCommand delayed state command).owed = agent.owed + 1 := by
  have hsend : ∀ request, (agent.send request).owed = agent.owed + 1 := by
    intro request
    rw [Agent.owed, Agent.owed, Agent.sent_send, List.length_append, List.length_singleton]
    change _ + 1 + agent.started.toNat = _
    omega
  have hstart : agent.startExperiment.owed = agent.owed + 1 := by
    rw [Agent.owed, Agent.owed, h]
    rfl
  cases command with
  | start =>
    simp only [Agent.onCommand, Agent.onStart]
    split
    · split
      · exact hsend _
      · exact hsend _
    · exact hstart
  | startexperiment =>
    simp only [Agent.onCommand, Agent.onStartexperiment]
    split
    · exact hsend _
    · exact hstart

theorem Agent.evaluateExperiment_cases {evaluation : Evaluation} :
    agent.evaluateExperiment evaluation = agent ∨
      ∃ request, agent.started = true ∧
        agent.evaluateExperiment evaluation =
          { agent with started := false }.send request := by
  unfold Agent.evaluateExperiment
  split
  · exact .inl rfl
  · rename_i h
    have hstarted : agent.started = true := by
      cases hs : agent.started with
      | false => exact absurd (.inl (by rw [hs]; decide)) h
      | true => rfl
    dsimp only
    split
    · exact .inr ⟨_, hstarted, rfl⟩
    · split
      · rw [Agent.appropriateRequest]
        split
        · exact .inr ⟨_, hstarted, rfl⟩
        · exact .inr ⟨_, hstarted, rfl⟩
      · exact .inr ⟨_, hstarted, rfl⟩

theorem Agent.evaluateExperiment_keeps {evaluation : Evaluation} :
    agent.Keeps (agent.evaluateExperiment evaluation) ∧
      (agent.evaluateExperiment evaluation).owed = agent.owed := by
  cases @Agent.evaluateExperiment_cases agent evaluation with
  | inl h => rw [h]; exact ⟨⟨rfl, rfl, rfl⟩, rfl⟩
  | inr h =>
    obtain ⟨request, hstarted, h⟩ := h
    rw [h]
    refine ⟨⟨rfl, rfl, rfl⟩, ?_⟩
    rw [Agent.owed, Agent.owed, Agent.sent_send, List.length_append, hstarted]
    rfl

end Records

section Invariant
variable (forest : Forest String)

/-- What a high-level agent holds after some rounds. Its table has the requests of the
children that are a round ahead. -/
structure Hierarchy.Collects (agents : Hierarchy) (tag : String) (agent : Agent) : Prop where
  view : agent.childAgents.map AgentInfo.view = (forest.children tag).map fun child =>
    (child, statusOf (agents child).reported[agent.sent.length]?)
  begun : agent.sent.length ≤ agent.begun
  greatest : ∀ (round : ℕ) r, agent.sent[round]? = some r →
    IsGreatest { q | ∃ child ∈ forest.children tag,
      (agents child).reported[round]? = some q } r

/-- The child's reports are never behind those of its parent, and its experiments never
ahead. -/
structure Hierarchy.Sound (agents : Hierarchy) : Prop where
  turn : ∀ tag, (agents tag).commanded ≤ (agents tag).reported.length + 1
  commanded : ∀ parent, ∀ child ∈ forest.children parent,
    (agents child).commanded ≤ (agents parent).begun
  reported : ∀ parent, ∀ child ∈ forest.children parent,
    (agents parent).sent.length ≤ (agents child).reported.length
  leaf : ∀ tag, forest.Leaf tag → (agents tag).owed = (agents tag).begun
  inner : ∀ tag, ¬forest.Leaf tag → agents.Collects forest tag (agents tag)

/-- Some child has not reported in the round. -/
def Hierarchy.Waits (agents : Hierarchy) (tag : String) : Prop :=
  ∃ child ∈ forest.children tag, (agents child).reported.length ≤ (agents tag).sent.length

end Invariant

section Preservation
variable {forest : Forest String} {reachable : String → ℤ → Bool} {agents : Hierarchy}

theorem Agent.reported_le_sent (agent : Agent) : agent.reported.length ≤ agent.sent.length := by
  rw [Agent.sent_length]
  omega

theorem Hierarchy.Sound.sent_le (h : agents.Sound forest) (tag : String) :
    (agents tag).sent.length ≤ (agents tag).begun := by
  by_cases hleaf : forest.Leaf tag
  · rw [← h.leaf tag hleaf, Agent.owed]
    omega
  · exact (h.inner tag hleaf).begun

/-- A child is at most one round ahead. -/
theorem Hierarchy.Sound.reported_le (h : agents.Sound forest) {parent child : String}
    (hchild : child ∈ forest.children parent) :
    (agents child).reported.length ≤ (agents parent).sent.length + 1 := by
  have hsent := h.sent_le child
  have hreported := (agents child).reported_le_sent
  have hcommanded := h.commanded parent child hchild
  have hturn := h.turn parent
  have hparent := (agents parent).reported_le_sent
  unfold Agent.commanded at hcommanded hturn
  omega

/-- What another agent collects depends on the reports of its children only. -/
theorem Hierarchy.Collects.congr {next : Hierarchy} {tag : String} {agent : Agent}
    (h : agents.Collects forest tag agent)
    (hreported : ∀ child ∈ forest.children tag,
      (next child).reported = (agents child).reported) :
    next.Collects forest tag agent where
  view := by
    rw [h.view]
    apply List.map_congr_left
    intro child hchild
    rw [hreported child hchild]
  begun := h.begun
  greatest round r hr := by
    have hset : { q | ∃ child ∈ forest.children tag, (next child).reported[round]? = some q } =
        { q | ∃ child ∈ forest.children tag, (agents child).reported[round]? = some q } := by
      ext q
      refine ⟨?_, ?_⟩
      · intro ⟨child, hchild, hq⟩
        exact ⟨child, hchild, hreported child hchild ▸ hq⟩
      · intro ⟨child, hchild, hq⟩
        exact ⟨child, hchild, (hreported child hchild).symm ▸ hq⟩
    rw [hset]
    exact h.greatest round r hr

/-- One agent changes, in a way that its neighbours allow. -/
theorem Hierarchy.Sound.update (h : agents.Sound forest) {tag : String} {agent : Agent}
    (hturn : agent.commanded ≤ agent.reported.length + 1)
    (hup : ∀ parent, tag ∈ forest.children parent →
      agent.commanded ≤ (agents parent).begun ∧ agent.reported = (agents tag).reported)
    (hdown : ∀ child ∈ forest.children tag, (agents child).commanded ≤ agent.begun ∧
      agent.sent.length ≤ (agents child).reported.length)
    (hleaf : forest.Leaf tag → agent.owed = agent.begun)
    (hinner : ¬forest.Leaf tag → agents.Collects forest tag agent) :
    Hierarchy.Sound forest (Function.update agents tag agent) := by
  have hreported : ∀ parent, ∀ child ∈ forest.children parent,
      (Function.update agents tag agent child).reported = (agents child).reported := by
    intro parent child hchild
    by_cases hc : child = tag
    · rw [hc, Function.update_self]
      exact (hup parent (hc ▸ hchild)).2
    · rw [Function.update_of_ne hc]
  refine ⟨?_, ?_, ?_, ?_, ?_⟩
  · intro other
    by_cases ho : other = tag
    · rw [ho, Function.update_self]
      exact hturn
    · rw [Function.update_of_ne ho]
      exact h.turn other
  · intro parent child hchild
    by_cases hp : parent = tag
    · rw [hp] at hchild ⊢
      rw [Function.update_self, Function.update_of_ne (Forest.ne_of_mem hchild)]
      exact (hdown child hchild).1
    · rw [Function.update_of_ne hp]
      by_cases hc : child = tag
      · rw [hc] at hchild ⊢
        rw [Function.update_self]
        exact (hup parent hchild).1
      · rw [Function.update_of_ne hc]
        exact h.commanded parent child hchild
  · intro parent child hchild
    rw [hreported parent child hchild]
    by_cases hp : parent = tag
    · rw [hp] at hchild ⊢
      rw [Function.update_self]
      exact (hdown child hchild).2
    · rw [Function.update_of_ne hp]
      exact h.reported parent child hchild
  · intro other ho
    by_cases heq : other = tag
    · rw [heq] at ho ⊢
      rw [Function.update_self]
      exact hleaf ho
    · rw [Function.update_of_ne heq]
      exact h.leaf other ho
  · intro other ho
    by_cases heq : other = tag
    · rw [heq] at ho ⊢
      rw [Function.update_self]
      exact (hinner ho).congr (hreported tag)
    · rw [Function.update_of_ne heq]
      exact (h.inner other ho).congr (hreported other)

/-- Between two messages every high-level agent waits. -/
structure Hierarchy.Invariant (forest : Forest String) (agents : Hierarchy) : Prop where
  sound : agents.Sound forest
  waits : ∀ tag, ¬forest.Leaf tag → agents.Waits forest tag

theorem Hierarchy.Initial.invariant (h : agents.Initial forest) :
    agents.Invariant forest := by
  have hsent : ∀ tag, (agents tag).sent = [] := by
    intro tag
    rw [Agent.sent, h.reported, h.requests]
    rfl
  refine ⟨⟨?_, ?_, ?_, ?_, ?_⟩, ?_⟩
  · intro tag
    rw [Agent.commanded, h.begun, h.commands]
    exact Nat.zero_le _
  · intro parent child _
    rw [Agent.commanded, h.begun, h.commands]
    exact Nat.zero_le _
  · intro parent child _
    rw [hsent]
    exact Nat.zero_le _
  · intro tag _
    rw [Agent.owed, hsent, h.started, h.begun]
    rfl
  · intro tag _
    refine ⟨?_, ?_, ?_⟩
    · have hundefined := h.undefined tag
      rw [← h.tags tag, List.map_map]
      apply List.map_congr_left
      intro ai hai
      rw [AgentInfo.view, hundefined ai hai, Function.comp_apply, h.reported]
      rfl
    · rw [hsent]
      exact Nat.zero_le _
    · intro round r hr
      rw [hsent] at hr
      cases hr
  · intro tag hinner
    obtain ⟨child, hchild⟩ := List.exists_mem_of_ne_nil _ hinner
    exact ⟨child, hchild, by rw [h.reported]; exact Nat.zero_le _⟩

/-- A step of one agent that sends nothing as a high-level agent, and whose parent has not
handled a request. -/
theorem Hierarchy.Invariant.update (h : agents.Invariant forest) {tag : String} {agent : Agent}
    (hsound : Hierarchy.Sound forest (Function.update agents tag agent))
    (hup : ∀ parent, tag ∈ forest.children parent → agent.reported = (agents tag).reported)
    (hsent : ¬forest.Leaf tag → agent.sent = (agents tag).sent) :
    Hierarchy.Invariant forest (Function.update agents tag agent) := by
  refine ⟨hsound, ?_⟩
  intro other hother
  obtain ⟨child, hchild, hle⟩ := h.waits other hother
  refine ⟨child, hchild, ?_⟩
  have hreported : (Function.update agents tag agent child).reported =
      (agents child).reported := by
    by_cases hc : child = tag
    · rw [hc, Function.update_self]
      exact hup other (hc ▸ hchild)
    · rw [Function.update_of_ne hc]
  have hother : (Function.update agents tag agent other).sent = (agents other).sent := by
    by_cases ho : other = tag
    · rw [ho, Function.update_self]
      exact hsent (ho ▸ hother)
    · rw [Function.update_of_ne ho]
  rw [hreported, hother]
  exact hle

theorem Hierarchy.Invariant.command (h : agents.Invariant forest) {root : String}
    {command : Command} (hroot : forest.Root root)
    (hturn : (agents root).commanded = (agents root).reported.length) :
    Hierarchy.Invariant forest
      (Function.update agents root ((agents root).receive command)) := by
  have hcommanded : ((agents root).receive command).commanded = (agents root).commanded + 1 := by
    rw [Agent.commanded, Agent.commanded, Agent.receive, List.length_append]
    rfl
  refine h.update (h.sound.update ?_ ?_ ?_ ?_ ?_) (fun _ _ => rfl) fun _ => rfl
  · rw [hcommanded, hturn]
    exact Nat.le_refl _
  · intro parent hmem
    exact absurd hmem (hroot.2 parent)
  · intro child hchild
    exact ⟨h.sound.commanded root child hchild, h.sound.reported root child hchild⟩
  · intro hleaf
    exact h.sound.leaf root hleaf
  · intro hinner
    exact ⟨(h.sound.inner root hinner).view, (h.sound.inner root hinner).begun,
      (h.sound.inner root hinner).greatest⟩

theorem Hierarchy.Invariant.arrive (h : agents.Invariant forest) {root : String}
    (hroot : forest.Root root) :
    Hierarchy.Invariant forest (Function.update agents root (agents root).report) := by
  refine h.update (h.sound.update ?_ ?_ ?_ ?_ ?_) ?_ fun _ => Agent.sent_report
  · have hturn := h.sound.turn root
    simp only [Agent.report, Agent.commanded, List.length_append] at hturn ⊢
    omega
  · intro parent hmem
    exact absurd hmem (hroot.2 parent)
  · intro child hchild
    rw [Agent.sent_report]
    exact ⟨h.sound.commanded root child hchild, h.sound.reported root child hchild⟩
  · intro hleaf
    rw [Agent.owed, Agent.sent_report]
    exact h.sound.leaf root hleaf
  · intro hinner
    have hcollects := h.sound.inner root hinner
    refine ⟨?_, ?_, ?_⟩
    · rw [Agent.sent_report]
      exact hcollects.view
    · rw [Agent.sent_report]
      exact hcollects.begun
    · rw [Agent.sent_report]
      exact hcollects.greatest
  · intro parent hmem
    exact absurd hmem (hroot.2 parent)

/-- Steps of an analysis agent. -/
theorem Hierarchy.Invariant.update_leaf (h : agents.Invariant forest) {leaf : String}
    {agent : Agent} (hleaf : forest.Leaf leaf)
    (hcommanded : agent.commanded = (agents leaf).commanded)
    (hreported : agent.reported = (agents leaf).reported) (howed : agent.owed = agent.begun) :
    Hierarchy.Invariant forest (Function.update agents leaf agent) := by
  refine h.update (h.sound.update ?_ ?_ ?_ ?_ ?_) (fun _ _ => hreported)
    fun hinner => absurd hleaf hinner
  · rw [hcommanded, hreported]
    exact h.sound.turn leaf
  · intro parent hmem
    rw [hcommanded]
    exact ⟨h.sound.commanded parent leaf hmem, hreported⟩
  · intro child hchild
    rw [hleaf] at hchild
    cases hchild
  · exact fun _ => howed
  · intro hinner
    exact absurd hleaf hinner

theorem Hierarchy.Invariant.handle (h : agents.Invariant forest) {leaf : String}
    {command : Command} {delayed : Bool} {state : ApplicationState} (hleaf : forest.Leaf leaf)
    (hcommand : command ∈ (agents leaf).commands.head?) :
    Hierarchy.Invariant forest (Function.update agents leaf
      ((agents leaf).next.onCommand delayed state command)) := by
  have hkeeps := @Agent.onCommand_keeps (agents leaf).next delayed state command
  have hnext := Agent.commanded_next hcommand
  have howed := h.sound.leaf leaf hleaf
  -- a command that is on its way finds no experiment
  have hidle : (agents leaf).started = false := by
    have hturn := h.sound.turn leaf
    have hsent := (agents leaf).reported_le_sent
    cases hstarted : (agents leaf).started with
    | false => rfl
    | true =>
      have hbegun : (agents leaf).next.begun ≤ (agents leaf).next.commanded :=
        Nat.le_add_right _ _
      rw [hnext] at hbegun
      change (agents leaf).begun + 1 ≤ _ at hbegun
      rw [Agent.owed, hstarted, Bool.toNat_true] at howed
      omega
  refine h.update_leaf hleaf (hkeeps.commanded.trans hnext) hkeeps.reported ?_
  have hnextOwed := @Agent.onCommand_owed (agents leaf).next delayed state command hidle
  rw [hnextOwed, hkeeps.begun]
  exact congrArg (· + 1) howed

theorem Hierarchy.Invariant.evaluate (h : agents.Invariant forest) {leaf : String}
    {evaluation : Evaluation} (hleaf : forest.Leaf leaf) :
    Hierarchy.Invariant forest (Function.update agents leaf
      ((agents leaf).evaluateExperiment evaluation)) := by
  obtain ⟨hkeeps, howed⟩ := @Agent.evaluateExperiment_keeps (agents leaf) evaluation
  refine h.update_leaf hleaf hkeeps.commanded hkeeps.reported ?_
  rw [howed, hkeeps.begun]
  exact h.sound.leaf leaf hleaf

theorem forChildren_subset {children : List AgentInfo} {tag : String}
    (h : tag ∈ (forChildren reachable id id children).2) :
    tag ∈ children.map AgentInfo.tag := by
  induction children with
  | nil => cases h
  | cons ai rest ih =>
    simp only [forChildren, connectToChild_eq] at h
    rw [List.map_cons, List.mem_cons]
    split at h
    · exact .inr (ih h)
    · split at h
      · exact .inr (ih h)
      · rename_i hconnect
        split at hconnect
        · rw [Option.some.injEq] at hconnect
          cases List.mem_cons.mp h with
          | inl h => exact .inl (h.trans (by rw [← hconnect]; rfl))
          | inr h => exact .inr (ih h)
        · cases hconnect

/-- What forwarding a command changes: the agent has begun one more experiment, and some of
its children were sent the command. -/
structure Hierarchy.Forwards (forest : Forest String) (agents : Hierarchy) (tag : String)
    (next : Hierarchy) : Prop where
  sent : ∀ other, (next other).sent = (agents other).sent
  reported : ∀ other, (next other).reported = (agents other).reported
  owed : ∀ other, (next other).owed = (agents other).owed
  view : ∀ other, (next other).childAgents.map AgentInfo.view =
    (agents other).childAgents.map AgentInfo.view
  begun : (next tag).begun = (agents tag).begun + 1
  others : ∀ other, other ≠ tag → (next other).begun = (agents other).begun
  commanded : ∀ other, other ∉ forest.children tag →
    (next other).commanded = (agents other).commanded
  children : ∀ child ∈ forest.children tag,
    (next child).commanded ≤ (agents child).commanded + 1

theorem Hierarchy.Sound.tags (h : agents.Sound forest) {tag : String}
    (hinner : ¬forest.Leaf tag) :
    (agents tag).childAgents.map AgentInfo.tag = forest.children tag := by
  have hview := congrArg (List.map Prod.fst) (h.inner tag hinner).view
  rw [List.map_map, List.map_map] at hview
  refine hview.trans ?_
  exact List.map_id _

theorem Hierarchy.Sound.forwards (h : agents.Sound forest) {tag : String} {command : Command}
    (hinner : ¬forest.Leaf tag) (hcommand : command ∈ (agents tag).commands.head?) :
    agents.Forwards forest tag (agents.forward reachable tag command) := by
  obtain ⟨result, hresult⟩ : ∃ result,
      result = forChildren reachable id id (agents tag).childAgents := ⟨_, rfl⟩
  have hview : result.1.map AgentInfo.view =
      (agents tag).childAgents.map AgentInfo.view := by
    rw [hresult]
    exact forChildren_map (fun _ => rfl) fun _ => rfl
  have hsubset : ∀ other ∈ result.2, other ∈ forest.children tag := by
    intro other hother
    rw [← h.tags hinner]
    exact forChildren_subset (hresult ▸ hother)
  have hnext : ∀ other, agents.forward reachable tag command other =
      if other = tag then { (agents tag).next with childAgents := result.1 }
      else if other ∈ result.2 then (agents other).receive command else agents other := by
    intro other
    rw [hresult]
    rfl
  have hreceive : ∀ other, ((agents other).receive command).commanded =
      (agents other).commanded + 1 := by
    intro other
    rw [Agent.commanded, Agent.commanded, Agent.receive, List.length_append]
    rfl
  refine ⟨?_, ?_, ?_, ?_, ?_, ?_, ?_, ?_⟩
  · intro other
    rw [hnext]
    split
    · rename_i heq
      rw [heq]
      rfl
    · split <;> rfl
  · intro other
    rw [hnext]
    split
    · rename_i heq
      rw [heq]
      rfl
    · split <;> rfl
  · intro other
    rw [hnext]
    split
    · rename_i heq
      rw [heq]
      rfl
    · split <;> rfl
  · intro other
    rw [hnext]
    split
    · rename_i heq
      rw [heq]
      exact hview
    · split <;> rfl
  · rw [hnext, if_pos rfl]
    rfl
  · intro other hne
    rw [hnext, if_neg hne]
    split <;> rfl
  · intro other hother
    rw [hnext]
    split
    · rename_i heq
      rw [heq]
      exact Agent.commanded_next hcommand
    · rw [if_neg fun hmem => hother (hsubset other hmem)]
  · intro child hchild
    rw [hnext, if_neg (Forest.ne_of_mem hchild)]
    split
    · exact le_of_eq (hreceive child)
    · exact Nat.le_succ _

theorem Hierarchy.Invariant.forward (h : agents.Invariant forest) {tag : String}
    {command : Command} (hinner : ¬forest.Leaf tag)
    (hcommand : command ∈ (agents tag).commands.head?) :
    Hierarchy.Invariant forest (agents.forward reachable tag command) := by
  have hforwards := @Hierarchy.Sound.forwards forest reachable agents h.sound tag command hinner
    hcommand
  obtain ⟨next, hnext⟩ : ∃ next, next = agents.forward reachable tag command := ⟨_, rfl⟩
  rw [← hnext] at hforwards ⊢
  -- the agent has reported all experiments before, and so have its children
  have hturn : (agents tag).begun ≤ (agents tag).sent.length := by
    have hbegun : (agents tag).next.begun ≤ (agents tag).next.commanded :=
      Nat.le_add_right _ _
    rw [Agent.commanded_next hcommand] at hbegun
    change (agents tag).begun + 1 ≤ _ at hbegun
    have hturn := h.sound.turn tag
    have hsent := (agents tag).reported_le_sent
    omega
  refine ⟨⟨?_, ?_, ?_, ?_, ?_⟩, ?_⟩
  · intro other
    rw [hforwards.reported]
    by_cases hother : other ∈ forest.children tag
    · have hcommanded := hforwards.children other hother
      have hbegun := h.sound.commanded tag other hother
      have hreported := h.sound.reported tag other hother
      omega
    · rw [hforwards.commanded other hother]
      exact h.sound.turn other
  · intro parent child hchild
    have hold := h.sound.commanded parent child hchild
    by_cases hparent : parent = tag
    · rw [hparent] at hchild hold ⊢
      have hcommanded := hforwards.children child hchild
      rw [hforwards.begun]
      omega
    · have hother : child ∉ forest.children tag := by
        intro hmem
        exact hparent (forest.parent_unique hchild hmem)
      rw [hforwards.commanded child hother, hforwards.others parent hparent]
      exact hold
  · intro parent child hchild
    rw [hforwards.sent, hforwards.reported]
    exact h.sound.reported parent child hchild
  · intro leaf hleaf
    have hne : leaf ≠ tag := by
      intro heq
      exact hinner (heq ▸ hleaf)
    rw [hforwards.owed, hforwards.others leaf hne]
    exact h.sound.leaf leaf hleaf
  · intro other hother
    have hcollects := h.sound.inner other hother
    refine Hierarchy.Collects.congr ⟨?_, ?_, ?_⟩ fun child _ => hforwards.reported child
    · rw [hforwards.view, hforwards.sent]
      exact hcollects.view
    · rw [hforwards.sent]
      by_cases heq : other = tag
      · rw [heq, hforwards.begun]
        exact (heq ▸ hcollects.begun).trans (Nat.le_succ _)
      · rw [hforwards.others other heq]
        exact hcollects.begun
    · rw [hforwards.sent]
      exact hcollects.greatest
  · intro other hother
    obtain ⟨child, hchild, hle⟩ := h.waits other hother
    refine ⟨child, hchild, ?_⟩
    rw [hforwards.reported, hforwards.sent]
    exact hle

end Preservation

end ReadexPtf.Agents
