import ReadexPtf.Agents.StartupRuns

/-! The start and every restart come to an end, if connections can be made and nothing is late. -/
namespace ReadexPtf.Agents
open ReadexPtf

section Calm
variable {forest : Forest String} {top : String} {net next : Network}

/-- Every agent can be reached where it is. -/
def Network.CanReach (reachable : String → ℤ → Bool) (net : Network) : Prop :=
  ∀ tag, reachable (net.agents tag).hostname (net.agents tag).port = true

/-- A state of a run in which all connections were made and no time was up. -/
inductive Network.CalmReachable (forest : Forest String) (top : String) : Network → Prop
  | initial {net : Network} (h : net.Initial forest top) (hended : net.ended = false)
      (hstopped : ∀ tag, (net.agents tag).stopped = false) : CalmReachable forest top net
  | event {net next : Network} (reachable : String → ℤ → Bool) (h : CalmReachable forest top net)
      (hreach : net.CanReach reachable)
      (hevent : Network.Event reachable forest top false net next) :
      CalmReachable forest top next

/-- All children were told what the agent has handled, and every agent is there. -/
structure Calm (forest : Forest String) (net : Network) : Prop where
  told : ∀ {a c}, c ∈ forest.children a →
    (net.agents c).handled ++ (net.agents c).commands = (net.agents a).handled
  stopped : ∀ tag, (net.agents tag).stopped = false
  ended : net.ended = false

theorem Network.CalmReachable.reachable (h : net.CalmReachable forest top) :
    net.Reachable forest top := by
  induction h with
  | initial h _ _ => exact .initial h
  | event reachable _ _ hevent ih => exact .event reachable false ih hevent

/-- The agents but one keep what they were told when this one keeps it. -/
theorem Calm.set (h : Calm forest net) {tag : String} {agent : AgentProcess}
    (hhandled : agent.handled = (net.agents tag).handled)
    (hcommands : agent.commands = (net.agents tag).commands)
    (hstopped : agent.stopped = false) : Calm forest (net.set tag agent) := by
  have hsame : ∀ other, ((net.set tag agent).agents other).handled =
      (net.agents other).handled ∧ ((net.set tag agent).agents other).commands =
      (net.agents other).commands := by
    intro other
    by_cases heq : other = tag
    · rw [heq, Network.set_same]
      exact ⟨hhandled, hcommands⟩
    · rw [Network.set_other heq]
      exact ⟨rfl, rfl⟩
  refine ⟨fun hc => ?_, fun other => ?_, h.ended⟩
  · rw [(hsame _).1, (hsame _).2, (hsame _).1]
    exact h.told hc
  · by_cases heq : other = tag
    · rw [heq, Network.set_same]
      exact hstopped
    · rw [Network.set_other heq]
      exact h.stopped other

theorem Calm.setTable (h : Calm forest net) (top : String) (childAgents : List AgentInfo)
    (phase : FrontendPhase) : Calm forest { net.setTable top childAgents with phase } := by
  obtain ⟨htold, hstopped, hended⟩ : Calm forest (net.setTable top childAgents) :=
    h.set rfl rfl (h.stopped top)
  exact ⟨htold, hstopped, hended⟩

/-- An agent handles a command and passes it on to all its children. -/
theorem Calm.pass (h : Calm forest net) {tag : String} {agent : AgentProcess}
    {command : RestartCommand} {tags : List String}
    (hhandled : agent.handled = (net.agents tag).handled ++ [command])
    (htold : ∀ {parent}, tag ∈ forest.children parent → agent.handled ++ agent.commands =
      (net.agents tag).handled ++ (net.agents tag).commands)
    (htags : ∀ c, c ∈ tags ↔ c ∈ forest.children tag)
    (hstopped : agent.stopped = false) :
    Calm forest ((net.set tag agent).tell tags command) := by
  have hself : tag ∉ tags := fun hmem => Forest.ne_of_mem ((htags tag).mp hmem) rfl
  have hagent : ((net.set tag agent).tell tags command).agents tag = agent := by
    simp only [Network.tell, if_neg hself, Network.set_same]
  have hother : ∀ {other}, other ≠ tag → ((net.set tag agent).tell tags command).agents other =
      if other ∈ tags then (net.agents other).receive command else net.agents other := by
    intro other hne
    simp only [Network.tell, Network.set_other hne]
  have hkeeps : ∀ {other}, other ≠ tag →
      (((net.set tag agent).tell tags command).agents other).handled =
        (net.agents other).handled := by
    intro other hne
    rw [hother hne]
    split <;> rfl
  refine ⟨fun {a c} hc => ?_, fun other => ?_, h.ended⟩
  · by_cases heq : c = tag
    · rw [heq] at hc ⊢
      have hne : a ≠ tag := (Forest.ne_of_mem hc).symm
      rw [hagent, htold hc, h.told hc, hkeeps hne]
    · rw [hother heq]
      by_cases hmem : c ∈ tags
      · have hparent : a = tag := forest.parent_unique hc ((htags c).mp hmem)
        rw [if_pos hmem, hparent, hagent, hhandled]
        show (net.agents c).handled ++ ((net.agents c).commands ++ [command]) = _
        rw [← List.append_assoc, h.told (hparent ▸ hc)]
      · have hne : a ≠ tag := fun h => hmem ((htags c).mpr (h ▸ hc))
        rw [if_neg hmem, h.told hc, hkeeps hne]
  · by_cases heq : other = tag
    · rw [heq, hagent]
      exact hstopped
    · rw [hother heq]
      split <;> exact h.stopped other

/-- A child that has answered can be reached. -/
theorem Row.served {reachable : String → ℤ → Bool} {handled : List RestartCommand} {back : Prop}
    {ai : AgentInfo} (h : Row handled back (net.agents ai.tag) ai)
    (hreported : (net.agents ai.tag).reported ≠ []) (hreach : net.CanReach reachable) :
    ai.served reachable = true ∧ ai.status = .started ∧ ai.connectable reachable = true := by
  have hstatus := h.status
  rw [if_neg hreported] at hstatus
  obtain ⟨hhostname, hport⟩ := h.address hreported
  have hconnectable : ai.connectable reachable = true := by
    rw [AgentInfo.connectable, hhostname, hport, hreach ai.tag, Bool.or_true]
  refine ⟨?_, hstatus, hconnectable⟩
  rw [AgentInfo.served, hstatus, hconnectable]
  rfl

theorem forChildren_all {reachable : String → ℤ → Bool} {agents : List AgentInfo}
    (h : ∀ ai ∈ agents, ai.served reachable = true) :
    (forChildren reachable id id agents).2 = agents.map AgentInfo.tag := by
  rw [forChildren_actions, List.filter_eq_self.mpr h]
  rfl

theorem terminateChildren_all {reachable : String → ℤ → Bool} {agents : List AgentInfo}
    (h : ∀ ai ∈ agents, ai.connectable reachable = true) :
    (Network.terminateChildren reachable agents).2.1 = agents.map AgentInfo.tag ∧
      (Network.terminateChildren reachable agents).2.2 = true := by
  induction agents with
  | nil => exact ⟨rfl, rfl⟩
  | cons ai rest ih =>
    have hrest := ih fun other hother => h other (List.mem_cons_of_mem _ hother)
    have hconnect : ∃ handler, (if ai.status = .connected then some ai
        else connectToChild reachable ai) = some { ai with handler } := by
      rw [connectToChild_eq, if_pos (h ai List.mem_cons_self)]
      split
      · exact ⟨_, rfl⟩
      · exact ⟨true, rfl⟩
    obtain ⟨handler, hconnect⟩ := hconnect
    simp only [Network.terminateChildren, hconnect, hrest.1, hrest.2, List.map_cons, and_self]

theorem Linked.reported_ne (hfull : (net.waves top).Full forest top) {tag : String}
    (htag : tag ∈ forest.children top) : (net.agents tag).reported ≠ [] := by
  have hheard := hfull tag htag
  change (net.agents tag).reported.length = _ at hheard
  exact List.ne_nil_of_length_pos (hheard ▸ Nat.succ_pos _)

/-- Where all children of the frontend have answered, it reaches all of them. -/
theorem Linked.served_top (h : Linked forest top net)
    (hfull : (net.waves top).Full forest top) {reachable : String → ℤ → Bool}
    (hreach : net.CanReach reachable) :
    ∀ ai ∈ net.table top, ai.served reachable = true ∧ ai.status = .started ∧
      ai.connectable reachable = true :=
  fun ai hai => (h.rows_top ai hai).served
    (Linked.reported_ne hfull (h.tags top ▸ List.mem_map_of_mem hai)) hreach

theorem Calm.forward (hcalm : Calm forest net) (h : Linked forest top net)
    (hordered : (net.waves top).Ordered forest top) (htop : ∀ b, top ∉ forest.children b)
    {parent tag : String} (htag : tag ∈ forest.children parent)
    {reachable : String → ℤ → Bool} (hreach : net.CanReach reachable)
    {command : RestartCommand} (hcommand : command ∈ (net.agents tag).commands.head?) :
    Calm forest (net.forward reachable tag command) := by
  have hne : tag ≠ top := fun heq => htop parent (heq ▸ htag)
  obtain ⟨hhandled, hcommands⟩ := AgentProcess.next_commands hcommand
  obtain ⟨-, -, hfull⟩ := Linked.over hordered htop htag hcommand
  have htold : (net.agents tag).next.handled ++ (net.agents tag).next.commands =
      (net.agents tag).handled ++ (net.agents tag).commands := by
    rw [hhandled, hcommands, List.append_assoc]
    rfl
  have hserved : ∀ ai ∈ (net.agents tag).childAgents, ai.served reachable = true := by
    intro ai hai
    have hheard := hfull ai.tag (h.tags tag ▸ List.mem_map_of_mem hai)
    exact ((h.rows_of_ne hne ai hai).served
      (List.ne_nil_of_length_pos (hheard ▸ Nat.succ_pos _)) hreach).1
  cases command with
  | terminate =>
    refine hcalm.pass hhandled (fun _ => htold) (fun c => ?_) (hcalm.stopped tag)
    rw [forChildren_all, List.map_map, ← h.tags tag]
    · rfl
    · intro ai hai
      obtain ⟨old, hold, heq⟩ := List.mem_map.mp hai
      rw [← heq]
      exact hserved old hold
  | reinit idmap =>
    refine hcalm.pass hhandled (fun _ => htold) (fun c => ?_) (hcalm.stopped tag)
    rw [forChildren_all hserved, ← h.tags tag]

theorem AgentProcess.onReport_keeps (tag : String) (agent : AgentProcess)
    (report : RestartReport) :
    (agent.onReport tag report).handled = agent.handled ∧
      (agent.onReport tag report).commands = agent.commands ∧
      (agent.onReport tag report).stopped = agent.stopped ∧
      (agent.onReport tag report).running = agent.running := by
  cases report with
  | heartbeat hostname port child => exact ⟨rfl, rfl, rfl, rfl⟩
  | terminated child =>
    simp only [AgentProcess.onReport]
    split <;> exact ⟨rfl, rfl, rfl, rfl⟩

theorem AgentProcess.handleTimeout_keeps (tag : String) (agent : AgentProcess) :
    (agent.handleTimeout false tag).handled = agent.handled ∧
      (agent.handleTimeout false tag).commands = agent.commands ∧
      (agent.handleTimeout false tag).stopped = agent.stopped ∧
      (agent.handleTimeout false tag).running = agent.running := by
  unfold AgentProcess.handleTimeout
  split
  · exact ⟨rfl, rfl, rfl, rfl⟩
  · split <;> exact ⟨rfl, rfl, rfl, rfl⟩
  · split
    · exact ⟨rfl, rfl, rfl, rfl⟩
    · rw [if_neg Bool.false_ne_true]
      exact ⟨rfl, rfl, rfl, rfl⟩

/-- The children that have started are there. -/
theorem Linked.started_connectable (h : Linked forest top net) {reachable : String → ℤ → Bool}
    (hreach : net.CanReach reachable)
    (hall : (net.table top).all (·.status = .started) = true) :
    ∀ ai ∈ net.table top, ai.connectable reachable = true := by
  rw [List.all_eq_true] at hall
  intro ai hai
  have hrow := h.rows_top ai hai
  have hreported : (net.agents ai.tag).reported ≠ [] := by
    intro hnil
    have hstatus := hrow.status
    rw [if_pos hnil, of_decide_eq_true (hall ai hai)] at hstatus
    cases hstatus
  exact (hrow.served hreported hreach).2.2

/-- A calm run stays calm. -/
theorem Calm.step (hcalm : Calm forest net) (h : Linked forest top net)
    (hordered : (net.waves top).Ordered forest top) (htop : ∀ b, top ∉ forest.children b)
    {reachable : String → ℤ → Bool} (hreach : net.CanReach reachable)
    (hstep : Network.Step reachable forest top false net next) : Calm forest next := by
  have hgive : ∀ command childAgents tags, (∀ c, c ∈ tags ↔ c ∈ forest.children top) →
      Calm forest ((net.set top { net.give top command with childAgents }).tell tags command) :=
    fun _ _ _ htags => hcalm.pass rfl (fun hc => absurd hc (htop _)) htags (hcalm.stopped top)
  cases hstep with
  | runAnalysisAgent tag htag hne hleaf hidle => exact hcalm.set rfl rfl (hcalm.stopped tag)
  | runHighLevelAgent tag htag hne hinner hidle => exact hcalm.set rfl rfl (hcalm.stopped tag)
  | command parent tag command htag hleaf halive hcommand =>
    obtain ⟨hhandled, hcommands⟩ := AgentProcess.next_commands hcommand
    have htell : (net.set tag ((net.agents tag).next.onCommand tag command)).tell [] command =
        net.set tag ((net.agents tag).next.onCommand tag command) := Network.tell_nil
    rw [← htell, AgentProcess.onCommand_eq]
    refine hcalm.pass hhandled (fun _ => ?_) (fun c => ?_) (hcalm.stopped tag)
    · show (net.agents tag).next.handled ++ (net.agents tag).next.commands = _
      rw [hhandled, hcommands, List.append_assoc]
      rfl
    · rw [hleaf]
  | forward parent tag command htag hinner halive hcommand =>
    exact hcalm.forward h hordered htop htag hreach hcommand
  | deliver parent child report hparent hchild halive hreport =>
    have hheard : Calm forest (net.set child (net.agents child).report) :=
      hcalm.set rfl rfl (hcalm.stopped child)
    unfold Network.deliver
    dsimp only
    split
    · cases report <;> exact hheard.set rfl rfl (hheard.stopped top)
    · obtain ⟨hhandled, hcommands, hstopped, -⟩ := AgentProcess.onReport_keeps parent
        ((net.set child (net.agents child).report).agents parent) report
      exact hheard.set hhandled hcommands (hstopped.trans (hheard.stopped parent))
  | timeout tag htag hne hinner halive =>
    obtain ⟨hhandled, hcommands, hstopped, -⟩ :=
      AgentProcess.handleTimeout_keeps tag (net.agents tag)
    exact hcalm.set hhandled hcommands (hstopped.trans (hcalm.stopped tag))
  | startup halive hphase =>
    unfold Network.handleStartup
    split
    · rename_i hall
      rw [start_some (h.started_connectable hreach hall)]
      exact hcalm.setTable top _ .searching
    · rw [if_neg Bool.false_ne_true]
      exact hcalm
  | terminate halive hphase =>
    have hfull := Linked.full_top hordered (by rw [hphase]; rfl)
    obtain ⟨htags, hdone⟩ := terminateChildren_all fun ai hai =>
      (h.served_top hfull hreach ai hai).2.2
    obtain ⟨htold, hstopped, -⟩ := hgive .terminate
      (Network.terminateChildren reachable (net.table top)).1
      (Network.terminateChildren reachable (net.table top)).2.1
      fun c => by rw [htags, ← h.tags top]; rfl
    exact ⟨htold, hstopped, by rw [Network.terminate]; simp only [hdone]; rfl⟩
  | termination registered halive hphase =>
    unfold Network.handleTermination
    split
    · split
      · exact ⟨hcalm.told, hcalm.stopped, hcalm.ended⟩
      · exact hcalm
    · rw [if_neg Bool.false_ne_true]
      exact hcalm
  | rerun idmap halive hphase =>
    have hfull := Linked.full_top hordered (by rw [hphase]; rfl)
    obtain ⟨htold, hstopped, hended⟩ := hgive (.reinit idmap)
      (forChildren reachable id id (net.table top)).1
      (forChildren reachable id id (net.table top)).2 fun c => by
        rw [forChildren_all fun ai hai => (h.served_top hfull hreach ai hai).1, ← h.tags top]
        rfl
    exact ⟨htold, hstopped, hended⟩
  | reinit halive hphase =>
    unfold Network.handleReinit
    split
    · exact hcalm.setTable top _ .searching
    · exact hcalm

end Calm

section Measure
variable {forest : Forest String} {top : String} {net next : Network}

/-- The commands that the frontend has still to give before it searches. -/
def FrontendPhase.ahead : FrontendPhase → ℕ
  | .restarting => 2
  | .terminating | .terminated => 1
  | .starting | .searching | .reiniting => 0

def Network.target (top : String) (net : Network) : ℕ :=
  (net.agents top).handled.length + net.phase.ahead

/-- The number of agents that do not run yet. -/
def Network.idle (forest : Forest String) (net : Network) : ℕ :=
  (forest.nodes.filter fun tag => (net.agents tag).running = false).card

/-- What is left to do before the frontend searches. -/
def Network.left (forest : Forest String) (top : String) (net : Network) : ℕ :=
  (net.waves top).left forest (net.target top) + net.idle forest

/-- What no step changes or undoes. -/
structure Keeps (top : String) (net next : Network) : Prop where
  target : next.target top = net.target top
  running : ∀ tag, (net.agents tag).running = true → (next.agents tag).running = true

theorem Keeps.idle_le (h : Keeps top net next) : next.idle forest ≤ net.idle forest := by
  refine Finset.card_le_card fun tag htag => ?_
  rw [Finset.mem_filter] at htag ⊢
  refine ⟨htag.1, ?_⟩
  by_contra hrun
  rw [Bool.not_eq_false] at hrun
  rw [h.running tag hrun] at htag
  exact absurd htag.2 (by simp)

theorem keeps_set {tag : String} {agent : AgentProcess}
    (hhandled : tag = top → agent.handled = (net.agents top).handled)
    (hrunning : (net.agents tag).running = true → agent.running = true) :
    Keeps top net (net.set tag agent) := by
  constructor
  · unfold Network.target
    by_cases heq : top = tag
    · rw [← heq, Network.set_same, hhandled heq.symm]
      rfl
    · rw [Network.set_other heq]
      rfl
  · intro other hrun
    by_cases heq : other = tag
    · rw [heq, Network.set_same]
      exact hrunning (heq ▸ hrun)
    · rw [Network.set_other heq]
      exact hrun

theorem keeps_tell {tags : List String} {command : RestartCommand} :
    Keeps top net (net.tell tags command) := by
  have hsame := Network.tell_agents net tags command
  constructor
  · obtain ⟨commands, htop⟩ := hsame top
    unfold Network.target
    rw [htop]
    rfl
  · intro tag hrun
    obtain ⟨commands, htag⟩ := hsame tag
    rw [htag]
    exact hrun

theorem Keeps.trans {middle : Network} (h : Keeps top net middle) (h' : Keeps top middle next) :
    Keeps top net next :=
  ⟨h'.target.trans h.target, fun tag hrun => h'.running tag (h.running tag hrun)⟩

/-- The frontend takes a wave as over. -/
theorem keeps_over (childAgents : List AgentInfo) {phase : FrontendPhase}
    (hahead : phase.ahead = net.phase.ahead) :
    Keeps top net { net.setTable top childAgents with phase } := by
  have hset : Keeps top net (net.setTable top childAgents) := keeps_set (fun _ => rfl) id
  refine ⟨?_, hset.running⟩
  unfold Network.target
  rw [hahead]
  exact hset.target

/-- The frontend gives one of the commands that are ahead. -/
theorem keeps_give {childAgents : List AgentInfo} {command : RestartCommand}
    {tags : List String} {phase : FrontendPhase} {ended : Bool} (htop : top ∉ tags)
    (hahead : net.phase.ahead = phase.ahead + 1) :
    Keeps top net { (net.set top { net.give top command with childAgents }).tell tags command with
      phase, ended } := by
  constructor
  · have hagent : ((net.set top { net.give top command with childAgents }).tell tags
        command).agents top = { net.give top command with childAgents } := by
      simp only [Network.tell, if_neg htop, Network.set_same]
    unfold Network.target
    rw [hagent, hahead]
    show ((net.agents top).handled ++ [command]).length + phase.ahead = _
    rw [List.length_append, List.length_singleton]
    omega
  · intro tag hrun
    obtain ⟨commands, htag⟩ := Network.tell_agents
      (net.set top { net.give top command with childAgents }) tags command tag
    show (((net.set top { net.give top command with childAgents }).tell tags
      command).agents tag).running = true
    rw [htag]
    show ((net.set top { net.give top command with childAgents }).agents tag).running = true
    by_cases heq : tag = top
    · rw [heq, Network.set_same]
      exact heq ▸ hrun
    · rw [Network.set_other heq]
      exact hrun

theorem Network.Step.keeps {reachable : String → ℤ → Bool} (h : Linked forest top net)
    (htop : ∀ b, top ∉ forest.children b)
    (hstep : Network.Step reachable forest top false net next) : Keeps top net next := by
  cases hstep with
  | runAnalysisAgent tag htag hne hleaf hidle =>
    exact keeps_set (fun heq => absurd heq hne) fun _ => rfl
  | runHighLevelAgent tag htag hne hinner hidle =>
    exact keeps_set (fun heq => absurd heq hne) fun _ => rfl
  | command parent tag command htag hleaf halive hcommand =>
    have hne : tag ≠ top := fun heq => htop parent (heq ▸ htag)
    rw [AgentProcess.onCommand_eq]
    exact keeps_set (fun heq => absurd heq hne) id
  | forward parent tag command htag hinner halive hcommand =>
    have hne : tag ≠ top := fun heq => htop parent (heq ▸ htag)
    cases command with
    | terminate =>
      refine Keeps.trans ?_ keeps_tell
      exact keeps_set (fun heq => absurd heq hne) id
    | reinit idmap =>
      refine Keeps.trans ?_ keeps_tell
      exact keeps_set (fun heq => absurd heq hne) id
  | deliver parent child report hparent hchild halive hreport =>
    have hheard : Keeps top net (net.set child (net.agents child).report) :=
      keeps_set (fun heq => absurd (heq ▸ hchild) (htop parent)) id
    refine hheard.trans ?_
    unfold Network.deliver
    dsimp only
    split
    · cases report <;> exact keeps_set (fun _ => rfl) id
    · rename_i hne
      obtain ⟨-, -, -, hrunning⟩ := AgentProcess.onReport_keeps parent
        ((net.set child (net.agents child).report).agents parent) report
      exact keeps_set (fun heq => absurd heq hne) fun hrun => hrunning.trans hrun
  | timeout tag htag hne hinner halive =>
    obtain ⟨-, -, -, hrunning⟩ := AgentProcess.handleTimeout_keeps tag (net.agents tag)
    exact keeps_set (fun heq => absurd heq hne) fun hrun => hrunning.trans hrun
  | startup halive hphase =>
    unfold Network.handleStartup
    split
    · split
      · exact ⟨rfl, fun _ => id⟩
      · exact keeps_over _ (by rw [hphase]; rfl)
    · rw [if_neg Bool.false_ne_true]
      exact ⟨rfl, fun _ => id⟩
  | terminate halive hphase =>
    refine keeps_give (fun hmem => htop top ?_) (by rw [hphase]; rfl)
    rw [← h.tags top]
    exact (terminateChildren_eq reachable (net.table top)).2.1 top hmem
  | termination registered halive hphase =>
    unfold Network.handleTermination
    split
    · split
      · exact ⟨by unfold Network.target; rw [hphase]; rfl, fun _ => id⟩
      · exact ⟨rfl, fun _ => id⟩
    · rw [if_neg Bool.false_ne_true]
      exact ⟨rfl, fun _ => id⟩
  | rerun idmap halive hphase =>
    exact keeps_give (fun hmem => htop top ((forChildren_tags reachable (h.tags top)).2 top hmem))
      (by rw [hphase]; rfl)
  | reinit halive hphase =>
    unfold Network.handleReinit
    split
    · exact keeps_over _ (by rw [hphase]; rfl)
    · exact ⟨rfl, fun _ => id⟩

/-- A step that changes the state leaves less to do. -/
theorem Network.Step.left_lt {reachable : String → ℤ → Bool}
    (hstep : Network.Step reachable forest top false net next) (h : Linked forest top net)
    (hordered : (net.waves top).Ordered forest top) (hroot : forest.Root top)
    (hbelow : ∀ tag ∈ forest.nodes, forest.Below top tag) (hreach : net.CanReach reachable) :
    next = net ∨ next.left forest top < net.left forest top := by
  have hkeeps := hstep.keeps h hroot.2
  have hrun := (hstep.waves h hordered hroot).1
  have hordered' := hordered.run hroot.2 hrun
  -- a step that is one of the waves at least leaves less of them
  have hwaves : Relation.TransGen (Waves.Step forest top) (net.waves top) (next.waves top) →
      next = net ∨ next.left forest top < net.left forest top := by
    intro hrun
    have hlength : ∀ tag ∈ forest.nodes,
        ((next.waves top).begun tag).length ≤ next.target top := by
      intro tag htag
      exact ((hordered'.close hroot.2 (hbelow tag htag)).1.length_le).trans
        (Nat.le_add_right _ _)
    have hlt := Waves.left_lt hrun hordered hroot.1 hroot.2 hlength
    have hidle : next.idle forest ≤ net.idle forest := hkeeps.idle_le
    rw [hkeeps.target] at hlt
    right
    unfold Network.left
    rw [hkeeps.target]
    omega
  obtain ⟨hnode, htop⟩ := hroot
  cases hstep with
  | runAnalysisAgent tag htag hne hleaf hidle =>
    exact hwaves (.single (h.runAnalysisAgent htag hne hleaf hidle).1)
  | runHighLevelAgent tag htag hne hinner hidle =>
    have hsame := (h.runHighLevelAgent hne hinner hidle).1
    right
    unfold Network.left
    rw [hsame, hkeeps.target]
    refine Nat.add_lt_add_left (Finset.card_lt_card ?_) _
    rw [Finset.ssubset_iff_of_subset fun other hother => ?_]
    · refine ⟨tag, Finset.mem_filter.mpr ⟨htag, hidle⟩, fun hmem => ?_⟩
      have hrun := (Finset.mem_filter.mp hmem).2
      rw [Network.set_same] at hrun
      cases hrun
    · rw [Finset.mem_filter] at hother ⊢
      refine ⟨hother.1, ?_⟩
      by_contra hrun
      rw [Bool.not_eq_false] at hrun
      rw [hkeeps.running other hrun] at hother
      exact absurd hother.2 (by simp)
  | command parent tag command htag hleaf halive hcommand =>
    have hne : tag ≠ top := fun heq => htop parent (heq ▸ htag)
    exact hwaves (h.command htop htag hleaf (Network.alive_of_ne hne halive).1 hcommand).1
  | forward parent tag command htag hinner halive hcommand =>
    have hne : tag ≠ top := fun heq => htop parent (heq ▸ htag)
    exact hwaves (.single (h.forward hordered htop htag hinner
      (Network.alive_of_ne hne halive).1 hcommand).1)
  | deliver parent child report hparent hchild halive hreport =>
    by_cases heq : parent = top
    · subst heq
      exact hwaves (.single (h.deliverTop hordered htop hchild hreport).1)
    · exact hwaves (h.deliver hordered htop hparent heq hchild
        (Network.alive_of_ne heq halive).1 hreport).1
  | timeout tag htag hne hinner halive =>
    obtain hstep | ⟨-, hsame⟩ := (h.timeout hordered htop htag hne hinner
      (Network.alive_of_ne hne halive).1 false).1
    · exact hwaves (.single hstep)
    · exact .inl (hsame rfl)
  | startup halive hphase =>
    by_cases hall : (net.table top).all (·.status = .started) = true
    · obtain hstep | ⟨-, hsame⟩ := (h.startup hordered htop hnode hphase false).1
      · exact hwaves (.single hstep)
      · exact .inl (hsame rfl (h.started_connectable hreach hall))
    · unfold Network.handleStartup
      rw [if_neg hall, if_neg Bool.false_ne_true]
      exact .inl rfl
  | terminate halive hphase => exact hwaves (.single (h.terminate hordered htop hphase).1)
  | termination registered halive hphase =>
    obtain hstep | ⟨-, hsame⟩ := (h.termination htop hnode hphase false registered).1
    · exact hwaves (.single hstep)
    · exact .inl (hsame rfl)
  | rerun idmap halive hphase =>
    exact hwaves (.single (h.rerun hordered htop hphase idmap).1)
  | reinit halive hphase =>
    obtain hstep | hsame := (h.reinit htop hnode hphase).1
    · exact hwaves (.single hstep)
    · exact .inl hsame

end Measure

section Progress
variable {forest : Forest String} {top : String} {net : Network}
variable {reachable : String → ℤ → Bool}

/-- A step that one agent can take changes the state. -/
def Network.Moves (reachable : String → ℤ → Bool) (forest : Forest String) (top : String)
    (net : Network) : Prop :=
  ∃ next, Network.Step reachable forest top false net next ∧ next ≠ net

theorem Network.ne_of_run {next : Network}
    (hrun : Relation.TransGen (Waves.Step forest top) (net.waves top) (next.waves top))
    (hordered : (net.waves top).Ordered forest top) (hroot : forest.Root top) : next ≠ net := by
  intro heq
  obtain ⟨target, htarget⟩ : ∃ target, ∀ tag ∈ forest.nodes,
      ((next.waves top).begun tag).length ≤ target :=
    ⟨forest.nodes.sup fun tag => ((next.waves top).begun tag).length,
      fun tag htag => Finset.le_sup (f := fun tag => ((next.waves top).begun tag).length) htag⟩
  have hlt := Waves.left_lt hrun hordered hroot.1 hroot.2 htarget
  rw [heq] at hlt
  exact lt_irrefl _ hlt

/-- An agent that does not run yet can. -/
theorem Network.moves_of_idle {tag : String} (htag : tag ∈ forest.nodes) (hne : tag ≠ top)
    (hidle : (net.agents tag).running = false) : net.Moves reachable forest top := by
  have hchanges : ∀ {agent : AgentProcess}, agent.running = true → net.set tag agent ≠ net := by
    intro agent hrun heq
    have hsame := congrArg (fun net : Network => (net.agents tag).running) heq
    simp only [Network.set_same, hidle, hrun, Bool.true_eq_false] at hsame
  by_cases hleaf : forest.Leaf tag
  · exact ⟨_, .runAnalysisAgent tag htag hne hleaf hidle, hchanges rfl⟩
  · exact ⟨_, .runHighLevelAgent tag htag hne hleaf hidle, hchanges rfl⟩

theorem Calm.alive (hcalm : Calm forest net) {tag : String}
    (hrun : tag ≠ top → (net.agents tag).running = true) : net.alive top tag = true := by
  unfold Network.alive
  split
  · rw [hcalm.ended]
    rfl
  · rename_i hne
    rw [hrun hne, hcalm.stopped]
    rfl

/-- The children of an agent that waits for its timer have all answered. -/
theorem Linked.moves_of_full (h : Linked forest top net) (hcalm : Calm forest net)
    {tag : String} (htag : tag ∈ forest.nodes) (hne : tag ≠ top)
    (hopen : (net.agents tag).sent.length = (net.agents tag).handled.length)
    (hfull : (net.waves top).Full forest tag) : net.Moves reachable forest top := by
  have hown := (h.each tag).own hne
  by_cases hrun : (net.agents tag).running = true
  · by_cases hleaf : forest.Leaf tag
    · have hover := hown.leaf hleaf hrun
      omega
    · refine ⟨_, .timeout tag htag hne hleaf (hcalm.alive fun _ => hrun), fun heq => ?_⟩
      have hsame : (net.agents tag).handleTimeout false tag = net.agents tag := by
        have hagent := congrArg (fun net : Network => net.agents tag) heq
        simp only [Network.set_same] at hagent
        exact hagent
      cases htimer : (net.agents tag).timerAction with
      | none =>
        by_cases hlast : (net.agents tag).handled.getLast? = some .terminate
        · have hover := (h.each tag).terminated hne hleaf hlast hfull
          omega
        · have hover := hown.answered htimer hrun hlast
          omega
      | some action =>
        have hall : (net.agents tag).handleTimeout false tag =
            { (net.agents tag).heartbeat tag with timerAction := none } := by
          unfold AgentProcess.handleTimeout
          rw [htimer]
          have hmem : ∀ ai ∈ (net.agents tag).childAgents, ai.tag ∈ forest.children tag :=
            fun ai hai => h.tags tag ▸ List.mem_map_of_mem hai
          cases action with
          | startup =>
            refine if_pos (List.all_eq_true.mpr fun ai hai => decide_eq_true ?_)
            have hrow := h.rows_of_ne hne ai hai
            have hheard := hfull ai.tag (hmem ai hai)
            change (net.agents ai.tag).reported.length = _ at hheard
            have hstatus := hrow.status
            rw [if_neg (List.ne_nil_of_length_pos (hheard ▸ Nat.succ_pos _))] at hstatus
            exact hstatus
          | startupReinit =>
            obtain ⟨⟨idmap, hlast⟩, -⟩ := hown.startupReinit htimer
            refine if_pos (List.all_eq_true.mpr fun ai hai => decide_eq_true ?_)
            exact ((h.rows_of_ne hne ai hai).reinit idmap hlast not_false).mpr
              (hfull ai.tag (hmem ai hai))
        rw [hall] at hsame
        have hnone := congrArg AgentProcess.timerAction hsame
        rw [htimer] at hnone
        cases hnone
  · exact Network.moves_of_idle htag hne (Bool.not_eq_true _ ▸ hrun)

/-- While the frontend waits for its children, some agent can move. -/
theorem Linked.moves (h : Linked forest top net)
    (hordered : (net.waves top).Ordered forest top) (hroot : forest.Root top)
    (hcalm : Calm forest net) (hwaits : ¬(net.waves top).Full forest top) :
    net.Moves reachable forest top := by
  have htold : ∀ {a c}, c ∈ forest.children a →
      (net.waves top).told c = (net.waves top).begun a := by
    intro a c hc
    have hne : c ≠ top := fun heq => hroot.2 a (heq ▸ hc)
    rw [Network.waves_told hne]
    exact hcalm.told hc
  obtain ⟨parent, child, hbelow, hchild, hmay⟩ := hordered.waits hroot.2 htold hwaits
  have hne : child ≠ top := fun heq => hroot.2 parent (heq ▸ hchild)
  have hnode : child ∈ forest.nodes := forest.children_mem hchild
  have hparent : parent ∈ forest.nodes := by
    cases Relation.ReflTransGen.cases_tail hbelow with
    | inl heq => exact heq ▸ hroot.1
    | inr hlast =>
      obtain ⟨d, -, hd⟩ := hlast
      exact forest.children_mem hd
  obtain hsent | ⟨command, hturn⟩ | ⟨hopen, hfull⟩ := hmay
  · -- a report is on its way
    rw [Network.waves_answered hne] at hsent
    change (net.agents child).reported.length < _ at hsent
    rw [AgentProcess.sent, List.length_append] at hsent
    obtain ⟨report, rest, hreports⟩ :=
      List.exists_cons_of_length_pos (Nat.lt_add_right_iff_pos.mp hsent)
    have hreport : report ∈ (net.agents child).reports.head? := by
      rw [hreports]
      rfl
    by_cases htop : parent = top
    · subst htop
      exact ⟨_, .deliver parent child report hparent hchild
          (hcalm.alive fun hne => absurd rfl hne) hreport,
        Network.ne_of_run (.single (h.deliverTop hordered hroot.2 hchild hreport).1) hordered
          hroot⟩
    · by_cases hrun : (net.agents parent).running = true
      · exact ⟨_, .deliver parent child report hparent hchild (hcalm.alive fun _ => hrun) hreport,
          Network.ne_of_run (h.deliver hordered hroot.2 hparent htop hchild hrun hreport).1
            hordered hroot⟩
      · exact Network.moves_of_idle hparent htop (Bool.not_eq_true _ ▸ hrun)
  · -- a command is on its way
    rw [Network.waves_told hne] at hturn
    have hcommand : ∃ rest, (net.agents child).commands = command :: rest := by
      obtain ⟨rest, hrest⟩ := hturn
      change (net.agents child).handled ++ [command] ++ rest = _ at hrest
      rw [List.append_assoc] at hrest
      exact ⟨rest, (List.append_cancel_left hrest).symm⟩
    obtain ⟨rest, hrest⟩ := hcommand
    have hhead : command ∈ (net.agents child).commands.head? := by
      rw [hrest]
      rfl
    by_cases hrun : (net.agents child).running = true
    · by_cases hleaf : forest.Leaf child
      · exact ⟨_, .command parent child command hchild hleaf (hcalm.alive fun _ => hrun) hhead,
          Network.ne_of_run (h.command hroot.2 hchild hleaf hrun hhead).1 hordered hroot⟩
      · exact ⟨_, .forward parent child command hchild hleaf (hcalm.alive fun _ => hrun) hhead,
          Network.ne_of_run (.single (h.forward hordered hroot.2 hchild hleaf hrun hhead).1)
            hordered hroot⟩
    · exact Network.moves_of_idle hnode hne (Bool.not_eq_true _ ▸ hrun)
  · rw [Network.waves_answered hne] at hopen
    exact h.moves_of_full hcalm hnode hne hopen hfull

/-- While the frontend does not search, some step can be made. -/
theorem Linked.moves_of_phase (h : Linked forest top net)
    (hordered : (net.waves top).Ordered forest top) (hroot : forest.Root top)
    (hcalm : Calm forest net) (hreach : net.CanReach reachable)
    (hphase : net.phase ≠ .searching) : net.Moves reachable forest top := by
  have hwaves : (net.waves top).Full forest top →
      ∀ {next}, Network.Step reachable forest top false net next → next.phase ≠ net.phase →
        net.Moves reachable forest top :=
    fun _ _ hstep hchanges => ⟨_, hstep, fun heq => hchanges (heq ▸ rfl)⟩
  by_cases hfull : (net.waves top).Full forest top
  · have hserved := h.served_top hfull hreach
    have hmem : ∀ ai ∈ net.table top, (net.agents ai.tag).reported.length =
        (net.agents top).handled.length + 1 :=
      fun ai hai => hfull ai.tag (h.tags top ▸ List.mem_map_of_mem hai)
    cases hcase : net.phase with
    | searching => exact absurd hcase hphase
    | starting =>
      have hall : (net.table top).all (·.status = .started) = true :=
        List.all_eq_true.mpr fun ai hai => decide_eq_true (hserved ai hai).2.1
      refine hwaves hfull (.startup hcalm.ended hcase) ?_
      rw [Network.handleStartup, if_pos hall, start_some (h.started_connectable hreach hall), hcase]
      simp
    | restarting =>
      refine hwaves hfull (.terminate hcalm.ended hcase) ?_
      rw [hcase, Network.terminate]
      simp
    | terminating =>
      have hlast : (net.agents top).handled.getLast? = some .terminate := by
        have hhistory := h.front.history
        rw [hcase] at hhistory
        generalize (net.agents top).handled = handled at hhistory ⊢
        cases hhistory
        exact List.getLast?_concat
      have hall : (net.table top).all AgentInfo.applTerminated = true :=
        List.all_eq_true.mpr fun ai hai =>
          ((h.rows_top ai hai).terminate hlast).mpr (hmem ai hai)
      refine hwaves hfull (.termination 0 hcalm.ended hcase) ?_
      rw [Network.handleTermination, if_pos hall, if_pos rfl, hcase]
      simp
    | terminated =>
      refine hwaves hfull (.rerun ⟨[], Nat.zero_le _⟩ hcalm.ended hcase) ?_
      rw [hcase, Network.rerunApplication]
      simp
    | reiniting =>
      obtain ⟨idmap, hlast⟩ : ∃ idmap, (net.agents top).handled.getLast? =
          some (.reinit idmap) := by
        have hhistory := h.front.history
        rw [hcase] at hhistory
        generalize (net.agents top).handled = handled at hhistory ⊢
        cases hhistory
        exact ⟨_, getLast?_restarts _ _⟩
      have hall : (net.table top).all (·.statusReinit = .started) = true :=
        List.all_eq_true.mpr fun ai hai => decide_eq_true
          (((h.rows_top ai hai).reinit idmap hlast (by rw [hcase]; simp)).mpr (hmem ai hai))
      refine hwaves hfull (.reinit hcalm.ended hcase) ?_
      rw [Network.handleReinit, if_pos hall, hcase]
      simp
  · exact h.moves hordered hroot hcalm hfull

/-- A step that changes the state, with all connections made and no time up. -/
def Network.CalmStep (forest : Forest String) (top : String) (net next : Network) : Prop :=
  ∃ reachable, net.CanReach reachable ∧ Network.Step reachable forest top false net next ∧
    next ≠ net

theorem Network.CalmReachable.calm (hroot : forest.Root top) (h : net.CalmReachable forest top) :
    Calm forest net := by
  induction h with
  | initial h hended hstopped =>
    refine ⟨fun hc => ?_, hstopped, hended⟩
    rw [h.handled, h.handled, h.commands]
    rfl
  | event reachable h hreach hevent ih =>
    obtain ⟨hordered, hlinked⟩ := h.reachable.linked hroot
    cases hevent with
    | step hstep => exact ih.step hlinked hordered hroot.2 hreach hstep
    | restart halive hphase =>
      unfold Network.restart
      dsimp only
      split
      · exact ih
      · exact ih.setTable top _ .restarting

/-- With all connections made and no time up, the start and every restart come to an end: no
order of steps goes on forever, and where no step changes the state the frontend searches. -/
theorem Network.restarts_end (hroot : forest.Root top)
    (hbelow : ∀ tag ∈ forest.nodes, forest.Below top tag) (h : net.CalmReachable forest top) :
    Acc (fun next current => Network.CalmStep forest top current next) net ∧
      ((∀ next, ¬Network.CalmStep forest top net next) → net.phase = .searching) := by
  constructor
  · induction hleft : net.left forest top using Nat.strong_induction_on generalizing net with
    | _ left ih =>
      refine .intro _ fun next hnext => ?_
      obtain ⟨reachable, hreach, hstep, hne⟩ := hnext
      obtain ⟨hordered, hlinked⟩ := h.reachable.linked hroot
      have hlt := (hstep.left_lt hlinked hordered hroot hbelow hreach).resolve_left hne
      exact ih _ (hleft ▸ hlt) (.event reachable h hreach (.step hstep)) rfl
  · intro hstuck
    obtain ⟨hordered, hlinked⟩ := h.reachable.linked hroot
    by_contra hphase
    have hreach : net.CanReach fun _ _ => true := fun _ => rfl
    obtain ⟨next, hstep, hne⟩ :=
      hlinked.moves_of_phase hordered hroot (h.calm hroot) hreach hphase
    exact hstuck next ⟨_, hreach, hstep, hne⟩

theorem Network.restarts_end_chain :
    Acc (fun next current => Network.CalmStep chainForest "fe" current next) chainStart ∧
      ((∀ next, ¬Network.CalmStep chainForest "fe" chainStart next) →
        chainStart.phase = .searching) :=
  Network.restarts_end chainForest_root chainForest_below
    (.initial chainStart_initial rfl fun _ => rfl)

end Progress
end ReadexPtf.Agents
