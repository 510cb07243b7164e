import ReadexPtf.Agents.Startup

/-! The start of the agents and the restarts as waves over the hierarchy: the commands are what
goes down, and heartbeats and terminations are the answers. -/
namespace ReadexPtf.Agents
open ReadexPtf

section Views

/-- The report that an agent owes for a command. -/
def AgentProcess.answer (tag : String) (agent : AgentProcess) : RestartCommand → RestartReport
  | .terminate => .terminated tag
  | .reinit _ => .heartbeat agent.hostname agent.port tag

/-- All reports that an agent owes, with the heartbeat of its start. -/
def AgentProcess.answers (tag : String) (agent : AgentProcess) : List RestartReport :=
  .heartbeat agent.hostname agent.port tag :: agent.handled.map (agent.answer tag)

def AgentProcess.sent (agent : AgentProcess) : List RestartReport :=
  agent.reported ++ agent.reports

/-- The report for the last command. -/
def AgentProcess.current (tag : String) (agent : AgentProcess) : RestartReport :=
  match agent.handled.getLast? with
  | none => .heartbeat agent.hostname agent.port tag
  | some command => agent.answer tag command

/-- Whether the children of the frontend have answered its last command. -/
def FrontendPhase.over : FrontendPhase → Bool
  | .searching | .restarting | .terminated => true
  | .starting | .terminating | .reiniting => false

/-- The frontend answers itself. -/
def Network.waves (top : String) (net : Network) : Waves String RestartCommand where
  begun tag := (net.agents tag).handled
  told tag := if tag = top then [] else (net.agents tag).handled ++ (net.agents tag).commands
  answered tag :=
    if tag = top then (net.agents tag).handled.length + net.phase.over.toNat
    else (net.agents tag).sent.length
  heard tag := (net.agents tag).reported.length

end Views

section Links

/-- What a parent knows of a child. The marks of a wave that is not the parent's last one, or
that the frontend has taken back, are not asked about. -/
structure Row (handled : List RestartCommand) (back : Prop) (child : AgentProcess)
    (ai : AgentInfo) : Prop where
  status : ai.status = if child.reported = [] then .initial else .started
  address : child.reported ≠ [] → ai.hostname = child.hostname ∧ ai.port = child.port
  reinit : ∀ idmap, handled.getLast? = some (.reinit idmap) → ¬back →
    (ai.statusReinit = .started ↔ child.reported.length = handled.length + 1)
  terminate : handled.getLast? = some .terminate →
    (ai.applTerminated = true ↔ child.reported.length = handled.length + 1)

/-- Where an agent is between a command and the report for it. -/
structure Own (forest : Forest String) (tag : String) (agent : AgentProcess) : Prop where
  reports : agent.sent <+: agent.answers tag
  idle : agent.running = false →
    agent.handled = [] ∧ agent.sent = [] ∧ agent.timerAction = none
  leaf : forest.Leaf tag → agent.running = true → agent.sent.length = agent.handled.length + 1
  startup : agent.timerAction = some .startup → agent.handled = [] ∧ agent.sent = []
  startupReinit : agent.timerAction = some .startupReinit →
    (∃ idmap, agent.handled.getLast? = some (.reinit idmap)) ∧
      agent.sent.length = agent.handled.length
  answered : agent.timerAction = none → agent.running = true →
    agent.handled.getLast? ≠ some .terminate → agent.sent.length = agent.handled.length + 1

/-- The two commands of every restart that is over. -/
def restarts (idmaps : List IdMap) : List RestartCommand :=
  idmaps.flatMap fun idmap => [.terminate, .reinit idmap]

/-- The commands that the frontend has given so far. -/
inductive History : FrontendPhase → List RestartCommand → Prop
  | starting : History .starting []
  | searching (idmaps : List IdMap) : History .searching (restarts idmaps)
  | restarting (idmaps : List IdMap) : History .restarting (restarts idmaps)
  | terminating (idmaps : List IdMap) : History .terminating (restarts idmaps ++ [.terminate])
  | terminated (idmaps : List IdMap) : History .terminated (restarts idmaps ++ [.terminate])
  | reiniting (idmaps : List IdMap) (idmap : IdMap) :
      History .reiniting (restarts (idmaps ++ [idmap]))

/-- What holds of the frontend alone. -/
structure Front (top : String) (net : Network) : Prop where
  reported : (net.agents top).reported = []
  history : History net.phase (net.agents top).handled
  handler : net.phase ≠ .starting → ∀ ai ∈ net.table top, ai.handler = true
  reset : net.phase = .restarting ∨ net.phase = .terminating ∨ net.phase = .terminated →
    ∀ ai ∈ net.table top, ai.statusReinit = .initial
  restarting : net.phase = .restarting → ∀ ai ∈ net.table top, ai.applTerminated = false

/-- What holds of an agent and its children. -/
structure LinkedAt (forest : Forest String) (top : String) (net : Network) (tag : String) :
    Prop where
  tags : (net.agents tag).childAgents.map AgentInfo.tag = forest.children tag
  rows : ∀ ai ∈ (net.agents tag).childAgents,
    Row (net.agents tag).handled (tag = top ∧ net.phase = .restarting) (net.agents ai.tag) ai
  own : tag ≠ top → Own forest tag (net.agents tag)
  terminated : tag ≠ top → ¬forest.Leaf tag →
    (net.agents tag).handled.getLast? = some .terminate →
    (∀ c ∈ forest.children tag,
      (net.agents c).reported.length = (net.agents tag).handled.length + 1) →
    (net.agents tag).sent.length = (net.agents tag).handled.length + 1

structure Linked (forest : Forest String) (top : String) (net : Network) : Prop where
  each : ∀ tag, LinkedAt forest top net tag
  front : Front top net

end Links

section Answers
variable {tag : String} {agent : AgentProcess}

theorem AgentProcess.answers_length : (agent.answers tag).length = agent.handled.length + 1 := by
  rw [answers, List.length_cons, List.length_map]

theorem AgentProcess.answers_current (tag : String) (agent : AgentProcess) :
    ∃ before, agent.answers tag = before ++ [agent.current tag] ∧
      before.length = agent.handled.length := by
  unfold answers current
  cases hlast : agent.handled.getLast? with
  | none =>
    rw [List.getLast?_eq_none_iff] at hlast
    exact ⟨[], by rw [hlast]; rfl, by rw [hlast]; rfl⟩
  | some command =>
    rw [List.getLast?_eq_some_iff] at hlast
    obtain ⟨first, hfirst⟩ := hlast
    refine ⟨.heartbeat agent.hostname agent.port tag :: first.map (agent.answer tag), ?_, ?_⟩
    · rw [hfirst, List.map_append, List.cons_append]
      rfl
    · rw [hfirst, List.length_cons, List.length_map, List.length_append, List.length_singleton]

/-- The report for the last command is the next one. -/
theorem AgentProcess.prefix_answers {sent : List RestartReport}
    (h : sent <+: agent.answers tag) (hlength : sent.length = agent.handled.length) :
    sent ++ [agent.current tag] = agent.answers tag := by
  obtain ⟨before, hanswers, hbefore⟩ := AgentProcess.answers_current tag agent
  rw [hanswers] at h ⊢
  obtain ⟨rest, hrest⟩ := h
  rw [List.append_inj_left hrest (hlength.trans hbefore.symm)]

theorem AgentProcess.eq_current {report : RestartReport} {rest : List RestartReport}
    (h : agent.sent <+: agent.answers tag) (hreports : agent.reports = report :: rest)
    (hlength : agent.reported.length = agent.handled.length) :
    report = agent.current tag := by
  have hreported : agent.reported <+: agent.answers tag := (List.prefix_append _ _).trans h
  rw [← AgentProcess.prefix_answers hreported hlength, AgentProcess.sent, hreports] at h
  obtain ⟨more, hmore⟩ := h
  rw [List.append_assoc, List.append_cancel_left_eq] at hmore
  exact (List.cons.inj hmore).1

end Answers

section Frames
variable {forest : Forest String} {top tag : String} {net : Network}

theorem Network.set_same {agent : AgentProcess} :
    (net.set tag agent).agents tag = agent :=
  if_pos rfl

theorem Network.set_other {other : String} {agent : AgentProcess} (h : other ≠ tag) :
    (net.set tag agent).agents other = net.agents other :=
  if_neg h

theorem Network.tell_agents (net : Network) (tags : List String) (command : RestartCommand)
    (tag : String) :
    ∃ commands, (net.tell tags command).agents tag = { net.agents tag with commands } := by
  by_cases h : tag ∈ tags
  · exact ⟨_, if_pos h⟩
  · exact ⟨_, if_neg h⟩

theorem Row.congr {handled : List RestartCommand} {back : Prop} {child other : AgentProcess}
    {ai : AgentInfo} (h : Row handled back child ai) (hreported : other.reported = child.reported)
    (hhostname : other.hostname = child.hostname) (hport : other.port = child.port) :
    Row handled back other ai where
  status := by rw [hreported]; exact h.status
  address := by rw [hreported, hhostname, hport]; exact h.address
  reinit := by rw [hreported]; exact h.reinit
  terminate := by rw [hreported]; exact h.terminate

theorem Linked.tags (h : Linked forest top net) (tag : String) :
    (net.agents tag).childAgents.map AgentInfo.tag = forest.children tag :=
  (h.each tag).tags

/-- Commands on their way change nothing else. -/
theorem Linked.tell (h : Linked forest top net) {tags : List String} {command : RestartCommand} :
    Linked forest top (net.tell tags command) := by
  have hsame := Network.tell_agents net tags command
  refine ⟨fun tag => ⟨?_, ?_, ?_, ?_⟩, ?_⟩
  · obtain ⟨commands, hagent⟩ := hsame tag
    rw [hagent]
    exact h.tags tag
  · intro ai hai
    obtain ⟨commands, hparent⟩ := hsame tag
    obtain ⟨others, hchild⟩ := hsame ai.tag
    rw [hparent] at hai ⊢
    rw [hchild]
    exact ((h.each tag).rows ai hai).congr rfl rfl rfl
  · intro hne
    obtain ⟨commands, hagent⟩ := hsame tag
    rw [hagent]
    have hown := (h.each tag).own hne
    exact ⟨hown.reports, hown.idle, hown.leaf, hown.startup, hown.startupReinit, hown.answered⟩
  · intro hne hinner
    obtain ⟨commands, hagent⟩ := hsame tag
    rw [hagent]
    intro hlast hfull
    refine (h.each tag).terminated hne hinner hlast fun c hc => ?_
    obtain ⟨others, hchild⟩ := hsame c
    have hlength := hfull c hc
    rw [hchild] at hlength
    exact hlength
  · obtain ⟨commands, hagent⟩ := hsame top
    have hfront := h.front
    refine ⟨?_, ?_, ?_, ?_, ?_⟩
    · rw [hagent]
      exact hfront.reported
    · rw [hagent]
      exact hfront.history
    · simp only [Network.table, hagent]
      exact hfront.handler
    · simp only [Network.table, hagent]
      exact hfront.reset
    · simp only [Network.table, hagent]
      exact hfront.restarting

/-- The agents but one stay linked when this one changes, if its parent cannot see it. -/
theorem LinkedAt.set {other : String} {agent : AgentProcess}
    (h : LinkedAt forest top net other) (hne : other ≠ tag)
    (hreported : tag ∈ forest.children other → agent.reported = (net.agents tag).reported)
    (hhostname : agent.hostname = (net.agents tag).hostname)
    (hport : agent.port = (net.agents tag).port) :
    LinkedAt forest top (net.set tag agent) other := by
  have hchild : ∀ c ∈ forest.children other, ((net.set tag agent).agents c).reported =
      (net.agents c).reported ∧ ((net.set tag agent).agents c).hostname =
      (net.agents c).hostname ∧ ((net.set tag agent).agents c).port = (net.agents c).port := by
    intro c hc
    by_cases heq : c = tag
    · rw [heq, Network.set_same]
      exact ⟨hreported (heq ▸ hc), hhostname, hport⟩
    · rw [Network.set_other heq]
      exact ⟨rfl, rfl, rfl⟩
  have hsame : (net.set tag agent).agents other = net.agents other := Network.set_other hne
  refine ⟨?_, ?_, ?_, ?_⟩
  · rw [hsame, h.tags]
  · intro ai hai
    rw [hsame] at hai ⊢
    obtain ⟨hreported, hhostname, hport⟩ :=
      hchild ai.tag (h.tags ▸ List.mem_map_of_mem hai)
    exact (h.rows ai hai).congr hreported hhostname hport
  · rw [hsame]
    exact h.own
  · rw [hsame]
    intro htop hinner hlast hfull
    exact h.terminated htop hinner hlast fun c hc => (hchild c hc).1 ▸ hfull c hc

/-- An agent that is not the frontend changes, but for what its parent has handled. -/
theorem linked_set (hothers : ∀ other, other ≠ tag → LinkedAt forest top net other)
    (hfront : Front top net) {agent : AgentProcess} (hne : tag ≠ top)
    (htags : agent.childAgents.map AgentInfo.tag = forest.children tag)
    (hreported : agent.reported = (net.agents tag).reported)
    (hhostname : agent.hostname = (net.agents tag).hostname)
    (hport : agent.port = (net.agents tag).port)
    (hrows : ∀ ai ∈ agent.childAgents, Row agent.handled False (net.agents ai.tag) ai)
    (hown : Own forest tag agent)
    (hterminated : ¬forest.Leaf tag → agent.handled.getLast? = some .terminate →
      (∀ c ∈ forest.children tag, (net.agents c).reported.length = agent.handled.length + 1) →
      agent.sent.length = agent.handled.length + 1) :
    Linked forest top (net.set tag agent) := by
  have hother : ∀ {c}, c ∈ forest.children tag →
      (net.set tag agent).agents c = net.agents c :=
    fun hc => Network.set_other (Forest.ne_of_mem hc)
  refine ⟨fun other => ?_, ?_⟩
  · by_cases heq : other = tag
    · rw [heq]
      refine ⟨?_, ?_, ?_, ?_⟩
      · rw [Network.set_same, htags]
      · rw [Network.set_same]
        intro ai hai
        have hrow := hrows ai hai
        rw [hother (htags ▸ List.mem_map_of_mem hai)]
        exact ⟨hrow.status, hrow.address, fun idmap hlast _ => hrow.reinit idmap hlast not_false,
          hrow.terminate⟩
      · rw [Network.set_same]
        exact fun _ => hown
      · rw [Network.set_same]
        intro _ hinner hlast hfull
        exact hterminated hinner hlast fun c hc => hother hc ▸ hfull c hc
    · exact (hothers other heq).set heq (fun _ => hreported) hhostname hport
  · have htop : (net.set tag agent).agents top = net.agents top := Network.set_other hne.symm
    refine ⟨?_, ?_, ?_, ?_, ?_⟩
    · rw [htop]
      exact hfront.reported
    · rw [htop]
      exact hfront.history
    · simp only [Network.table, htop]
      exact hfront.handler
    · simp only [Network.table, htop]
      exact hfront.reset
    · simp only [Network.table, htop]
      exact hfront.restarting

theorem Linked.set (h : Linked forest top net) (agent : AgentProcess) (hne : tag ≠ top)
    (htags : agent.childAgents.map AgentInfo.tag = forest.children tag)
    (hreported : agent.reported = (net.agents tag).reported)
    (hhostname : agent.hostname = (net.agents tag).hostname)
    (hport : agent.port = (net.agents tag).port)
    (hrows : ∀ ai ∈ agent.childAgents, Row agent.handled False (net.agents ai.tag) ai)
    (hown : Own forest tag agent)
    (hterminated : ¬forest.Leaf tag → agent.handled.getLast? = some .terminate →
      (∀ c ∈ forest.children tag, (net.agents c).reported.length = agent.handled.length + 1) →
      agent.sent.length = agent.handled.length + 1) :
    Linked forest top (net.set tag agent) :=
  linked_set (fun other _ => h.each other) h.front hne htags hreported hhostname hport hrows hown
    hterminated

/-- The frontend changes. -/
theorem linked_setTop (hothers : ∀ tag, tag ≠ top → LinkedAt forest top net tag)
    (htop : ∀ tag, top ∉ forest.children tag) {agent : AgentProcess} {phase : FrontendPhase}
    {ended : Bool} (htags : agent.childAgents.map AgentInfo.tag = forest.children top)
    (hrows : ∀ ai ∈ agent.childAgents,
      Row agent.handled (phase = .restarting) (net.agents ai.tag) ai)
    (hfront : Front top { net.set top agent with phase, ended }) :
    Linked forest top { net.set top agent with phase, ended } := by
  have hother : ∀ {tag : String}, tag ≠ top → (net.set top agent).agents tag = net.agents tag :=
    fun hne => Network.set_other hne
  have hchild : ∀ {tag parent : String}, tag ∈ forest.children parent → tag ≠ top :=
    fun hc heq => htop _ (heq ▸ hc)
  refine ⟨fun tag => ?_, hfront⟩
  by_cases heq : tag = top
  · rw [heq]
    refine ⟨?_, ?_, fun hne => absurd rfl hne, fun hne => absurd rfl hne⟩
    · rw [Network.set_same, htags]
    · simp only [Network.set_same]
      intro ai hai
      have hrow := hrows ai hai
      rw [hother (hchild (htags ▸ List.mem_map_of_mem hai : ai.tag ∈ forest.children top))]
      exact ⟨hrow.status, hrow.address,
        fun idmap hlast hback => hrow.reinit idmap hlast fun hphase => hback ⟨trivial, hphase⟩,
        hrow.terminate⟩
  · have h := hothers tag heq
    refine ⟨?_, ?_, ?_, ?_⟩
    · simp only [hother heq, h.tags]
    · simp only [hother heq]
      intro ai hai
      have hrow := h.rows ai hai
      rw [hother (hchild (h.tags ▸ List.mem_map_of_mem hai : ai.tag ∈ forest.children tag))]
      exact ⟨hrow.status, hrow.address,
        fun idmap hlast _ => hrow.reinit idmap hlast fun hphase => heq hphase.1, hrow.terminate⟩
    · simp only [hother heq]
      exact h.own
    · simp only [hother heq]
      intro hne hinner hlast hfull
      refine h.terminated hne hinner hlast fun c hc => ?_
      rw [← hfull c hc, hother (hchild hc)]

end Frames

section Waves
variable {top : String} {net : Network} {tag : String} {agent : AgentProcess}

theorem Network.waves_same (top : String) (net : Network) (tag : String) (agent : AgentProcess)
    (phase : FrontendPhase) (ended : Bool)
    (hhandled : agent.handled = (net.agents tag).handled)
    (hcommands : agent.commands = (net.agents tag).commands)
    (hsent : agent.sent.length = (net.agents tag).sent.length)
    (hreported : agent.reported = (net.agents tag).reported)
    (hover : phase.over = net.phase.over) :
    { net.set tag agent with phase, ended }.waves top = net.waves top := by
  apply Waves.ext <;> funext other <;> simp only [waves, Network.set, hover] <;>
    by_cases heq : other = tag
  · rw [if_pos heq, heq, hhandled]
  · rw [if_neg heq]
  · rw [if_pos heq, heq, hhandled, hcommands]
  · rw [if_neg heq]
  · rw [if_pos heq, heq, hhandled, hsent]
  · rw [if_neg heq]
  · rw [if_pos heq, heq, hreported]
  · rw [if_neg heq]

theorem Network.waves_pass (top : String) (net : Network) (tag : String) (agent : AgentProcess)
    (tags : List String) (command : RestartCommand) (phase : FrontendPhase) (ended : Bool)
    (htag : tag ∉ tags) (htop : top ∉ tags)
    (hhandled : agent.handled = (net.agents tag).handled ++ [command])
    (htold : tag ≠ top → agent.handled ++ agent.commands =
      (net.agents tag).handled ++ (net.agents tag).commands)
    (hsent : tag ≠ top → agent.sent.length = (net.agents tag).sent.length ∧ phase = net.phase)
    (hover : tag = top → 1 + phase.over.toNat = net.phase.over.toNat)
    (hreported : agent.reported = (net.agents tag).reported) :
    { (net.set tag agent).tell tags command with phase, ended }.waves top =
      (net.waves top).pass tag command tags := by
  have hagent : ((net.set tag agent).tell tags command).agents tag = agent := by
    simp only [Network.tell, if_neg htag, Network.set_same]
  have hother : ∀ {other : String}, other ≠ tag →
      ((net.set tag agent).tell tags command).agents other =
        if other ∈ tags then (net.agents other).receive command else net.agents other := by
    intro other hne
    simp only [Network.tell, Network.set_other hne]
  apply Waves.ext <;> funext other <;> simp only [waves, Waves.pass] <;>
    by_cases heq : other = tag
  · rw [if_pos heq, heq, hagent, hhandled]
  · rw [if_neg heq, hother heq]
    split <;> rfl
  · rw [heq, hagent, if_neg htag]
    by_cases hne : tag = top
    · rw [if_pos hne, if_pos hne]
    · rw [if_neg hne, if_neg hne, htold hne]
  · rw [hother heq]
    by_cases hmem : other ∈ tags
    · have hne : other ≠ top := fun h => htop (h ▸ hmem)
      rw [if_neg hne, if_neg hne, if_pos hmem, if_pos hmem, List.append_assoc]
      rfl
    · rw [if_neg hmem, if_neg hmem]
  · rw [heq, hagent]
    by_cases hne : tag = top
    · rw [if_pos hne, if_pos hne, hhandled, List.length_append, List.length_singleton]
      have hsum := hover hne
      omega
    · rw [if_neg hne, if_neg hne, (hsent hne).1]
  · rw [hother heq]
    by_cases hne : other = top
    · have hphase : tag ≠ top := fun h => heq (hne.trans h.symm)
      rw [if_pos hne, if_pos hne, (hsent hphase).2]
      split <;> rfl
    · rw [if_neg hne, if_neg hne]
      split <;> rfl
  · rw [heq, hagent, hreported]
  · rw [hother heq]
    split <;> rfl

theorem Network.waves_answer (net : Network) (agent : AgentProcess) (hne : tag ≠ top)
    (hhandled : agent.handled = (net.agents tag).handled)
    (hcommands : agent.commands = (net.agents tag).commands)
    (hsent : agent.sent.length = (net.agents tag).sent.length + 1)
    (hreported : agent.reported = (net.agents tag).reported) :
    (net.set tag agent).waves top = (net.waves top).answer tag := by
  apply Waves.ext <;> funext other <;> simp only [waves, Waves.answer, Network.set] <;>
    by_cases heq : other = tag
  · rw [if_pos heq, heq, hhandled]
  · rw [if_neg heq]
  · rw [if_pos heq, heq, hhandled, hcommands]
  · rw [if_neg heq]
  · rw [if_pos heq, if_pos heq, heq, if_neg hne, if_neg hne, hsent]
  · rw [if_neg heq, if_neg heq]
  · rw [if_pos heq, heq, hreported]
  · rw [if_neg heq]

theorem Network.waves_over (net : Network) (agent : AgentProcess) (phase : FrontendPhase)
    (ended : Bool)
    (hhandled : agent.handled = (net.agents top).handled)
    (hreported : agent.reported = (net.agents top).reported)
    (hover : phase.over.toNat = net.phase.over.toNat + 1) :
    { net.set top agent with phase, ended }.waves top = (net.waves top).answer top := by
  apply Waves.ext <;> funext other <;> simp only [waves, Waves.answer, Network.set] <;>
    by_cases heq : other = top
  · rw [if_pos heq, heq, hhandled]
  · rw [if_neg heq]
  · rw [if_pos heq, if_pos heq]
  · rw [if_neg heq, if_neg heq, if_neg heq]
  · rw [if_pos heq, if_pos heq, if_pos heq, if_pos heq, heq, hhandled, hover]
    omega
  · rw [if_neg heq, if_neg heq, if_neg heq, if_neg heq]
  · rw [if_pos heq, heq, hreported]
  · rw [if_neg heq]

theorem AgentProcess.report_sent (agent : AgentProcess) : agent.report.sent = agent.sent := by
  rw [AgentProcess.report, AgentProcess.sent, AgentProcess.sent]
  cases agent.reports with
  | nil => simp
  | cons report rest => simp

theorem Network.waves_hear (top : String) {report : RestartReport} {rest : List RestartReport}
    (hreports : (net.agents tag).reports = report :: rest) :
    (net.set tag (net.agents tag).report).waves top = (net.waves top).hear tag := by
  apply Waves.ext <;> funext other <;> simp only [waves, Waves.hear, Network.set] <;>
    by_cases heq : other = tag
  · rw [if_pos heq, heq]
    rfl
  · rw [if_neg heq]
  · rw [if_pos heq, heq]
    rfl
  · rw [if_neg heq]
  · rw [if_pos heq, heq, AgentProcess.report_sent]
    rfl
  · rw [if_neg heq]
  · rw [if_pos heq, if_pos heq, heq, AgentProcess.report, hreports, List.length_append]
    rfl
  · rw [if_neg heq, if_neg heq]

end Waves

end ReadexPtf.Agents
