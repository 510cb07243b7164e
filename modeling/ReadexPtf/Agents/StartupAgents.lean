import ReadexPtf.Agents.StartupLinks

/-! The steps of the agents in the waves: they begin a wave with a command, and answer it. -/
namespace ReadexPtf.Agents
open ReadexPtf

section AnalysisAgents
variable {forest : Forest String} {top tag : String} {net : Network}

theorem Network.tell_nil {command : RestartCommand} : net.tell [] command = net := by
  simp [Network.tell]

theorem Network.set_set {first second : AgentProcess} :
    (net.set tag first).set tag second = net.set tag second := by
  simp only [Network.set, Network.mk.injEq, and_true]
  funext other
  split <;> rfl

theorem Linked.rows_of_ne (h : Linked forest top net) (hne : tag ≠ top) :
    ∀ ai ∈ (net.agents tag).childAgents,
      Row (net.agents tag).handled False (net.agents ai.tag) ai := by
  intro ai hai
  have hrow := (h.each tag).rows ai hai
  exact ⟨hrow.status, hrow.address,
    fun idmap hlast _ => hrow.reinit idmap hlast fun hback => hne hback.1, hrow.terminate⟩

theorem Network.waves_answered (hne : tag ≠ top) :
    (net.waves top).answered tag = (net.agents tag).sent.length :=
  if_neg hne

theorem Network.waves_told (hne : tag ≠ top) :
    (net.waves top).told tag = (net.agents tag).handled ++ (net.agents tag).commands :=
  if_neg hne

theorem full_of_leaf {waves : Waves String RestartCommand} (hleaf : forest.Leaf tag) :
    waves.Full forest tag := by
  intro c hc
  rw [hleaf] at hc
  cases hc

/-- The heartbeat of the start. -/
theorem Linked.runAnalysisAgent (h : Linked forest top net) (htag : tag ∈ forest.nodes)
    (hne : tag ≠ top) (hleaf : forest.Leaf tag) (hidle : (net.agents tag).running = false) :
    Waves.Step forest top (net.waves top)
        ((net.set tag ((net.agents tag).runAnalysisAgent tag)).waves top) ∧
      Linked forest top (net.set tag ((net.agents tag).runAnalysisAgent tag)) := by
  obtain ⟨hhandled, hsent, htimer⟩ := ((h.each tag).own hne).idle hidle
  have hsent' : ((net.agents tag).runAnalysisAgent tag).sent =
      (net.agents tag).sent ++ [.heartbeat (net.agents tag).hostname (net.agents tag).port tag] :=
    (List.append_assoc _ _ _).symm
  constructor
  · rw [Network.waves_answer net ((net.agents tag).runAnalysisAgent tag) hne rfl rfl
      (by rw [hsent', List.length_append]; rfl) rfl]
    refine .answer tag htag ?_ (full_of_leaf hleaf)
    rw [Network.waves_answered hne, hsent]
    show 0 = (net.agents tag).handled.length
    rw [hhandled]
    rfl
  · refine h.set _ hne (h.tags tag) rfl rfl rfl (h.rows_of_ne hne) ?_ fun hinner => absurd hleaf hinner
    refine ⟨?_, fun h => (by cases h), ?_, ?_, ?_, ?_⟩
    · rw [hsent', hsent]
      exact ⟨_, rfl⟩
    · intro _ _
      show ((net.agents tag).runAnalysisAgent tag).sent.length = (net.agents tag).handled.length + 1
      rw [hsent', hsent, hhandled]
      rfl
    · intro hstartup
      exact absurd (htimer.symm.trans hstartup) (by simp)
    · intro hreinit
      exact absurd (htimer.symm.trans hreinit) (by simp)
    · intro _ _ _
      show ((net.agents tag).runAnalysisAgent tag).sent.length = (net.agents tag).handled.length + 1
      rw [hsent', hsent, hhandled]
      rfl

theorem AgentProcess.next_commands {agent : AgentProcess} {command : RestartCommand}
    (h : command ∈ agent.commands.head?) :
    agent.next.handled = agent.handled ++ [command] ∧
      agent.commands = command :: agent.next.commands := by
  rw [Option.mem_def, List.head?_eq_some_iff] at h
  obtain ⟨rest, hrest⟩ := h
  constructor
  · rw [AgentProcess.next, hrest]
    rfl
  · rw [AgentProcess.next, hrest]
    rfl

theorem AgentProcess.onCommand_eq (agent : AgentProcess) (command : RestartCommand) :
    agent.onCommand tag command = agent.send (agent.answer tag command) := by
  cases command <;> rfl

/-- A command and the report for it. -/
theorem Linked.command (h : Linked forest top net) {parent : String}
    (htop : ∀ b, top ∉ forest.children b) (htag : tag ∈ forest.children parent)
    (hleaf : forest.Leaf tag) (halive : (net.agents tag).running = true)
    {command : RestartCommand} (hcommand : command ∈ (net.agents tag).commands.head?) :
    Relation.TransGen (Waves.Step forest top) (net.waves top)
        ((net.set tag ((net.agents tag).next.onCommand tag command)).waves top) ∧
      Linked forest top (net.set tag ((net.agents tag).next.onCommand tag command)) := by
  have hne : tag ≠ top := fun heq => htop parent (heq ▸ htag)
  obtain ⟨hhandled, hcommands⟩ := AgentProcess.next_commands hcommand
  have hown := (h.each tag).own hne
  have hlength := hown.leaf hleaf halive
  have hanswers : (net.agents tag).sent = (net.agents tag).answers tag :=
    hown.reports.eq_of_length (hlength.trans AgentProcess.answers_length.symm)
  rw [AgentProcess.onCommand_eq]
  have hsent : ((net.agents tag).next.send ((net.agents tag).next.answer tag command)).sent =
      (net.agents tag).sent ++ [(net.agents tag).answer tag command] := by
    rw [AgentProcess.sent, AgentProcess.sent, List.append_assoc]
    cases command <;> rfl
  have hlength' : ((net.agents tag).next.send ((net.agents tag).next.answer tag command)).sent.length
      = (net.agents tag).next.handled.length + 1 := by
    rw [hsent, hhandled, List.length_append, List.length_append, hlength]
    rfl
  constructor
  · have hpass := Network.waves_pass top net tag (net.agents tag).next [] command net.phase
      net.ended List.not_mem_nil List.not_mem_nil hhandled
      (fun _ => by rw [hhandled, hcommands, List.append_assoc]; rfl) (fun _ => ⟨rfl, rfl⟩)
      (fun heq => absurd heq hne) rfl
    rw [Network.tell_nil] at hpass
    refine .tail (.single ?_) ?_ (b := (net.set tag (net.agents tag).next).waves top)
    · refine hpass ▸ .pass tag parent htag command [] (fun _ hc => absurd hc List.not_mem_nil) ?_
      rw [Network.waves_told hne, hcommands]
      exact ⟨(net.agents tag).next.commands, List.append_assoc _ _ _⟩
    · have hsame : (net.set tag (net.agents tag).next).agents tag = (net.agents tag).next :=
        Network.set_same
      have hlast : (net.agents tag).next.sent.length = (net.agents tag).next.handled.length := by
        rw [hhandled, List.length_append]
        exact hlength
      have hanswer := Network.waves_answer (net.set tag (net.agents tag).next)
        ((net.agents tag).next.send ((net.agents tag).next.answer tag command)) hne
        (by rw [hsame]; rfl) (by rw [hsame]; rfl) (by rw [hsame, hlength', hlast])
        (by rw [hsame]; rfl)
      rw [Network.set_set] at hanswer
      rw [hanswer]
      refine .answer tag (forest.children_mem htag) ?_ (full_of_leaf hleaf)
      rw [Network.waves_answered hne, hsame, hlast]
      exact congrArg (fun agent : AgentProcess => agent.handled.length) hsame.symm
  · refine h.set _ hne (h.tags tag) rfl rfl rfl ?_ ?_ fun hinner => absurd hleaf hinner
    · intro ai hai
      have hmem : ai.tag ∈ forest.children tag := h.tags tag ▸ List.mem_map_of_mem hai
      rw [hleaf] at hmem
      cases hmem
    · refine ⟨?_, fun hidle => ?_, fun _ _ => hlength', ?_, ?_, fun _ _ _ => hlength'⟩
      · rw [hsent, hanswers]
        refine ⟨[], ?_⟩
        rw [List.append_nil]
        show _ = _ :: List.map _ (net.agents tag).next.handled
        rw [hhandled, List.map_append]
        rfl
      · exact absurd (halive.symm.trans hidle) (by simp)
      · intro hstartup
        rw [(hown.startup hstartup).2] at hlength
        cases hlength
      · intro hreinit
        rw [(hown.startupReinit hreinit).2] at hlength
        omega

end AnalysisAgents

section HighLevelAgents
variable {forest : Forest String} {top tag parent : String} {net : Network}
variable {reachable : String → ℤ → Bool}

theorem Linked.runHighLevelAgent (h : Linked forest top net) (hne : tag ≠ top)
    (hinner : ¬forest.Leaf tag) (hidle : (net.agents tag).running = false) :
    (net.set tag (net.agents tag).runHighLevelAgent).waves top = net.waves top ∧
      Linked forest top (net.set tag (net.agents tag).runHighLevelAgent) := by
  have hown := (h.each tag).own hne
  obtain ⟨hhandled, hsent, htimer⟩ := hown.idle hidle
  refine ⟨Network.waves_same _ _ _ _ _ _ rfl rfl rfl rfl rfl, ?_⟩
  refine h.set _ hne (h.tags tag) rfl rfl rfl (h.rows_of_ne hne) ?_ ((h.each tag).terminated hne)
  exact ⟨hown.reports, fun h => (by cases h), fun hleaf => absurd hleaf hinner, fun _ => ⟨hhandled, hsent⟩,
    fun h => (by cases h), fun h => (by cases h)⟩

/-- What a node of the waves that has a command on its way has sent. -/
theorem Linked.over (hordered : (net.waves top).Ordered forest top)
    (htop : ∀ b, top ∉ forest.children b) (htag : tag ∈ forest.children parent)
    {command : RestartCommand} (hcommand : command ∈ (net.agents tag).commands.head?) :
    (net.waves top).begun tag ++ [command] <+: (net.waves top).told tag ∧
      (net.agents tag).sent.length = (net.agents tag).handled.length + 1 ∧
      ∀ c ∈ forest.children tag,
        (net.agents c).reported.length = (net.agents tag).handled.length + 1 := by
  have hne : tag ≠ top := fun heq => htop parent (heq ▸ htag)
  obtain ⟨-, hcommands⟩ := AgentProcess.next_commands hcommand
  have hturn : (net.waves top).begun tag ++ [command] <+: (net.waves top).told tag := by
    rw [Network.waves_told hne, hcommands]
    exact ⟨(net.agents tag).next.commands, List.append_assoc _ _ _⟩
  have hover := hordered.over htag hturn
  refine ⟨hturn, ?_, hordered.full hover⟩
  rw [Network.waves_answered hne] at hover
  exact hover

/-- An inner agent handles a command: it begins a wave. -/
theorem Linked.pass (h : Linked forest top net) (hordered : (net.waves top).Ordered forest top)
    (htop : ∀ b, top ∉ forest.children b) (htag : tag ∈ forest.children parent)
    (hinner : ¬forest.Leaf tag) (halive : (net.agents tag).running = true)
    {command : RestartCommand} (hcommand : command ∈ (net.agents tag).commands.head?)
    {childAgents : List AgentInfo} {timerAction : Option AgentTimer} {tags : List String}
    (htags : childAgents.map AgentInfo.tag = forest.children tag)
    (hrows : ∀ ai ∈ childAgents,
      Row ((net.agents tag).handled ++ [command]) False (net.agents ai.tag) ai)
    (htimer : timerAction =
      match command with
      | .terminate => (net.agents tag).timerAction
      | .reinit _ => some .startupReinit)
    (htold : ∀ c ∈ tags, c ∈ forest.children tag) :
    Waves.Step forest top (net.waves top)
        (((net.set tag { (net.agents tag).next with childAgents, timerAction }).tell tags
          command).waves top) ∧
      Linked forest top
        ((net.set tag { (net.agents tag).next with childAgents, timerAction }).tell tags
          command) := by
  have hne : tag ≠ top := fun heq => htop parent (heq ▸ htag)
  obtain ⟨hhandled, hcommands⟩ := AgentProcess.next_commands hcommand
  obtain ⟨hturn, hlength, hfull⟩ := Linked.over hordered htop htag hcommand
  have hown := (h.each tag).own hne
  constructor
  · have hpass := Network.waves_pass top net tag
      { (net.agents tag).next with childAgents, timerAction } tags command net.phase net.ended
      (fun hmem => Forest.ne_of_mem (htold tag hmem) rfl) (fun hmem => htop tag (htold top hmem))
      hhandled (fun _ => by rw [hhandled, hcommands, List.append_assoc]; rfl)
      (fun _ => ⟨rfl, rfl⟩) (fun heq => absurd heq hne) rfl
    exact hpass ▸ .pass tag parent htag command tags htold hturn
  · refine Linked.tell (h.set { (net.agents tag).next with childAgents, timerAction } hne
       htags rfl rfl rfl (fun ai hai => ?_) ?_ ?_)
    · exact hhandled ▸ hrows ai hai
    · refine ⟨?_, fun hidle => ?_, fun hleaf => absurd hleaf hinner, ?_, ?_, ?_⟩
      · refine hown.reports.trans ?_
        show _ <+: _ :: List.map _ (net.agents tag).next.handled
        rw [hhandled, List.map_append]
        exact List.prefix_append _ _
      · exact absurd (halive.symm.trans hidle) (by simp)
      · intro hstartup
        cases command with
        | terminate =>
          rw [(hown.startup (htimer.symm.trans hstartup)).2] at hlength
          cases hlength
        | reinit idmap => exact absurd (htimer.symm.trans hstartup) (by simp)
      · intro hreinit
        cases command with
        | terminate =>
          rw [(hown.startupReinit (htimer.symm.trans hreinit)).2] at hlength
          omega
        | reinit idmap =>
          refine ⟨⟨idmap, ?_⟩, ?_⟩
          · show (net.agents tag).next.handled.getLast? = _
            rw [hhandled, List.getLast?_concat]
          · show (net.agents tag).sent.length = (net.agents tag).next.handled.length
            rw [hhandled, List.length_append, hlength]
            rfl
      · intro hnone _ hlast
        cases command with
        | terminate =>
          refine absurd ?_ hlast
          show (net.agents tag).next.handled.getLast? = _
          rw [hhandled, List.getLast?_concat]
        | reinit idmap => exact absurd (htimer.symm.trans hnone) (by simp)
    · intro _ _ hover
      obtain ⟨c, hc⟩ := List.exists_mem_of_ne_nil _ hinner
      have hlater := hover c hc
      rw [hfull c hc] at hlater
      change _ = (net.agents tag).next.handled.length + 1 at hlater
      rw [hhandled, List.length_append, List.length_singleton] at hlater
      omega

/-- What a loop that sends commands leaves in the table. -/
theorem forChildren_id {ai : AgentInfo} {agents : List AgentInfo}
    (h : ai ∈ (forChildren reachable id id agents).1) :
    ∃ old ∈ agents, ai = { old with handler := ai.handler } := by
  rw [forChildren_agents] at h
  obtain ⟨old, hold, heq⟩ := List.mem_map.mp h
  refine ⟨old, hold, ?_⟩
  rw [← heq]
  split <;> rfl

theorem forChildren_tags (reachable : String → ℤ → Bool) {agents : List AgentInfo}
    {children : List String} (h : agents.map AgentInfo.tag = children) :
    (forChildren reachable id id agents).1.map AgentInfo.tag = children ∧
      ∀ c ∈ (forChildren reachable id id agents).2, c ∈ children := by
  refine ⟨(forChildren_map (fun _ => rfl) fun _ => rfl).trans h, fun c hc => ?_⟩
  rw [forChildren_actions] at hc
  obtain ⟨ai, hai, heq⟩ := List.mem_map.mp hc
  rw [← h, ← heq]
  exact List.mem_map_of_mem (List.mem_of_mem_filter hai)

theorem Linked.forward (h : Linked forest top net)
    (hordered : (net.waves top).Ordered forest top) (htop : ∀ b, top ∉ forest.children b)
    (htag : tag ∈ forest.children parent) (hinner : ¬forest.Leaf tag)
    (halive : (net.agents tag).running = true)
    {command : RestartCommand} (hcommand : command ∈ (net.agents tag).commands.head?) :
    Waves.Step forest top (net.waves top) ((net.forward reachable tag command).waves top) ∧
      Linked forest top (net.forward reachable tag command) := by
  have hne : tag ≠ top := fun heq => htop parent (heq ▸ htag)
  obtain ⟨-, -, hfull⟩ := Linked.over hordered htop htag hcommand
  have hmem : ∀ ai ∈ (net.agents tag).childAgents, ai.tag ∈ forest.children tag :=
    fun ai hai => h.tags tag ▸ List.mem_map_of_mem hai
  cases command with
  | terminate =>
    have htags : ((net.agents tag).childAgents.map fun ai =>
        { ai with applTerminated := false }).map AgentInfo.tag = forest.children tag := by
      rw [List.map_map, ← h.tags tag]
      rfl
    refine h.pass hordered htop htag hinner halive hcommand (forChildren_tags reachable htags).1 ?_ rfl
      (forChildren_tags reachable htags).2
    intro ai hai
    obtain ⟨marked, hmarked, hai⟩ := forChildren_id hai
    obtain ⟨old, hold, heq⟩ := List.mem_map.mp hmarked
    have hrow := h.rows_of_ne hne old hold
    rw [hai, ← heq]
    refine ⟨hrow.status, hrow.address, fun idmap hlast => ?_, fun _ => ?_⟩
    · rw [List.getLast?_concat] at hlast
      cases hlast
    · rw [List.length_append, hfull old.tag (hmem old hold)]
      simp
  | reinit idmap =>
    have htags := h.tags tag
    refine h.pass hordered htop htag hinner halive hcommand ?_ ?_ rfl (forChildren_tags reachable htags).2
    · rw [List.map_map]
      exact (forChildren_tags reachable htags).1
    · intro ai hai
      obtain ⟨sent, hsent, heq⟩ := List.mem_map.mp hai
      obtain ⟨old, hold, hsame⟩ := forChildren_id hsent
      have hrow := h.rows_of_ne hne old hold
      rw [← heq, hsame]
      refine ⟨hrow.status, hrow.address, fun idmap hlast => ?_, fun hlast => ?_⟩
      · rw [List.length_append, hfull old.tag (hmem old hold)]
        simp
      · rw [List.getLast?_concat] at hlast
        cases hlast

theorem Linked.exists_row (h : Linked forest top net) (hne : tag ≠ top) {c : String}
    (hc : c ∈ forest.children tag) :
    ∃ ai ∈ (net.agents tag).childAgents, ai.tag = c ∧
      Row (net.agents tag).handled False (net.agents c) ai := by
  rw [← h.tags tag] at hc
  obtain ⟨ai, hai, heq⟩ := List.mem_map.mp hc
  exact ⟨ai, hai, heq, heq ▸ h.rows_of_ne hne ai hai⟩

/-- An agent whose children have all answered sends its heartbeat. -/
theorem Linked.heartbeat (h : Linked forest top net) (htag : tag ∈ forest.nodes)
    (hne : tag ≠ top) (hinner : ¬forest.Leaf tag) (halive : (net.agents tag).running = true)
    (hlength : (net.agents tag).sent.length = (net.agents tag).handled.length)
    (hlast : (net.agents tag).handled.getLast? ≠ some .terminate)
    (hfull : (net.waves top).Full forest tag) :
    Waves.Step forest top (net.waves top)
        ((net.set tag { (net.agents tag).heartbeat tag with timerAction := none }).waves top) ∧
      Linked forest top
        (net.set tag { (net.agents tag).heartbeat tag with timerAction := none }) := by
  have hown := (h.each tag).own hne
  have hcurrent : (net.agents tag).current tag =
      .heartbeat (net.agents tag).hostname (net.agents tag).port tag := by
    unfold AgentProcess.current
    cases hcommand : (net.agents tag).handled.getLast? with
    | none => rfl
    | some command =>
      cases command with
      | terminate => exact absurd hcommand hlast
      | reinit idmap => rfl
  have hsent : { (net.agents tag).heartbeat tag with timerAction := none }.sent =
      (net.agents tag).sent ++ [(net.agents tag).current tag] := by
    rw [hcurrent]
    exact (List.append_assoc _ _ _).symm
  have hover : { (net.agents tag).heartbeat tag with timerAction := none }.sent.length =
      (net.agents tag).handled.length + 1 := by
    rw [hsent, List.length_append, hlength]
    rfl
  constructor
  · rw [Network.waves_answer net
      { (net.agents tag).heartbeat tag with timerAction := none } hne rfl rfl
      (by rw [hover, hlength]) rfl]
    refine .answer tag htag ?_ hfull
    rw [Network.waves_answered hne, hlength]
    rfl
  · refine h.set _ hne (h.tags tag) rfl rfl rfl (h.rows_of_ne hne) ?_ fun _ hterminate => ?_
    · refine ⟨?_, fun hidle => ?_, fun hleaf => absurd hleaf hinner, fun h => (by cases h), fun h => (by cases h),
        fun _ _ _ => hover⟩
      · rw [hsent, AgentProcess.prefix_answers hown.reports hlength]
        exact List.prefix_refl _
      · exact absurd (halive.symm.trans hidle) (by simp)
    · exact absurd hterminate hlast

theorem Network.set_self : net.set tag (net.agents tag) = net := by
  cases net with
  | mk agents phase ended =>
    simp only [Network.set, Network.mk.injEq, and_true]
    funext other
    split
    · rename_i heq
      rw [heq]
    · rfl

theorem Linked.timeout (h : Linked forest top net)
    (hordered : (net.waves top).Ordered forest top) (htop : ∀ b, top ∉ forest.children b)
    (htag : tag ∈ forest.nodes) (hne : tag ≠ top) (hinner : ¬forest.Leaf tag)
    (halive : (net.agents tag).running = true) (late : Bool) :
    (Waves.Step forest top (net.waves top)
          ((net.set tag ((net.agents tag).handleTimeout late tag)).waves top) ∨
        (net.set tag ((net.agents tag).handleTimeout late tag)).waves top = net.waves top ∧
          (late = false → net.set tag ((net.agents tag).handleTimeout late tag) = net)) ∧
      Linked forest top (net.set tag ((net.agents tag).handleTimeout late tag)) := by
  have hown := (h.each tag).own hne
  unfold AgentProcess.handleTimeout
  split
  · rw [Network.set_self]
    exact ⟨.inr ⟨rfl, fun _ => rfl⟩, h⟩
  · rename_i htimer
    obtain ⟨hhandled, hsent⟩ := hown.startup htimer
    split
    · rename_i hall
      rw [List.all_eq_true] at hall
      have hfull : (net.waves top).Full forest tag := by
        intro c hc
        obtain ⟨ai, hai, -, hrow⟩ := h.exists_row hne hc
        have hstarted := of_decide_eq_true (hall ai hai)
        have hreported : (net.agents c).reported ≠ [] := by
          intro hnil
          have hstatus := hrow.status
          rw [if_pos hnil, hstarted] at hstatus
          cases hstatus
        have hpositive := List.length_pos_of_ne_nil hreported
        have hle := hordered.heard_le htop hc
        change (net.agents c).reported.length ≤ (net.agents tag).handled.length + 1 at hle
        show (net.agents c).reported.length = (net.agents tag).handled.length + 1
        rw [hhandled] at hle ⊢
        exact Nat.le_antisymm hle hpositive
      obtain ⟨hstep, hlinked⟩ := h.heartbeat htag hne hinner halive
        (by rw [hsent, hhandled]; rfl) (by rw [hhandled]; simp) hfull
      exact ⟨.inl hstep, hlinked⟩
    · rw [Network.set_self]
      exact ⟨.inr ⟨rfl, fun _ => rfl⟩, h⟩
  · rename_i htimer
    obtain ⟨⟨idmap, hlast⟩, hlength⟩ := hown.startupReinit htimer
    split
    · rename_i hall
      rw [List.all_eq_true] at hall
      have hfull : (net.waves top).Full forest tag := by
        intro c hc
        obtain ⟨ai, hai, -, hrow⟩ := h.exists_row hne hc
        exact (hrow.reinit idmap hlast not_false).mp (of_decide_eq_true (hall ai hai))
      obtain ⟨hstep, hlinked⟩ := h.heartbeat htag hne hinner halive hlength
        (by rw [hlast]; simp) hfull
      exact ⟨.inl hstep, hlinked⟩
    · split
      · rename_i hlate
        refine ⟨.inr ⟨?_, fun hcalm => ?_⟩, ?_⟩
        · exact Network.waves_same top net tag { net.agents tag with stopped := true } net.phase
            net.ended rfl rfl rfl rfl rfl
        · rw [hcalm] at hlate
          cases hlate
        · exact h.set _ hne (h.tags tag) rfl rfl rfl (h.rows_of_ne hne)
            ⟨hown.reports, hown.idle, hown.leaf, hown.startup, hown.startupReinit,
              hown.answered⟩ ((h.each tag).terminated hne)
      · rw [Network.set_self]
        exact ⟨.inr ⟨rfl, fun _ => rfl⟩, h⟩

end HighLevelAgents

end ReadexPtf.Agents
