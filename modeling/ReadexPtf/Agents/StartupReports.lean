import ReadexPtf.Agents.StartupAgents

/-! The reports of the children, as their parents take them. -/
namespace ReadexPtf.Agents
open ReadexPtf

section Tables
variable {update : AgentInfo → AgentInfo} {tag : String} {agents : List AgentInfo}

/-- Where the tags are unique, the child of the tag is updated and no other. -/
theorem onHeartbeat_eq (hnodup : (agents.map AgentInfo.tag).Nodup) :
    onHeartbeat update tag agents =
      agents.map fun ai => if ai.tag = tag then update ai else ai := by
  induction agents with
  | nil => rfl
  | cons ai rest ih =>
    rw [List.map_cons, List.nodup_cons] at hnodup
    rw [onHeartbeat, List.map_cons, ih hnodup.2]
    split
    · rename_i heq
      congr 1
      refine (List.map_id _).symm.trans (List.map_congr_left fun other hother => ?_)
      have hne : other.tag ≠ tag := fun h =>
        hnodup.1 (heq.trans h.symm ▸ List.mem_map_of_mem hother)
      rw [if_neg hne]
      rfl
    · rfl

theorem onTerminated_eq :
    onTerminated tag agents =
      (agents.map fun ai => if ai.tag = tag then { ai with applTerminated := true } else ai,
        (agents.map fun ai => if ai.tag = tag then { ai with applTerminated := true } else ai).all
          AgentInfo.applTerminated) := by
  induction agents with
  | nil => rfl
  | cons ai rest ih => simp only [onTerminated, ih, List.map_cons, List.all_cons]

/-- How the handler of a report changes the entry of its sender. -/
def AgentInfo.onReport (ai : AgentInfo) : RestartReport → AgentInfo
  | .heartbeat hostname port _ => ai.onHeartbeat hostname port
  | .terminated _ => { ai with applTerminated := true }

def markReport (child : String) (report : RestartReport) (agents : List AgentInfo) :
    List AgentInfo :=
  agents.map fun ai => if ai.tag = child then ai.onReport report else ai

theorem AgentInfo.onReport_tag (report : RestartReport) (ai : AgentInfo) :
    (ai.onReport report).tag = ai.tag := by
  cases report with
  | heartbeat hostname port child =>
    unfold AgentInfo.onReport AgentInfo.onHeartbeat
    dsimp only
    split <;> rfl
  | terminated child => rfl

theorem markReport_tags (child : String) (report : RestartReport) (agents : List AgentInfo) :
    (markReport child report agents).map AgentInfo.tag = agents.map AgentInfo.tag := by
  rw [markReport, List.map_map]
  apply List.map_congr_left
  intro ai _
  rw [Function.comp_apply]
  split
  · exact ai.onReport_tag report
  · rfl

/-- The next report that is due keeps the row of its sender. -/
theorem Row.report {handled : List RestartCommand} {back : Prop} {child : AgentProcess}
    {ai : AgentInfo} (h : Row handled back child ai) (hhandled : child.handled = handled)
    (hlength : child.reported.length = handled.length)
    (hreports : child.reports.head? = some (child.current tag)) :
    Row handled back child.report (ai.onReport (child.current tag)) := by
  have hreported : child.report.reported = child.reported ++ [child.current tag] := by
    rw [AgentProcess.report, List.take_one, hreports]
    rfl
  have hne : child.report.reported ≠ [] := by
    rw [hreported]
    exact List.append_ne_nil_of_right_ne_nil _ (List.cons_ne_nil _ _)
  have hover : child.report.reported.length = handled.length + 1 := by
    rw [hreported, List.length_append, hlength]
    rfl
  have hlater : ∀ {command}, handled.getLast? = some command → child.reported ≠ [] := by
    intro command hlast hnil
    rw [hnil, List.length_nil, eq_comm, List.length_eq_zero_iff] at hlength
    rw [hlength] at hlast
    cases hlast
  have hheartbeat : handled.getLast? ≠ some .terminate →
      ai.onReport (child.current tag) = ai.onHeartbeat child.hostname child.port := by
    intro hlast
    unfold AgentProcess.current
    rw [hhandled]
    cases hcommand : handled.getLast? with
    | none => rfl
    | some command =>
      cases command with
      | terminate => exact absurd hcommand hlast
      | reinit idmap => rfl
  by_cases hlast : handled.getLast? = some .terminate
  · have hmark : ai.onReport (child.current tag) = { ai with applTerminated := true } := by
      unfold AgentProcess.current
      rw [hhandled, hlast]
      rfl
    rw [hmark]
    have hold := hlater hlast
    refine ⟨?_, fun _ => h.address hold, fun idmap hreinit => ?_, fun _ => ?_⟩
    · have hstatus := h.status
      rw [if_neg hold] at hstatus
      rw [if_neg hne]
      exact hstatus
    · rw [hlast] at hreinit
      cases hreinit
    · exact iff_of_true rfl hover
  · rw [hheartbeat hlast]
    refine ⟨?_, fun _ => ?_, fun idmap hreinit _ => ?_, fun hterminate => absurd hterminate hlast⟩
    · rw [if_neg hne]
      unfold AgentInfo.onHeartbeat
      split
      · rfl
      · rename_i hstatus
        have hstarted := h.status
        by_cases hnil : child.reported = []
        · rw [if_pos hnil] at hstarted
          exact absurd hstarted hstatus
        · rw [if_neg hnil] at hstarted
          exact hstarted
    · unfold AgentInfo.onHeartbeat
      split <;> exact ⟨rfl, rfl⟩
    · have hold := hlater hreinit
      have hstatus := h.status
      rw [if_neg hold] at hstatus
      have hagain : (ai.onHeartbeat child.hostname child.port).statusReinit = .started := by
        unfold AgentInfo.onHeartbeat
        rw [if_neg (by rw [hstatus]; simp)]
      exact iff_of_true hagain hover

end Tables

section Deliveries
variable {forest : Forest String} {top parent child : String} {net : Network}
variable {report : RestartReport}

/-- A report on its way is the one for the last command of both ends. -/
theorem Linked.due (h : Linked forest top net) (hordered : (net.waves top).Ordered forest top)
    (htop : ∀ b, top ∉ forest.children b) (hchild : child ∈ forest.children parent)
    (hreport : report ∈ (net.agents child).reports.head?) :
    report = (net.agents child).current child ∧
      (net.agents child).handled = (net.agents parent).handled ∧
      (net.agents child).reported.length = (net.agents parent).handled.length ∧
      (net.waves top).heard child < (net.waves top).answered child := by
  have hne : child ≠ top := fun heq => htop parent (heq ▸ hchild)
  rw [Option.mem_def, List.head?_eq_some_iff] at hreport
  obtain ⟨rest, hrest⟩ := hreport
  have hsent : (net.waves top).heard child < (net.waves top).answered child := by
    rw [Network.waves_answered hne, AgentProcess.sent, hrest, List.length_append]
    exact Nat.lt_add_of_pos_right (Nat.succ_pos _)
  have hpart := (hordered.begun child hne).trans (hordered.told hchild)
  have hheard := hordered.length_le hchild
  have hanswered := hordered.answered child
  have hlength := hpart.length_le
  have hhandled : (net.agents child).handled = (net.agents parent).handled :=
    hpart.eq_of_length (by omega)
  have hreported : (net.agents child).reported.length = (net.agents parent).handled.length := by
    change (net.agents parent).handled.length ≤ (net.agents child).reported.length at hheard
    change (net.agents child).reported.length < _ at hsent
    change _ ≤ (net.agents child).handled.length + 1 at hanswered
    rw [hhandled] at hanswered
    omega
  refine ⟨?_, hhandled, hreported, hsent⟩
  exact AgentProcess.eq_current ((h.each child).own hne).reports hrest
    (hreported.trans (congrArg List.length hhandled.symm))

theorem Linked.hear (h : Linked forest top net) (hchild : child ∈ forest.children parent)
    (hne : child ≠ top) {other : String} (hother : other ≠ parent) :
    LinkedAt forest top (net.set child (net.agents child).report) other := by
  by_cases heq : other = child
  · subst heq
    have hold := h.each other
    have hother : ∀ {c}, c ∈ forest.children other →
        (net.set other (net.agents other).report).agents c = net.agents c :=
      fun hc => Network.set_other (Forest.ne_of_mem hc)
    refine ⟨?_, ?_, ?_, ?_⟩
    · rw [Network.set_same]
      exact hold.tags
    · rw [Network.set_same]
      intro ai hai
      rw [hother (hold.tags ▸ List.mem_map_of_mem hai)]
      exact hold.rows ai hai
    · rw [Network.set_same]
      intro hne
      have hown := hold.own hne
      have hsent := AgentProcess.report_sent (net.agents other)
      refine ⟨?_, ?_, ?_, ?_, ?_, ?_⟩
      · rw [hsent]
        exact hown.reports
      · rw [hsent]
        exact hown.idle
      · rw [hsent]
        exact hown.leaf
      · rw [hsent]
        exact hown.startup
      · rw [hsent]
        exact hown.startupReinit
      · rw [hsent]
        exact hown.answered
    · rw [Network.set_same, AgentProcess.report_sent]
      intro hne hinner hlast hfull
      exact hold.terminated hne hinner hlast fun c hc => hother hc ▸ hfull c hc
  · exact (h.each other).set heq (fun hmem => absurd (forest.parent_unique hmem hchild) hother)
      rfl rfl

theorem Linked.hear_front (h : Linked forest top net) (hne : child ≠ top) :
    Front top (net.set child (net.agents child).report) := by
  have htop : (net.set child (net.agents child).report).agents top = net.agents top :=
    Network.set_other hne.symm
  have hfront := h.front
  refine ⟨?_, ?_, ?_, ?_, ?_⟩
  · rw [htop]
    exact hfront.reported
  · rw [htop]
    exact hfront.history
  · simp only [Network.table, htop]
    exact hfront.handler
  · simp only [Network.table, htop]
    exact hfront.reset
  · simp only [Network.table, htop]
    exact hfront.restarting

/-- The table of the parent after a report. -/
theorem Linked.hear_rows (h : Linked forest top net)
    (hhandled : (net.agents child).handled = (net.agents parent).handled)
    (hlength : (net.agents child).reported.length = (net.agents parent).handled.length)
    (hreport : (net.agents child).current child ∈ (net.agents child).reports.head?) :
    ∀ ai ∈ markReport child ((net.agents child).current child) (net.agents parent).childAgents,
      Row (net.agents parent).handled (parent = top ∧ net.phase = .restarting)
        ((net.set child (net.agents child).report).agents ai.tag) ai := by
  intro ai hai
  obtain ⟨old, hold, heq⟩ := List.mem_map.mp hai
  have hrow := (h.each parent).rows old hold
  by_cases htag : old.tag = child
  · rw [if_pos htag] at heq
    have hsame : ai.tag = child := heq ▸ (AgentInfo.onReport_tag _ _).trans htag
    rw [hsame, Network.set_same, ← heq]
    exact (htag ▸ hrow).report hhandled hlength hreport
  · rw [if_neg htag] at heq
    rw [← heq, Network.set_other htag]
    exact hrow

theorem Linked.nodup (h : Linked forest top net) :
    ((net.agents parent).childAgents.map AgentInfo.tag).Nodup :=
  h.tags parent ▸ forest.nodup parent

/-- The agent after a report: the sender is marked, and an answer may follow. -/
theorem AgentProcess.onReport_current {agent sender : AgentProcess}
    (hnodup : (agent.childAgents.map AgentInfo.tag).Nodup)
    (hhandled : sender.handled = agent.handled) {childAgents : List AgentInfo}
    (hmark : childAgents = markReport child (sender.current child) agent.childAgents) :
    agent.onReport parent (sender.current child) =
      if agent.handled.getLast? = some .terminate ∧ childAgents.all AgentInfo.applTerminated then
        { agent with childAgents }.send (.terminated parent)
      else { agent with childAgents } := by
  unfold AgentProcess.current at hmark ⊢
  rw [hhandled] at hmark ⊢
  cases hlast : agent.handled.getLast? with
  | none =>
    rw [hlast] at hmark
    rw [if_neg fun h => absurd h.1 (by simp), AgentProcess.onReport, onHeartbeat_eq hnodup, hmark]
    rfl
  | some command =>
    rw [hlast] at hmark
    cases command with
    | terminate =>
      have hterminated : onTerminated child agent.childAgents =
          (childAgents, childAgents.all AgentInfo.applTerminated) := by
        rw [onTerminated_eq, hmark]
        rfl
      simp only [AgentProcess.answer, AgentProcess.onReport, hterminated, true_and]
    | reinit idmap =>
      rw [if_neg fun h => absurd h.1 (by simp), hmark]
      exact congrArg (fun childAgents => { agent with childAgents }) (onHeartbeat_eq hnodup)

/-- A high-level agent handles a report of a child. -/
theorem Linked.deliver (h : Linked forest top net)
    (hordered : (net.waves top).Ordered forest top) (htop : ∀ b, top ∉ forest.children b)
    (hparent : parent ∈ forest.nodes) (hne : parent ≠ top)
    (hchild : child ∈ forest.children parent)
    (halive : (net.agents parent).running = true)
    (hreport : report ∈ (net.agents child).reports.head?) :
    Relation.TransGen (Waves.Step forest top) (net.waves top)
        ((net.deliver top parent child report).waves top) ∧
      Linked forest top (net.deliver top parent child report) := by
  obtain ⟨hcurrent, hhandled, hlength, hsent⟩ := h.due hordered htop hchild hreport
  have hnetop : child ≠ top := fun heq => htop parent (heq ▸ hchild)
  have hself : child ≠ parent := Forest.ne_of_mem hchild
  have hrows := h.hear_rows hhandled hlength (hcurrent ▸ hreport)
  have hreports : ∃ rest, (net.agents child).reports = report :: rest := by
    rw [Option.mem_def, List.head?_eq_some_iff] at hreport
    exact hreport
  obtain ⟨rest, hrest⟩ := hreports
  have hwaves := Network.waves_hear top hrest
  have hhear : Waves.Step forest top (net.waves top)
      ((net.set child (net.agents child).report).waves top) :=
    hwaves ▸ .hear child (forest.children_mem hchild) hsent
  have hordered' := hhear.ordered hordered htop
  have hown := (h.each parent).own hne
  obtain ⟨heard, hheard⟩ : ∃ heard, heard = net.set child (net.agents child).report := ⟨_, rfl⟩
  have hsame : heard.agents parent = net.agents parent := by
    rw [hheard, Network.set_other hself.symm]
  obtain ⟨childAgents, hmark⟩ : ∃ childAgents, childAgents =
      markReport child ((net.agents child).current child) (net.agents parent).childAgents :=
    ⟨_, rfl⟩
  rw [← hmark, ← hheard] at hrows
  have hrows' : ∀ ai ∈ childAgents,
      Row (net.agents parent).handled False (heard.agents ai.tag) ai := by
    intro ai hai
    have hrow := hrows ai hai
    exact ⟨hrow.status, hrow.address,
      fun idmap hlast _ => hrow.reinit idmap hlast fun hback => hne hback.1, hrow.terminate⟩
  have htags : childAgents.map AgentInfo.tag = forest.children parent := by
    rw [hmark, markReport_tags]
    exact h.tags parent
  have hmarks : (net.agents parent).handled.getLast? = some .terminate →
      (childAgents.all AgentInfo.applTerminated = true ↔
        (heard.waves top).Full forest parent) := by
    intro hlast
    rw [List.all_eq_true]
    constructor
    · intro hall c hc
      rw [← htags] at hc
      obtain ⟨ai, hai, heq⟩ := List.mem_map.mp hc
      have hlength := ((hrows' ai hai).terminate hlast).mp (hall ai hai)
      show (heard.agents c).reported.length = (heard.agents parent).handled.length + 1
      rw [hsame, ← heq]
      exact hlength
    · intro hfull ai hai
      refine ((hrows' ai hai).terminate hlast).mpr ?_
      have hlength := hfull ai.tag (htags ▸ List.mem_map_of_mem hai)
      change _ = (heard.agents parent).handled.length + 1 at hlength
      rw [hsame] at hlength
      exact hlength
  rw [Network.deliver, if_neg hne, ← hheard, hsame, hcurrent,
    AgentProcess.onReport_current h.nodup hhandled hmark]
  rw [← hheard] at hhear hordered'
  have heach : ∀ other, other ≠ parent → LinkedAt forest top heard other := by
    intro other hother
    rw [hheard]
    exact h.hear hchild hnetop hother
  have hfront : Front top heard := hheard ▸ h.hear_front hnetop
  split
  · rename_i hdone
    have hfull := (hmarks hdone.1).mp hdone.2
    -- the report was the last one missing, so the agent had not answered
    have hopen : (net.agents parent).sent.length = (net.agents parent).handled.length := by
      have hbehind := hordered.behind parent
      have hanswered := hordered.answered parent
      rw [Network.waves_answered hne] at hbehind hanswered
      change (net.agents parent).handled.length ≤ _ at hbehind
      change _ ≤ (net.agents parent).handled.length + 1 at hanswered
      have hbefore : (net.agents parent).sent.length ≠
          (net.agents parent).handled.length + 1 := by
        intro hover
        have hold := hordered.full ((Network.waves_answered hne).trans hover) child hchild
        change (net.agents child).reported.length = (net.agents parent).handled.length + 1 at hold
        omega
      omega
    have hmore : ({ net.agents parent with childAgents }.send (.terminated parent)).sent =
        (net.agents parent).sent ++ [.terminated parent] :=
      (List.append_assoc _ _ _).symm
    have hover : ({ net.agents parent with childAgents }.send (.terminated parent)).sent.length =
        (net.agents parent).handled.length + 1 := by
      rw [hmore, List.length_append, hopen]
      rfl
    constructor
    · refine .tail (.single hhear) ?_
      rw [Network.waves_answer heard _ hne (by rw [hsame]; rfl) (by rw [hsame]; rfl)
        (by rw [hover, hsame, hopen]) (by rw [hsame]; rfl)]
      refine .answer parent hparent ?_ hfull
      rw [Network.waves_answered hne, hsame, hopen]
      exact congrArg (fun agent : AgentProcess => agent.handled.length) hsame.symm
    · refine linked_set heach hfront hne htags (by rw [hsame]; rfl) (by rw [hsame]; rfl)
        (by rw [hsame]; rfl) hrows' ?_ fun _ _ _ => hover
      have hcommand : (net.agents parent).current parent = .terminated parent := by
        rw [AgentProcess.current, hdone.1]
        rfl
      refine ⟨?_, fun hidle => ?_, fun _ _ => hover, fun hstartup => ?_, fun hreinit => ?_,
        fun _ _ _ => hover⟩
      · rw [hmore, ← hcommand, AgentProcess.prefix_answers hown.reports hopen]
        exact List.prefix_refl _
      · exact absurd (halive.symm.trans hidle) (by simp)
      · have hnil := (hown.startup hstartup).1
        rw [hnil] at hdone
        exact absurd hdone.1 (by simp)
      · obtain ⟨⟨idmap, hlast⟩, -⟩ := hown.startupReinit hreinit
        exact absurd (hlast.symm.trans hdone.1) (by simp)
  · rename_i hdone
    constructor
    · have hwaves := Network.waves_same top heard parent
        { net.agents parent with childAgents } heard.phase heard.ended (by rw [hsame])
        (by rw [hsame])
        (by rw [hsame]; rfl) (by rw [hsame]) rfl
      exact .single (hwaves ▸ hhear)
    · refine linked_set heach hfront hne htags (by rw [hsame]) (by rw [hsame])
        (by rw [hsame]) hrows' ?_ fun _ hlast hfull => ?_
      · exact ⟨hown.reports, hown.idle, hown.leaf, hown.startup, hown.startupReinit,
          hown.answered⟩
      · refine absurd ⟨hlast, (hmarks hlast).mpr fun c hc => ?_⟩ hdone
        show (heard.agents c).reported.length = (heard.agents parent).handled.length + 1
        rw [hsame]
        exact hfull c hc

end Deliveries

end ReadexPtf.Agents
