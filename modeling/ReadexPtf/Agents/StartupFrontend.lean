import ReadexPtf.Agents.StartupReports

/-! The steps of the frontend: it starts the waves, and takes them as over. -/
namespace ReadexPtf.Agents
open ReadexPtf

section Frontends
variable {forest : Forest String} {top child : String} {net : Network}
variable {reachable : String → ℤ → Bool}

theorem getLast?_restarts (idmaps : List IdMap) (idmap : IdMap) :
    (restarts (idmaps ++ [idmap])).getLast? = some (.reinit idmap) := by
  rw [restarts, List.flatMap_append]
  exact List.getLast?_append_of_ne_nil _ (List.cons_ne_nil _ _)

theorem restarts_ne_terminate (idmaps : List IdMap) :
    (restarts idmaps).getLast? ≠ some .terminate := by
  rcases List.eq_nil_or_concat idmaps with hnil | ⟨first, last, hlast⟩
  · rw [hnil]
    simp [restarts]
  · rw [hlast, List.concat_eq_append, getLast?_restarts]
    simp

theorem Network.waves_top :
    (net.waves top).answered top = (net.agents top).handled.length + net.phase.over.toNat :=
  if_pos rfl

theorem Linked.end (h : Linked forest top net) {ended : Bool} :
    { net with ended }.waves top = net.waves top ∧ Linked forest top { net with ended } :=
  ⟨rfl, fun tag => ⟨(h.each tag).tags, (h.each tag).rows, (h.each tag).own,
      (h.each tag).terminated⟩,
    ⟨h.front.reported, h.front.history, h.front.handler, h.front.reset, h.front.restarting⟩⟩

theorem Linked.rows_top (h : Linked forest top net) :
    ∀ ai ∈ net.table top, Row (net.agents top).handled (net.phase = .restarting)
      (net.agents ai.tag) ai := by
  intro ai hai
  have hrow := (h.each top).rows ai hai
  exact ⟨hrow.status, hrow.address,
    fun idmap hlast hback => hrow.reinit idmap hlast fun hboth => hback hboth.2, hrow.terminate⟩

/-- While a wave is over at the frontend, all its children have answered. -/
theorem Linked.full_top (hordered : (net.waves top).Ordered forest top)
    (hover : net.phase.over = true) : (net.waves top).Full forest top :=
  hordered.full (by rw [Network.waves_top, hover]; rfl)

/-- The frontend handles a report of a child. -/
theorem Linked.deliverTop (h : Linked forest top net)
    (hordered : (net.waves top).Ordered forest top) (htop : ∀ b, top ∉ forest.children b)
    (hchild : child ∈ forest.children top) {report : RestartReport}
    (hreport : report ∈ (net.agents child).reports.head?) :
    Waves.Step forest top (net.waves top) ((net.deliver top top child report).waves top) ∧
      Linked forest top (net.deliver top top child report) := by
  obtain ⟨hcurrent, hhandled, hlength, hsent⟩ := h.due hordered htop hchild hreport
  have hne : child ≠ top := Forest.ne_of_mem hchild
  have hopen : net.phase.over = false := by
    cases hover : net.phase.over with
    | false => rfl
    | true =>
      have hfull := Linked.full_top hordered hover child hchild
      change (net.agents child).reported.length = (net.agents top).handled.length + 1 at hfull
      omega
  have hrows := h.hear_rows hhandled hlength (hcurrent ▸ hreport)
  obtain ⟨rest, hrest⟩ : ∃ rest, (net.agents child).reports = report :: rest := by
    rw [Option.mem_def, List.head?_eq_some_iff] at hreport
    exact hreport
  have hhear : Waves.Step forest top (net.waves top)
      ((net.set child (net.agents child).report).waves top) :=
    Network.waves_hear top hrest ▸ .hear child (forest.children_mem hchild) hsent
  have hfront := h.hear_front hne
  obtain ⟨heard, hheard⟩ : ∃ heard, heard = net.set child (net.agents child).report := ⟨_, rfl⟩
  have hsame : heard.agents top = net.agents top := by
    rw [hheard, Network.set_other hne.symm]
  have hphase : heard.phase = net.phase := by rw [hheard]; rfl
  have hnodup : ((net.table top).map AgentInfo.tag).Nodup := h.tags top ▸ forest.nodup top
  -- the handler marks the sender, and forgets its properties at a heartbeat
  obtain ⟨childAgents, hdeliver, hview⟩ : ∃ childAgents : List AgentInfo,
      net.deliver top top child report = heard.setTable top childAgents ∧
        ∃ forget : AgentInfo → AgentInfo,
          (∀ ai, forget ai = { ai with propertiesSent := (forget ai).propertiesSent }) ∧
            childAgents = (markReport child report (net.table top)).map forget := by
    rw [Network.deliver, if_pos rfl, ← hheard]
    have htable : heard.table top = net.table top := congrArg AgentProcess.childAgents hsame
    cases report with
    | heartbeat hostname port tag =>
      have htag : tag = child := by
        unfold AgentProcess.current at hcurrent
        cases hlast : (net.agents child).handled.getLast? with
        | none =>
          rw [hlast] at hcurrent
          cases hcurrent
          rfl
        | some command =>
          rw [hlast] at hcurrent
          cases command <;> cases hcurrent
          rfl
      refine ⟨_, rfl, fun ai => if ai.tag = child then { ai with propertiesSent := false } else ai,
        fun ai => ?_, ?_⟩
      · dsimp only
        split <;> rfl
      · rw [htable, htag, onHeartbeat_eq hnodup, markReport, List.map_map]
        apply List.map_congr_left
        intro ai _
        by_cases heq : ai.tag = child
        · rw [if_pos heq, Function.comp_apply, if_pos heq,
            if_pos ((AgentInfo.onReport_tag _ ai).trans heq)]
          rfl
        · rw [if_neg heq, Function.comp_apply, if_neg heq, if_neg heq]
    | terminated tag =>
      have htag : tag = child := by
        unfold AgentProcess.current at hcurrent
        cases hlast : (net.agents child).handled.getLast? with
        | none =>
          rw [hlast] at hcurrent
          cases hcurrent
        | some command =>
          rw [hlast] at hcurrent
          cases command <;> cases hcurrent
          rfl
      refine ⟨_, rfl, id, fun ai => rfl, ?_⟩
      rw [htable, htag, onTerminated_eq, List.map_id]
      rfl
  obtain ⟨forget, hforget, hchildAgents⟩ := hview
  have htags : childAgents.map AgentInfo.tag = forest.children top := by
    rw [hchildAgents, List.map_map, ← h.tags top, ← markReport_tags child report]
    apply List.map_congr_left
    intro ai _
    rw [Function.comp_apply, hforget]
  rw [hdeliver]
  constructor
  · have hwaves := Network.waves_same top heard top { heard.agents top with childAgents }
      heard.phase heard.ended rfl rfl rfl rfl rfl
    rw [← hheard] at hhear
    exact hwaves ▸ hhear
  · refine linked_setTop (fun tag hother => hheard ▸ h.hear hchild hne hother) htop htags
      (fun ai hai => ?_) ⟨?_, ?_, ?_, ?_, ?_⟩
    · rw [hchildAgents] at hai
      obtain ⟨marked, hmarked, heq⟩ := List.mem_map.mp hai
      have hrow := hrows marked (hcurrent ▸ hmarked)
      rw [← hheard] at hrow
      rw [← heq, hforget, hsame, hphase]
      exact ⟨hrow.status, hrow.address,
        fun idmap hlast hback => hrow.reinit idmap hlast fun hboth => hback hboth.2,
        hrow.terminate⟩
    · rw [Network.set_same, hsame]
      exact h.front.reported
    · rw [Network.set_same, hsame]
      exact hphase ▸ h.front.history
    · intro hstarted ai hai
      rw [Network.table, Network.set_same, hchildAgents] at hai
      obtain ⟨marked, hmarked, heq⟩ := List.mem_map.mp hai
      obtain ⟨old, hold, hmark⟩ := List.mem_map.mp hmarked
      have hhandler := h.front.handler (hphase ▸ hstarted) old hold
      rw [← heq, hforget, ← hmark, ← hhandler]
      split
      · cases report with
        | heartbeat hostname port tag =>
          simp only [AgentInfo.onReport, AgentInfo.onHeartbeat]
          split <;> rfl
        | terminated tag => rfl
      · rfl
    · intro hreset ai hai
      -- only the marks of a termination can come in
      have hterminating : net.phase = .terminating := by
        rw [hphase] at hreset
        obtain hp | hp | hp := hreset
        · rw [hp] at hopen
          cases hopen
        · exact hp
        · rw [hp] at hopen
          cases hopen
      have hlast : (net.agents top).handled.getLast? = some .terminate := by
        have hhistory := h.front.history
        rw [hterminating] at hhistory
        generalize (net.agents top).handled = handled at hhistory ⊢
        cases hhistory
        exact List.getLast?_concat
      have hreport : report = .terminated child := by
        rw [hcurrent, AgentProcess.current, hhandled, hlast]
        rfl
      rw [Network.table, Network.set_same, hchildAgents] at hai
      obtain ⟨marked, hmarked, heq⟩ := List.mem_map.mp hai
      obtain ⟨old, hold, hmark⟩ := List.mem_map.mp hmarked
      have hinitial := h.front.reset (.inr (.inl hterminating)) old hold
      rw [← heq, hforget, ← hmark, ← hinitial, hreport]
      split <;> rfl
    · intro hrestarting
      rw [hphase] at hrestarting
      rw [hrestarting] at hopen
      cases hopen

theorem Linked.exists_row_top (h : Linked forest top net) {c : String}
    (hc : c ∈ forest.children top) :
    ∃ ai ∈ net.table top, ai.tag = c ∧
      Row (net.agents top).handled (net.phase = .restarting) (net.agents c) ai := by
  rw [← h.tags top] at hc
  obtain ⟨ai, hai, heq⟩ := List.mem_map.mp hc
  exact ⟨ai, hai, heq, heq ▸ h.rows_top ai hai⟩

/-- The frontend takes a wave as over: its children have answered. -/
theorem Linked.overTop (h : Linked forest top net) (htop : ∀ b, top ∉ forest.children b)
    (hnode : top ∈ forest.nodes) (phase : FrontendPhase) {childAgents : List AgentInfo}
    (hopen : net.phase.over = false) (hover : phase.over = true)
    (hfull : (net.waves top).Full forest top)
    (htags : childAgents.map AgentInfo.tag = forest.children top)
    (hrows : ∀ ai ∈ childAgents,
      Row (net.agents top).handled (phase = .restarting) (net.agents ai.tag) ai)
    (hfront : Front top { net.setTable top childAgents with phase }) :
    Waves.Step forest top (net.waves top)
        ({ net.setTable top childAgents with phase }.waves top) ∧
      Linked forest top { net.setTable top childAgents with phase } := by
  constructor
  · have hwaves := Network.waves_over net { net.agents top with childAgents } phase net.ended
      rfl rfl (by rw [hopen, hover]; rfl)
    refine hwaves ▸ .answer top hnode ?_ hfull
    rw [Network.waves_top, hopen]
    rfl
  · exact linked_setTop (fun tag _ => h.each tag) htop htags hrows hfront

theorem start_eq {agents childAgents : List AgentInfo}
    (h : Network.start reachable agents = some childAgents) :
    childAgents = agents.map fun ai =>
      if ai.status = .connected then ai
      else { ai with handler := true, propertiesSent := false } := by
  induction agents generalizing childAgents with
  | nil => cases h; rfl
  | cons ai rest ih =>
    simp only [Network.start, connectToChild_eq] at h
    rw [List.map_cons]
    by_cases hconnected : ai.status = .connected
    · rw [if_pos hconnected, Option.map_eq_some_iff] at h
      obtain ⟨others, hothers, heq⟩ := h
      rw [if_pos hconnected, ← ih hothers, ← heq]
    · rw [if_neg hconnected] at h
      by_cases hconnectable : ai.connectable reachable = true
      · rw [if_pos hconnectable] at h
        rw [Option.map_eq_some_iff] at h
        obtain ⟨others, hothers, heq⟩ := h
        rw [if_neg hconnected, ← ih hothers, ← heq]
      · rw [if_neg hconnectable] at h
        cases h

theorem start_some {agents : List AgentInfo}
    (h : ∀ ai ∈ agents, ai.connectable reachable = true) :
    Network.start reachable agents = some (agents.map fun ai =>
      if ai.status = .connected then ai
      else { ai with handler := true, propertiesSent := false }) := by
  induction agents with
  | nil => rfl
  | cons ai rest ih =>
    have hrest := ih fun other hother => h other (List.mem_cons_of_mem _ hother)
    simp only [Network.start, connectToChild_eq, hrest, h ai List.mem_cons_self, if_true,
      Option.map_some, List.map_cons]
    split <;> rfl

theorem Linked.startup (h : Linked forest top net)
    (hordered : (net.waves top).Ordered forest top) (htop : ∀ b, top ∉ forest.children b)
    (hnode : top ∈ forest.nodes) (hphase : net.phase = .starting) (late : Bool) :
    (Waves.Step forest top (net.waves top) ((net.handleStartup reachable top late).waves top) ∨
        (net.handleStartup reachable top late).waves top = net.waves top ∧
          (late = false → (∀ ai ∈ net.table top, ai.connectable reachable = true) →
            net.handleStartup reachable top late = net)) ∧
      Linked forest top (net.handleStartup reachable top late) := by
  have hhandled : (net.agents top).handled = [] := by
    have hhistory := h.front.history
    rw [hphase] at hhistory
    generalize (net.agents top).handled = handled at hhistory ⊢
    cases hhistory
    rfl
  unfold Network.handleStartup
  split
  · rename_i hall
    rw [List.all_eq_true] at hall
    split
    · rename_i hnone
      refine ⟨.inr ⟨rfl, fun _ hreach => ?_⟩, h.end.2⟩
      rw [start_some hreach] at hnone
      cases hnone
    · rename_i childAgents hstart
      have hfull : (net.waves top).Full forest top := by
        intro c hc
        obtain ⟨ai, hai, -, hrow⟩ := h.exists_row_top hc
        have hstarted := of_decide_eq_true (hall ai hai)
        have hreported : (net.agents c).reported ≠ [] := by
          intro hnil
          have hstatus := hrow.status
          rw [if_pos hnil, hstarted] at hstatus
          cases hstatus
        have hpositive := List.length_pos_of_ne_nil hreported
        have hle := hordered.heard_le htop hc
        change (net.agents c).reported.length ≤ (net.agents top).handled.length + 1 at hle
        show (net.agents c).reported.length = (net.agents top).handled.length + 1
        rw [hhandled] at hle ⊢
        exact Nat.le_antisymm hle hpositive
      have heq := start_eq hstart
      have hold : ∀ ai ∈ childAgents, ∃ old ∈ net.table top, ai =
          { old with handler := true, propertiesSent := false } := by
        intro ai hai
        rw [heq] at hai
        obtain ⟨old, hold, heq⟩ := List.mem_map.mp hai
        have hstarted := of_decide_eq_true (hall old hold)
        rw [if_neg (by rw [hstarted]; simp)] at heq
        exact ⟨old, hold, heq.symm⟩
      have htags : childAgents.map AgentInfo.tag = forest.children top := by
        rw [heq, ← h.tags top, List.map_map]
        apply List.map_congr_left
        intro ai _
        rw [Function.comp_apply]
        split <;> rfl
      have hrows : ∀ ai ∈ childAgents, Row (net.agents top).handled
          (FrontendPhase.searching = .restarting) (net.agents ai.tag) ai := by
        intro ai hai
        obtain ⟨old, hold, heq⟩ := hold ai hai
        have hrow := h.rows_top old hold
        rw [heq]
        exact ⟨hrow.status, hrow.address,
          fun idmap hlast _ => hrow.reinit idmap hlast (by rw [hphase]; simp), hrow.terminate⟩
      have hsame : (net.setTable top childAgents).agents top =
          { net.agents top with childAgents } := Network.set_same
      have hfront : Front top { net.setTable top childAgents with phase := .searching } := by
        refine ⟨?_, ?_, ?_, by simp, by simp⟩
        · rw [hsame]
          exact h.front.reported
        · rw [hsame]
          exact hhandled ▸ .searching []
        · intro _ ai hai
          rw [Network.table, hsame] at hai
          obtain ⟨old, -, heq⟩ := hold ai hai
          rw [heq]
      obtain ⟨hstep, hlinked⟩ := h.overTop htop hnode .searching (by rw [hphase]; rfl) rfl hfull
        htags hrows hfront
      exact ⟨.inl hstep, hlinked⟩
  · split
    · rename_i hlate
      refine ⟨.inr ⟨rfl, fun hcalm => ?_⟩, h.end.2⟩
      rw [hcalm] at hlate
      cases hlate
    · exact ⟨.inr ⟨rfl, fun _ _ => rfl⟩, h⟩

theorem Linked.termination (h : Linked forest top net)
    (htop : ∀ b, top ∉ forest.children b)
    (hnode : top ∈ forest.nodes) (hphase : net.phase = .terminating) (late : Bool)
    (registered : ℕ) :
    (Waves.Step forest top (net.waves top)
          ((net.handleTermination top late registered).waves top) ∨
        (net.handleTermination top late registered).waves top = net.waves top ∧
          (late = false → net.handleTermination top late registered = net)) ∧
      Linked forest top (net.handleTermination top late registered) := by
  obtain ⟨idmaps, hhandled⟩ : ∃ idmaps,
      (net.agents top).handled = restarts idmaps ++ [.terminate] := by
    have hhistory := h.front.history
    rw [hphase] at hhistory
    generalize (net.agents top).handled = handled at hhistory ⊢
    cases hhistory
    exact ⟨_, rfl⟩
  have hlast : (net.agents top).handled.getLast? = some .terminate := by
    rw [hhandled, List.getLast?_concat]
  unfold Network.handleTermination
  split
  · rename_i hall
    rw [List.all_eq_true] at hall
    split
    · have hfull : (net.waves top).Full forest top := by
        intro c hc
        obtain ⟨ai, hai, -, hrow⟩ := h.exists_row_top hc
        exact (hrow.terminate hlast).mp (hall ai hai)
      have hself : net.setTable top (net.table top) = net := Network.set_self
      have hfront : Front top { net.setTable top (net.table top) with phase := .terminated } := by
        rw [hself]
        refine ⟨h.front.reported, hhandled ▸ .terminated idmaps, ?_, ?_, fun h => (by cases h)⟩
        · exact fun _ => h.front.handler (by rw [hphase]; simp)
        · exact fun _ => h.front.reset (.inr (.inl hphase))
      have hrows : ∀ ai ∈ net.table top, Row (net.agents top).handled
          (FrontendPhase.terminated = .restarting) (net.agents ai.tag) ai := by
        intro ai hai
        have hrow := h.rows_top ai hai
        exact ⟨hrow.status, hrow.address,
          fun idmap hlast _ => hrow.reinit idmap hlast (by rw [hphase]; simp), hrow.terminate⟩
      have htags : (net.table top).map AgentInfo.tag = forest.children top := h.tags top
      obtain ⟨hstep, hlinked⟩ := h.overTop htop hnode .terminated (by rw [hphase]; rfl) rfl hfull
        htags hrows hfront
      rw [hself] at hstep hlinked
      exact ⟨.inl hstep, hlinked⟩
    · exact ⟨.inr ⟨rfl, fun _ => rfl⟩, h⟩
  · split
    · rename_i hlate
      refine ⟨.inr ⟨rfl, fun hcalm => ?_⟩, h.end.2⟩
      rw [hcalm] at hlate
      cases hlate
    · exact ⟨.inr ⟨rfl, fun _ => rfl⟩, h⟩

/-- What the start of an experiment changes is no part of a row. -/
theorem startexperiment_eq (ai : AgentInfo) :
    Network.startexperiment reachable ai =
      { ai with
        handler := ai.connectable reachable
        searchStatus := (Network.startexperiment reachable ai).searchStatus
        propertiesSent := (Network.startexperiment reachable ai).propertiesSent } := by
  unfold Network.startexperiment
  rw [connectToChild_eq]
  by_cases hconnectable : ai.connectable reachable = true
  · rw [if_pos hconnectable, hconnectable]
  · rw [if_neg hconnectable]
    have hhandler : ai.handler = false := by
      rw [AgentInfo.connectable, Bool.or_eq_true, not_or] at hconnectable
      exact Bool.not_eq_true _ ▸ hconnectable.1
    rw [Bool.not_eq_true] at hconnectable
    rw [hconnectable, ← hhandler]

theorem Linked.reinit (h : Linked forest top net) (htop : ∀ b, top ∉ forest.children b)
    (hnode : top ∈ forest.nodes) (hphase : net.phase = .reiniting) :
    (Waves.Step forest top (net.waves top) ((net.handleReinit reachable top).waves top) ∨
        net.handleReinit reachable top = net) ∧
      Linked forest top (net.handleReinit reachable top) := by
  obtain ⟨idmaps, idmap, hhandled⟩ : ∃ idmaps idmap,
      (net.agents top).handled = restarts (idmaps ++ [idmap]) := by
    have hhistory := h.front.history
    rw [hphase] at hhistory
    generalize (net.agents top).handled = handled at hhistory ⊢
    cases hhistory
    exact ⟨_, _, rfl⟩
  have hlast : (net.agents top).handled.getLast? = some (.reinit idmap) := by
    rw [hhandled, getLast?_restarts]
  have hback : ¬net.phase = .restarting := by
    rw [hphase]
    simp
  unfold Network.handleReinit
  split
  · rename_i hall
    rw [List.all_eq_true] at hall
    have hfull : (net.waves top).Full forest top := by
      intro c hc
      obtain ⟨ai, hai, -, hrow⟩ := h.exists_row_top hc
      exact (hrow.reinit idmap hlast hback).mp (of_decide_eq_true (hall ai hai))
    have htags : ((net.table top).map (Network.startexperiment reachable)).map AgentInfo.tag =
        forest.children top := by
      rw [← h.tags top, List.map_map]
      apply List.map_congr_left
      intro ai _
      rw [Function.comp_apply, startexperiment_eq]
    have hrows : ∀ ai ∈ (net.table top).map (Network.startexperiment reachable),
        Row (net.agents top).handled (FrontendPhase.searching = .restarting)
          (net.agents ai.tag) ai := by
      intro ai hai
      obtain ⟨old, hold, heq⟩ := List.mem_map.mp hai
      have hrow := h.rows_top old hold
      rw [← heq, startexperiment_eq]
      exact ⟨hrow.status, hrow.address, fun idmap hlast _ => hrow.reinit idmap hlast hback,
        hrow.terminate⟩
    have hsame : (net.setTable top ((net.table top).map
        (Network.startexperiment reachable))).agents top = { net.agents top with
          childAgents := (net.table top).map (Network.startexperiment reachable) } :=
      Network.set_same
    have hfront : Front top { net.setTable top ((net.table top).map
        (Network.startexperiment reachable)) with phase := .searching } := by
      refine ⟨?_, ?_, ?_, by simp, by simp⟩
      · rw [hsame]
        exact h.front.reported
      · rw [hsame]
        exact hhandled ▸ .searching (idmaps ++ [idmap])
      · intro _ ai hai
        rw [Network.table, hsame] at hai
        obtain ⟨old, hold, heq⟩ := List.mem_map.mp hai
        have hhandler := h.front.handler (by rw [hphase]; simp) old hold
        rw [← heq, startexperiment_eq, AgentInfo.connectable, hhandler]
        rfl
    obtain ⟨hstep, hlinked⟩ := h.overTop htop hnode .searching (by rw [hphase]; rfl) rfl hfull
      htags hrows hfront
    exact ⟨.inl hstep, hlinked⟩
  · exact ⟨.inr rfl, h⟩

/-- What the loop that has the application terminated leaves in the table. -/
theorem terminateChildren_eq (reachable : String → ℤ → Bool) (agents : List AgentInfo) :
    (Network.terminateChildren reachable agents).1.map AgentInfo.tag =
        agents.map AgentInfo.tag ∧
      (∀ tag ∈ (Network.terminateChildren reachable agents).2.1,
        tag ∈ agents.map AgentInfo.tag) ∧
      ∀ ai ∈ (Network.terminateChildren reachable agents).1, ∃ old ∈ agents,
        ∃ handler applTerminated, ai = { old with handler, applTerminated } ∧
          (old.handler = true → handler = true) ∧
            (old.applTerminated = false → applTerminated = false) := by
  induction agents with
  | nil => exact ⟨rfl, fun _ h => h, fun _ h => absurd h List.not_mem_nil⟩
  | cons ai rest ih =>
    obtain ⟨htags, htold, hold⟩ := ih
    simp only [Network.terminateChildren]
    cases hconnect : (if ai.status = .connected then some ai else connectToChild reachable ai) with
    | none =>
      refine ⟨rfl, fun _ h => absurd h List.not_mem_nil, fun other hother => ?_⟩
      exact ⟨other, hother, _, _, rfl, id, id⟩
    | some next =>
      have hnext : ∃ handler, next = { ai with handler } ∧ (ai.handler = true → handler = true) := by
        split at hconnect
        · cases hconnect
          exact ⟨_, rfl, id⟩
        · rw [connectToChild_eq] at hconnect
          split at hconnect
          · cases hconnect
            exact ⟨true, rfl, fun _ => rfl⟩
          · cases hconnect
      obtain ⟨handler, hnext, hhandler⟩ := hnext
      refine ⟨?_, ?_, ?_⟩
      · rw [List.map_cons, List.map_cons, htags, hnext]
      · intro tag htag
        rw [List.map_cons]
        cases List.mem_cons.mp htag with
        | inl heq => exact List.mem_cons.mpr (.inl (heq.trans (by rw [hnext])))
        | inr hmem => exact List.mem_cons_of_mem _ (htold tag hmem)
      · intro other hother
        cases List.mem_cons.mp hother with
        | inl heq =>
          exact ⟨ai, List.mem_cons_self, handler, false, by rw [heq, hnext], hhandler, fun _ => rfl⟩
        | inr hmem =>
          obtain ⟨old, hmem, hold⟩ := hold other hmem
          exact ⟨old, List.mem_cons_of_mem _ hmem, hold⟩

/-- The frontend gives a command: it starts a wave. -/
theorem Linked.startTop (h : Linked forest top net) (htop : ∀ b, top ∉ forest.children b)
    (phase : FrontendPhase) (ended : Bool) {command : RestartCommand}
    {childAgents : List AgentInfo} {tags : List String}
    (hover : net.phase.over = true) (hopen : phase.over = false)
    (htags : childAgents.map AgentInfo.tag = forest.children top)
    (htold : ∀ c ∈ tags, c ∈ forest.children top)
    (hrows : ∀ ai ∈ childAgents, Row ((net.agents top).handled ++ [command]) False
      (net.agents ai.tag) ai)
    (hfront : Front top
      { net.set top { net.give top command with childAgents } with phase, ended }) :
    Waves.Step forest top (net.waves top)
        ({ (net.set top { net.give top command with childAgents }).tell tags command with
          phase, ended }.waves top) ∧
      Linked forest top
        { (net.set top { net.give top command with childAgents }).tell tags command with
          phase, ended } := by
  constructor
  · have hwaves := Network.waves_pass top net top { net.give top command with childAgents } tags
      command phase ended (fun hmem => htop top (htold top hmem))
      (fun hmem => htop top (htold top hmem)) rfl (fun hne => absurd rfl hne)
      (fun hne => absurd rfl hne) (fun _ => by rw [hover, hopen]; rfl) rfl
    refine hwaves ▸ .start command tags htold ?_
    rw [Network.waves_top, hover]
    rfl
  · have hrows' : ∀ ai ∈ childAgents, Row ((net.agents top).handled ++ [command])
        (phase = .restarting) (net.agents ai.tag) ai := by
      intro ai hai
      have hrow := hrows ai hai
      exact ⟨hrow.status, hrow.address, fun idmap hlast _ => hrow.reinit idmap hlast not_false,
        hrow.terminate⟩
    exact (linked_setTop (fun tag _ => h.each tag) htop htags hrows' hfront).tell

theorem Linked.terminate (h : Linked forest top net)
    (hordered : (net.waves top).Ordered forest top) (htop : ∀ b, top ∉ forest.children b)
    (hphase : net.phase = .restarting) :
    Waves.Step forest top (net.waves top) ((net.terminate reachable top).waves top) ∧
      Linked forest top (net.terminate reachable top) := by
  obtain ⟨idmaps, hhandled⟩ : ∃ idmaps, (net.agents top).handled = restarts idmaps := by
    have hhistory := h.front.history
    rw [hphase] at hhistory
    generalize (net.agents top).handled = handled at hhistory ⊢
    cases hhistory
    exact ⟨_, rfl⟩
  have hfull := Linked.full_top hordered (by rw [hphase]; rfl)
  obtain ⟨htags, htold, hold⟩ := terminateChildren_eq reachable (net.table top)
  have hsame : ∀ {childAgents}, (net.set top { net.give top .terminate with
      childAgents }).agents top = { net.give top .terminate with childAgents } :=
    Network.set_same
  refine h.startTop htop .terminating _ (by rw [hphase]; rfl) rfl
    (htags.trans (h.tags top)) (fun c hc => h.tags top ▸ htold c hc) (fun ai hai => ?_)
    ⟨?_, ?_, ?_, ?_, fun h => (by cases h)⟩
  · obtain ⟨old, hmem, handler, applTerminated, heq, -, hmark⟩ := hold ai hai
    have hrow := h.rows_top old hmem
    have hfalse := hmark (h.front.restarting hphase old hmem)
    have hheard := hfull old.tag (h.tags top ▸ List.mem_map_of_mem hmem)
    change _ = (net.agents top).handled.length + 1 at hheard
    rw [heq]
    refine ⟨hrow.status, hrow.address, fun idmap hlast => ?_, fun _ => ?_⟩
    · rw [List.getLast?_concat] at hlast
      cases hlast
    · change (net.agents old.tag).reported.length = _ at hheard
      rw [hfalse, List.length_append, hheard]
      simp
  · rw [hsame]
    exact h.front.reported
  · rw [hsame]
    show History .terminating ((net.agents top).handled ++ [.terminate])
    rw [hhandled]
    exact .terminating idmaps
  · intro _ ai hai
    rw [Network.table, hsame] at hai
    obtain ⟨old, hmem, handler, applTerminated, heq, hhandler, -⟩ := hold ai hai
    rw [heq]
    exact hhandler (h.front.handler (by rw [hphase]; simp) old hmem)
  · intro _ ai hai
    rw [Network.table, hsame] at hai
    obtain ⟨old, hmem, handler, applTerminated, heq, -, -⟩ := hold ai hai
    rw [heq]
    exact h.front.reset (.inl hphase) old hmem

theorem Linked.rerun (h : Linked forest top net)
    (hordered : (net.waves top).Ordered forest top) (htop : ∀ b, top ∉ forest.children b)
    (hphase : net.phase = .terminated) (idmap : IdMap) :
    Waves.Step forest top (net.waves top)
        ((net.rerunApplication reachable top idmap).waves top) ∧
      Linked forest top (net.rerunApplication reachable top idmap) := by
  obtain ⟨idmaps, hhandled⟩ : ∃ idmaps,
      (net.agents top).handled = restarts idmaps ++ [.terminate] := by
    have hhistory := h.front.history
    rw [hphase] at hhistory
    generalize (net.agents top).handled = handled at hhistory ⊢
    cases hhistory
    exact ⟨_, rfl⟩
  have hfull := Linked.full_top hordered (by rw [hphase]; rfl)
  obtain ⟨htags, htold⟩ := forChildren_tags reachable (h.tags top)
  have hsame : ∀ {childAgents}, (net.set top { net.give top (.reinit idmap) with
      childAgents }).agents top = { net.give top (.reinit idmap) with childAgents } :=
    Network.set_same
  have hhandler : ∀ ai ∈ (forChildren reachable id id (net.table top)).1, ai.handler = true := by
    intro ai hai
    rw [forChildren_agents] at hai
    obtain ⟨old, hold, heq⟩ := List.mem_map.mp hai
    rw [← heq]
    split
    · rfl
    · exact h.front.handler (by rw [hphase]; simp) old hold
  refine h.startTop htop .reiniting _ (by rw [hphase]; rfl) rfl htags htold
    (fun ai hai => ?_) ⟨?_, ?_, ?_, by simp, by simp⟩
  · obtain ⟨old, hmem, heq⟩ := forChildren_id hai
    have hrow := h.rows_top old hmem
    have hinitial := h.front.reset (.inr (.inr hphase)) old hmem
    have hheard := hfull old.tag (h.tags top ▸ List.mem_map_of_mem hmem)
    change (net.agents old.tag).reported.length = (net.agents top).handled.length + 1 at hheard
    rw [heq]
    refine ⟨hrow.status, hrow.address, fun idmap hlast _ => ?_, fun hlast => ?_⟩
    · rw [List.length_append, hheard, hinitial]
      simp
    · rw [List.getLast?_concat] at hlast
      cases hlast
  · rw [hsame]
    exact h.front.reported
  · rw [hsame]
    show History .reiniting ((net.agents top).handled ++ [.reinit idmap])
    have hnext : restarts idmaps ++ [.terminate] ++ [.reinit idmap] =
        restarts (idmaps ++ [idmap]) := by
      rw [restarts, restarts, List.flatMap_append, List.append_assoc]
      rfl
    rw [hhandled, hnext]
    exact .reiniting idmaps idmap
  · intro _ ai hai
    rw [Network.table, hsame] at hai
    exact hhandler ai hai

/-- The decision to restart takes the marks of the last start back. -/
theorem Linked.restart (h : Linked forest top net) (htop : ∀ b, top ∉ forest.children b)
    (hphase : net.phase = .searching) :
    (net.restart reachable top).waves top = net.waves top ∧
      Linked forest top (net.restart reachable top) := by
  obtain ⟨idmaps, hhandled⟩ : ∃ idmaps, (net.agents top).handled = restarts idmaps := by
    have hhistory := h.front.history
    rw [hphase] at hhistory
    generalize (net.agents top).handled = handled at hhistory ⊢
    cases hhistory
    exact ⟨_, rfl⟩
  have hstatus : ∀ old ∈ net.table top, old.served reachable = true := by
    intro old hold
    have hstatus := (h.rows_top old hold).status
    rw [AgentInfo.served, AgentInfo.connectable, h.front.handler (by rw [hphase]; simp) old hold,
      Bool.true_or, Bool.and_true, decide_eq_true_eq, hstatus]
    split <;> simp
  unfold Network.restart
  generalize hloop : forChildren reachable (fun ai : AgentInfo => { ai with
    applTerminated := false, searchStatus := .undefined, statusReinit := .initial }) id
    (net.table top) = loop
  obtain ⟨childAgents, stops⟩ := loop
  have hchildAgents : childAgents = (net.table top).map fun ai => { ai with
      handler := true, applTerminated := false, searchStatus := .undefined
      statusReinit := .initial } := by
    have hagents := congrArg Prod.fst hloop
    rw [forChildren_agents] at hagents
    refine hagents.symm.trans (List.map_congr_left fun old hold => ?_)
    rw [if_pos (hstatus old hold)]
  have htags : childAgents.map AgentInfo.tag = forest.children top := by
    rw [hchildAgents, ← h.tags top, List.map_map]
    rfl
  dsimp only
  split
  · exact ⟨rfl, h⟩
  · have hsame : (net.setTable top childAgents).agents top =
        { net.agents top with childAgents } := Network.set_same
    constructor
    · exact Network.waves_same top net top { net.agents top with childAgents } .restarting net.ended
        rfl rfl rfl rfl (by rw [hphase]; rfl)
    · refine linked_setTop (fun tag _ => h.each tag) htop htags (fun ai hai => ?_)
        ⟨?_, ?_, ?_, ?_, ?_⟩
      · rw [hchildAgents] at hai
        obtain ⟨old, hold, heq⟩ := List.mem_map.mp hai
        have hrow := h.rows_top old hold
        rw [← heq]
        refine ⟨hrow.status, hrow.address, fun idmap _ hback => absurd rfl hback, fun hlast => ?_⟩
        change (net.agents top).handled.getLast? = _ at hlast
        rw [hhandled] at hlast
        exact absurd hlast (restarts_ne_terminate idmaps)
      · show ((net.setTable top childAgents).agents top).reported = []
        rw [hsame]
        exact h.front.reported
      · show History .restarting ((net.setTable top childAgents).agents top).handled
        rw [hsame]
        exact hhandled ▸ .restarting idmaps
      · intro _ ai hai
        change ai ∈ ((net.setTable top childAgents).agents top).childAgents at hai
        rw [hsame, hchildAgents] at hai
        obtain ⟨old, -, heq⟩ := List.mem_map.mp hai
        rw [← heq]
      · intro _ ai hai
        change ai ∈ ((net.setTable top childAgents).agents top).childAgents at hai
        rw [hsame, hchildAgents] at hai
        obtain ⟨old, -, heq⟩ := List.mem_map.mp hai
        rw [← heq]
      · intro _ ai hai
        change ai ∈ ((net.setTable top childAgents).agents top).childAgents at hai
        rw [hsame, hchildAgents] at hai
        obtain ⟨old, -, heq⟩ := List.mem_map.mp hai
        rw [← heq]

end Frontends

end ReadexPtf.Agents
