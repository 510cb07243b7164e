import ReadexPtf.Agents.StartupFrontend

/-! Runs of the network: what holds whenever the frontend searches, and between any two agents. -/
namespace ReadexPtf.Agents
open ReadexPtf

section Runs
variable {forest : Forest String} {top : String} {net next : Network}

theorem Network.alive_of_ne {tag : String} (hne : tag ≠ top) (h : net.alive top tag = true) :
    (net.agents tag).running = true ∧ (net.agents tag).stopped = false := by
  rw [Network.alive, if_neg hne, Bool.and_eq_true, Bool.not_eq_true'] at h
  exact h

/-- Every step of the network is a run of waves. -/
theorem Network.Step.waves {reachable : String → ℤ → Bool} {late : Bool}
    (hstep : Network.Step reachable forest top late net next) (h : Linked forest top net)
    (hordered : (net.waves top).Ordered forest top) (hroot : forest.Root top) :
    Relation.ReflTransGen (Waves.Step forest top) (net.waves top) (next.waves top) ∧
      Linked forest top next := by
  obtain ⟨hnode, htop⟩ := hroot
  cases hstep with
  | runAnalysisAgent tag htag hne hleaf hidle =>
    exact (h.runAnalysisAgent htag hne hleaf hidle).imp_left .single
  | runHighLevelAgent tag htag hne hinner hidle =>
    obtain ⟨hwaves, hlinked⟩ := h.runHighLevelAgent hne hinner hidle
    exact ⟨hwaves ▸ .refl, hlinked⟩
  | command parent tag command htag hleaf halive hcommand =>
    have hne : tag ≠ top := fun heq => htop parent (heq ▸ htag)
    exact (h.command htop htag hleaf (Network.alive_of_ne hne halive).1 hcommand).imp_left
      Relation.TransGen.to_reflTransGen
  | forward parent tag command htag hinner halive hcommand =>
    have hne : tag ≠ top := fun heq => htop parent (heq ▸ htag)
    exact (h.forward hordered htop htag hinner (Network.alive_of_ne hne halive).1
      hcommand).imp_left .single
  | deliver parent child report hparent hchild halive hreport =>
    by_cases heq : parent = top
    · subst heq
      exact (h.deliverTop hordered htop hchild hreport).imp_left .single
    · exact (h.deliver hordered htop hparent heq hchild (Network.alive_of_ne heq halive).1
        hreport).imp_left Relation.TransGen.to_reflTransGen
  | timeout tag htag hne hinner halive =>
    exact (h.timeout hordered htop htag hne hinner (Network.alive_of_ne hne halive).1
      late).imp_left fun hstep => hstep.elim .single fun hsame => hsame.1 ▸ .refl
  | startup halive hphase =>
    exact (h.startup hordered htop hnode hphase late).imp_left fun hstep =>
      hstep.elim .single fun hsame => hsame.1 ▸ .refl
  | terminate halive hphase => exact (h.terminate hordered htop hphase).imp_left .single
  | termination registered halive hphase =>
    exact (h.termination htop hnode hphase late registered).imp_left fun hstep =>
      hstep.elim .single fun hsame => hsame.1 ▸ .refl
  | rerun idmap halive hphase => exact (h.rerun hordered htop hphase idmap).imp_left .single
  | reinit halive hphase =>
    exact (h.reinit htop hnode hphase).imp_left fun hstep =>
      hstep.elim .single fun hsame => by rw [hsame]

theorem Network.Initial.linked (h : net.Initial forest top) :
    net.waves top = Waves.opened ∧ Linked forest top net := by
  have hsent : ∀ tag, (net.agents tag).sent = [] := by
    intro tag
    rw [AgentProcess.sent, h.reported, h.reports]
    rfl
  constructor
  · apply Waves.ext <;> funext tag <;> simp only [Network.waves, Waves.opened]
    · exact h.handled tag
    · rw [h.handled, h.commands]
      exact ite_self _
    · rw [h.handled, hsent, h.phase]
      exact ite_self _
    · rw [h.reported]
      rfl
  · refine ⟨fun tag => ⟨h.tags tag, fun ai hai => ?_, fun hne => ?_, fun _ _ hlast => ?_⟩, ?_⟩
    · refine ⟨?_, fun hne => absurd (h.reported ai.tag) hne, fun idmap hlast => ?_,
        fun hlast => ?_⟩
      · rw [if_pos (h.reported ai.tag)]
        exact h.status tag ai hai
      · rw [h.handled] at hlast
        cases hlast
      · rw [h.handled] at hlast
        cases hlast
    · have hidle := h.running tag hne
      refine ⟨?_, fun _ => ⟨h.handled tag, hsent tag, h.timerAction tag⟩, fun _ hrun => ?_,
        fun htimer => ?_, fun htimer => ?_, fun _ hrun => ?_⟩
      · rw [hsent]
        exact List.nil_prefix
      · exact absurd (hidle.symm.trans hrun) (by simp)
      · exact absurd ((h.timerAction tag).symm.trans htimer) (by simp)
      · exact absurd ((h.timerAction tag).symm.trans htimer) (by simp)
      · exact absurd (hidle.symm.trans hrun) (by simp)
    · rw [h.handled] at hlast
      cases hlast
    · refine ⟨h.reported top, ?_, fun hstarted => absurd h.phase hstarted, ?_, ?_⟩
      · rw [h.phase, h.handled]
        exact .starting
      · rw [h.phase]
        simp
      · rw [h.phase]
        simp

/-- In every reachable state the waves are ordered, and every agent and table goes with them. -/
theorem Network.Reachable.linked (hroot : forest.Root top) (h : net.Reachable forest top) :
    (net.waves top).Ordered forest top ∧ Linked forest top net := by
  induction h with
  | initial h =>
    obtain ⟨hwaves, hlinked⟩ := h.linked
    exact ⟨hwaves ▸ Waves.ordered_opened, hlinked⟩
  | event reachable late h hevent ih =>
    obtain ⟨hordered, hlinked⟩ := ih
    cases hevent with
    | step hstep =>
      obtain ⟨hrun, hlinked⟩ := hstep.waves hlinked hordered hroot
      exact ⟨Waves.Ordered.run hordered hroot.2 hrun, hlinked⟩
    | restart halive hphase =>
      obtain ⟨hwaves, hlinked⟩ := hlinked.restart hroot.2 hphase
      exact ⟨hwaves ▸ hordered, hlinked⟩

end Runs

section Counts

/-- How often the agent was told that the application is terminated. -/
def AgentProcess.terminations (agent : AgentProcess) : ℕ :=
  agent.handled.countP (· = .terminate)

/-- How often the agent was attached to new processes. -/
def AgentProcess.reinits (agent : AgentProcess) : ℕ :=
  agent.handled.countP (· ≠ .terminate)

theorem countP_restarts (idmaps : List IdMap) :
    (restarts idmaps).countP (· = .terminate) = idmaps.length ∧
      (restarts idmaps).countP (· ≠ .terminate) = idmaps.length := by
  induction idmaps with
  | nil => exact ⟨rfl, rfl⟩
  | cons idmap rest ih =>
    have hcons : restarts (idmap :: rest) = .terminate :: .reinit idmap :: restarts rest := rfl
    constructor
    · rw [hcons, List.countP_cons_of_pos (by simp), List.countP_cons_of_neg (by simp), ih.1,
        List.length_cons]
    · rw [hcons, List.countP_cons_of_neg (by simp), List.countP_cons_of_pos (by simp), ih.2,
        List.length_cons]

/-- A prefix that lacks at most one command. -/
theorem prefix_cases {all first : List RestartCommand} (hpart : first <+: all)
    (hlength : all.length ≤ first.length + 1) :
    first = all ∨ ∃ command, all.getLast? = some command ∧ all = first ++ [command] := by
  obtain ⟨rest, hrest⟩ := hpart
  rw [← hrest, List.length_append] at hlength
  cases rest with
  | nil => exact .inl ((List.append_nil first).symm.trans hrest)
  | cons command later =>
    cases later with
    | nil =>
      refine .inr ⟨command, ?_, hrest.symm⟩
      rw [← hrest, List.getLast?_concat]
    | cons other others =>
      rw [List.length_cons, List.length_cons] at hlength
      omega

/-- What two agents have handled that are at most one command behind the frontend. -/
theorem History.in_step {phase : FrontendPhase} {all : List RestartCommand}
    (h : History phase all) {a b : AgentProcess} (ha : a.handled <+: all)
    (halength : all.length ≤ a.handled.length + 1) (hb : b.handled <+: all)
    (hblength : all.length ≤ b.handled.length + 1) :
    a.reinits ≤ b.terminations ∧ b.terminations ≤ a.reinits + 1 := by
  -- the last command of the frontend is the only one that an agent may lack
  have hover : ∀ idmaps, all = restarts idmaps →
      a.reinits ≤ b.terminations ∧ b.terminations ≤ a.reinits + 1 := by
    intro idmaps hall
    have hcounts := countP_restarts idmaps
    rw [← hall] at hcounts
    have hlast : all.getLast? ≠ some .terminate := hall ▸ restarts_ne_terminate idmaps
    have hterminations : b.terminations = idmaps.length := by
      cases prefix_cases hb hblength with
      | inl heq => rw [AgentProcess.terminations, heq, hcounts.1]
      | inr hlacks =>
        obtain ⟨command, hcommand, heq⟩ := hlacks
        have hne : command ≠ .terminate := fun h => hlast (h ▸ hcommand)
        have hcount := hcounts.1
        rw [heq, List.countP_append, List.countP_singleton, if_neg (by simpa using hne)] at hcount
        exact hcount
    have hreinits : a.reinits = idmaps.length ∨ a.reinits + 1 = idmaps.length := by
      cases prefix_cases ha halength with
      | inl heq => exact .inl (by rw [AgentProcess.reinits, heq, hcounts.2])
      | inr hlacks =>
        obtain ⟨command, hcommand, heq⟩ := hlacks
        have hne : command ≠ .terminate := fun h => hlast (h ▸ hcommand)
        have hcount := hcounts.2
        rw [heq, List.countP_append, List.countP_singleton, if_pos (by simpa using hne)] at hcount
        exact .inr hcount
    omega
  have hwaits : ∀ idmaps, all = restarts idmaps ++ [.terminate] →
      a.reinits ≤ b.terminations ∧ b.terminations ≤ a.reinits + 1 := by
    intro idmaps hall
    have hcounts := countP_restarts idmaps
    have hlast : ∀ {first command}, all.getLast? = some command → all = first ++ [command] →
        first = restarts idmaps := by
      intro first command hcommand heq
      rw [hall, List.getLast?_concat, Option.some.injEq] at hcommand
      rw [← hcommand, hall] at heq
      exact (List.append_cancel_right heq).symm
    have hreinits : a.reinits = idmaps.length := by
      cases prefix_cases ha halength with
      | inl heq => rw [AgentProcess.reinits, heq, hall, List.countP_append, hcounts.2]; rfl
      | inr hlacks =>
        obtain ⟨command, hcommand, heq⟩ := hlacks
        rw [AgentProcess.reinits, hlast hcommand heq, hcounts.2]
    have hterminations : b.terminations = idmaps.length ∨
        b.terminations = idmaps.length + 1 := by
      cases prefix_cases hb hblength with
      | inl heq =>
        right
        rw [AgentProcess.terminations, heq, hall, List.countP_append, hcounts.1]
        rfl
      | inr hlacks =>
        obtain ⟨command, hcommand, heq⟩ := hlacks
        exact .inl (by rw [AgentProcess.terminations, hlast hcommand heq, hcounts.1])
    omega
  cases h with
  | starting => exact hover [] rfl
  | searching idmaps => exact hover idmaps rfl
  | restarting idmaps => exact hover idmaps rfl
  | terminating idmaps => exact hwaits idmaps rfl
  | terminated idmaps => exact hwaits idmaps rfl
  | reiniting idmaps idmap => exact hover (idmaps ++ [idmap]) rfl

end Counts

section Safety
variable {forest : Forest String} {top : String} {net : Network}

/-- The frontend with a high-level agent that has one analysis agent. -/
def chainForest : Forest String where
  nodes := {"fe", "h", "a"}
  children tag := if tag = "fe" then ["h"] else if tag = "h" then ["a"] else []
  children_mem {parent child} h := by
    split at h
    · simp [List.mem_singleton.mp h]
    · split at h
      · simp [List.mem_singleton.mp h]
      · cases h
  nodup tag := by
    split
    · exact List.nodup_singleton _
    · split
      · exact List.nodup_singleton _
      · exact .nil
  parent_unique {a b c} h h' := by
    split at h <;> split at h' <;> simp_all
  height tag := if tag = "fe" then 2 else if tag = "h" then 1 else 0
  height_lt {a c} h := by
    split at h
    · rename_i ha
      rw [List.mem_singleton.mp h, ha]
      decide
    · split at h
      · rename_i ha
        rw [List.mem_singleton.mp h, ha]
        decide
      · cases h

theorem chainForest_root : chainForest.Root "fe" := by
  refine ⟨by decide, fun tag h => ?_⟩
  rw [chainForest] at h
  dsimp only at h
  split at h
  · exact absurd (List.mem_singleton.mp h) (by decide)
  · split at h
    · exact absurd (List.mem_singleton.mp h) (by decide)
    · cases h

theorem chainForest_below : ∀ tag ∈ chainForest.nodes, chainForest.Below "fe" tag := by
  have hfirst : chainForest.Below "fe" "h" :=
    .single (by show "h" ∈ chainForest.children "fe"; decide)
  intro tag htag
  have hcases : tag = "fe" ∨ tag = "h" ∨ tag = "a" := by
    simpa only [chainForest, Finset.mem_insert, Finset.mem_singleton] using htag
  obtain rfl | rfl | rfl := hcases
  · exact .refl
  · exact hfirst
  · exact .tail hfirst (by show "a" ∈ chainForest.children "h"; decide)

/-- The entry that `add_child_agent` makes for a child that has sent nothing. -/
def AgentInfo.added (tag : String) : AgentInfo :=
  ⟨tag, "none", -1, .initial, .initial, false, false, .undefined, false, false⟩

def chainStart : Network :=
  ⟨fun tag => ⟨"host", 51000, false, false, none, (chainForest.children tag).map AgentInfo.added,
    [], [], [], []⟩, .starting, false⟩

/-- The heartbeats have come up, and the search is begun. -/
def chainSearching : Network :=
  let running := chainStart.set "a" ((chainStart.agents "a").runAnalysisAgent "a")
  let running := running.set "h" (running.agents "h").runHighLevelAgent
  let heard := running.deliver "fe" "h" "a" (.heartbeat "host" 51000 "a")
  let beaten := heard.set "h" ((heard.agents "h").handleTimeout false "h")
  let known := beaten.deliver "fe" "fe" "h" (.heartbeat "host" 51000 "h")
  known.handleStartup (fun _ _ => true) "fe" false

/-- The high-level agent has passed on that the application is to be terminated. -/
def chainTerminating : Network :=
  let restarting := chainSearching.restart (fun _ _ => true) "fe"
  let given := restarting.terminate (fun _ _ => true) "fe"
  given.forward (fun _ _ => true) "h" .terminate

theorem chainStart_initial : chainStart.Initial chainForest "fe" := by
  refine ⟨fun tag => ?_, fun tag ai hai => ?_, fun _ _ => rfl, fun _ => rfl, fun _ => rfl,
    fun _ => rfl, fun _ => rfl, fun _ => rfl, rfl⟩
  · rw [chainStart, List.map_map]
    exact List.map_id _
  · obtain ⟨child, -, rfl⟩ := List.mem_map.mp hai
    rfl

theorem chainSearching_reachable : chainSearching.Reachable chainForest "fe" := by
  have hinner : ¬chainForest.Leaf "h" := fun h => by cases h
  refine .event (fun _ _ => true) false (.event (fun _ _ => true) false
    (.event (fun _ _ => true) false (.event (fun _ _ => true) false
    (.event (fun _ _ => true) false (.event (fun _ _ => true) false
    (.initial chainStart_initial)
    (.step (.runAnalysisAgent "a" (by decide) (by decide) rfl rfl)))
    (.step (.runHighLevelAgent "h" (by decide) (by decide) hinner rfl)))
    (.step (.deliver "h" "a" _ (by decide) (by decide) rfl rfl)))
    (.step (.timeout "h" (by decide) (by decide) hinner rfl)))
    (.step (.deliver "fe" "h" _ (by decide) (by decide) rfl rfl)))
    (.step (.startup rfl rfl))

theorem chainTerminating_reachable : chainTerminating.Reachable chainForest "fe" := by
  have hinner : ¬chainForest.Leaf "h" := fun h => by cases h
  exact .event (fun _ _ => true) false (.event (fun _ _ => true) false
    (.event (fun _ _ => true) false chainSearching_reachable
    (.restart rfl rfl))
    (.step (.terminate rfl rfl)))
    (.step (.forward "fe" "h" .terminate (by decide) hinner rfl rfl))

/-- Whenever the frontend searches, each agent under it has handled the commands of all
restarts, with the same ids, and has sent one report for each command and one for its start.
Nothing is on its way, and every parent knows where its children are. -/
theorem Network.searching_settled (hroot : forest.Root top) (h : net.Reachable forest top)
    (hphase : net.phase = .searching) :
    (∃ idmaps, (net.agents top).handled = restarts idmaps ∧
      ∀ tag, forest.Below top tag → tag ≠ top →
        (net.agents tag).handled = restarts idmaps ∧ (net.agents tag).commands = [] ∧
          (net.agents tag).reported = (net.agents tag).answers tag ∧
            (net.agents tag).reports = []) ∧
    ∀ parent, forest.Below top parent → ∀ child ∈ forest.children parent,
      ∃ ai ∈ (net.agents parent).childAgents, ai.tag = child ∧ ai.status = .started ∧
        ai.hostname = (net.agents child).hostname ∧ ai.port = (net.agents child).port := by
  obtain ⟨hordered, hlinked⟩ := h.linked hroot
  have hfull := Linked.full_top hordered (by rw [hphase]; rfl)
  have hsettled := fun tag (hbelow : forest.Below top tag) (hne : tag ≠ top) =>
    hordered.settled hroot.2 hfull hbelow hne
  constructor
  · have hhistory := hlinked.front.history
    rw [hphase] at hhistory
    obtain ⟨idmaps, hhandled⟩ : ∃ idmaps, (net.agents top).handled = restarts idmaps := by
      generalize (net.agents top).handled = handled at hhistory ⊢
      cases hhistory
      exact ⟨_, rfl⟩
    refine ⟨idmaps, hhandled, fun tag hbelow hne => ?_⟩
    obtain ⟨hbegun, htold, hanswered, hheard⟩ := hsettled tag hbelow hne
    rw [Network.waves_told hne] at htold
    rw [Network.waves_answered hne] at hanswered
    change (net.agents tag).handled = (net.agents top).handled at hbegun
    change _ = (net.agents top).handled at htold
    change _ = (net.agents top).handled.length + 1 at hanswered
    change (net.agents tag).reported.length = (net.agents top).handled.length + 1 at hheard
    have hsent : (net.agents tag).sent = (net.agents tag).answers tag :=
      ((hlinked.each tag).own hne).reports.eq_of_length
        (by rw [hanswered, AgentProcess.answers_length, hbegun])
    have hreports : (net.agents tag).reports = [] := by
      rw [AgentProcess.sent, List.length_append, hheard] at hanswered
      exact List.length_eq_zero_iff.mp (by omega)
    refine ⟨hbegun.trans hhandled, ?_, ?_, hreports⟩
    · rw [hbegun] at htold
      exact List.append_right_eq_self.mp htold
    · rw [← hsent, AgentProcess.sent, hreports, List.append_nil]
  · intro parent hbelow child hchild
    have hne : child ≠ top := fun heq => hroot.2 parent (heq ▸ hchild)
    obtain ⟨-, -, -, hheard⟩ := hsettled child (.tail hbelow hchild) hne
    change (net.agents child).reported.length = (net.agents top).handled.length + 1 at hheard
    have hreported : (net.agents child).reported ≠ [] :=
      List.ne_nil_of_length_pos (hheard ▸ Nat.succ_pos _)
    have hmem := hchild
    rw [← hlinked.tags parent] at hmem
    obtain ⟨ai, hai, heq⟩ := List.mem_map.mp hmem
    have hrow := (hlinked.each parent).rows ai hai
    rw [heq] at hrow
    have hstatus := hrow.status
    rw [if_neg hreported] at hstatus
    exact ⟨ai, hai, heq, hstatus, hrow.address hreported⟩

/-- The agents of the chain know each other, and the application was not restarted. -/
theorem Network.searching_settled_chain :
    (chainSearching.agents "fe").handled = [] ∧
      (chainSearching.agents "a").reported = [.heartbeat "host" 51000 "a"] ∧
      ∃ ai ∈ (chainSearching.agents "h").childAgents, ai.tag = "a" ∧ ai.hostname = "host" := by
  obtain ⟨⟨idmaps, htop, hagents⟩, htables⟩ :=
    Network.searching_settled chainForest_root chainSearching_reachable rfl
  have hhandled : (chainSearching.agents "fe").handled = [] := rfl
  obtain ⟨-, -, hreported, -⟩ := hagents "a" (chainForest_below "a" (by decide)) (by decide)
  obtain ⟨ai, hai, htag, -, hhostname, -⟩ :=
    htables "h" (chainForest_below "h" (by decide)) "a" (by decide)
  exact ⟨hhandled, hreported, ai, hai, htag, hhostname⟩

/-- At any time, no agent is attached to the processes of a restart before all agents have let go
of the processes before, and none lets go of them before all agents are attached. -/
theorem Network.attached_in_step (hroot : forest.Root top) (h : net.Reachable forest top)
    {a b : String} (ha : forest.Below top a) (hb : forest.Below top b) :
    (net.agents a).reinits ≤ (net.agents b).terminations ∧
      (net.agents b).terminations ≤ (net.agents a).reinits + 1 := by
  obtain ⟨hordered, hlinked⟩ := h.linked hroot
  obtain ⟨hapart, halength⟩ := hordered.close hroot.2 ha
  obtain ⟨hbpart, hblength⟩ := hordered.close hroot.2 hb
  exact hlinked.front.history.in_step hapart halength hbpart hblength

/-- The high-level agent is one termination ahead of the analysis agent. -/
theorem Network.attached_in_step_chain :
    (chainTerminating.agents "h").terminations = 1 ∧
      (chainTerminating.agents "h").terminations ≤ (chainTerminating.agents "a").reinits + 1 :=
  ⟨rfl, (Network.attached_in_step chainForest_root chainTerminating_reachable
    (chainForest_below "a" (by decide)) (chainForest_below "h" (by decide))).2⟩

end Safety

end ReadexPtf.Agents
