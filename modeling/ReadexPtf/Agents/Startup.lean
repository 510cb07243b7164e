import ReadexPtf.Agents.AgentInfo
import ReadexPtf.Lib.Waves
import Mathlib

/-! The start of the agents and the restarts of the application. Heartbeats come up from the
analysis agents through the high-level agents to the frontend; for a restart the frontend has
the application terminated, runs it again and has the agents attach to the new processes. -/
namespace ReadexPtf.Agents
open ReadexPtf

/-- The id of each process before a restart and after it. -/
structure IdMap where
  entries : List (ℤ × ℤ)
  length_le : entries.length ≤ 8192
  deriving DecidableEq

inductive RestartCommand where
  | terminate
  | reinit (idmap : IdMap)
  deriving DecidableEq

inductive RestartReport where
  | heartbeat (hostname : String) (port : ℤ) (tag : String)
  | terminated (tag : String)
  deriving DecidableEq

/-- `TimerAction` of a high-level agent. -/
inductive AgentTimer where
  | startup
  | startupReinit
  deriving DecidableEq

/-- An agent with its connection to the parent. Each direction keeps what was handled and
what is still on its way. -/
structure AgentProcess where
  hostname : String
  port : ℤ
  running : Bool
  stopped : Bool
  timerAction : Option AgentTimer
  childAgents : List AgentInfo
  handled : List RestartCommand
  commands : List RestartCommand
  reported : List RestartReport
  reports : List RestartReport

section Tables

/-- The first heartbeat of a child starts it, the others start it again. -/
def AgentInfo.onHeartbeat (hostname : String) (port : ℤ) (ai : AgentInfo) : AgentInfo :=
  if ai.status = .initial then { ai with status := .started, hostname, port }
  else { ai with statusReinit := .started, hostname, port }

/-- The loop over the children ends at the first one of the tag. -/
def onHeartbeat (update : AgentInfo → AgentInfo) (tag : String) : List AgentInfo → List AgentInfo
  | [] => []
  | ai :: rest =>
    if ai.tag = tag then update ai :: rest else ai :: onHeartbeat update tag rest

/-- The loop over the children marks the sender, and tells whether all are marked. -/
def onTerminated (tag : String) : List AgentInfo → List AgentInfo × Bool
  | [] => ([], true)
  | ai :: rest =>
    let (agents, done) := onTerminated tag rest
    let ai := if ai.tag = tag then { ai with applTerminated := true } else ai
    (ai :: agents, ai.applTerminated && done)

end Tables

namespace AgentProcess

def receive (agent : AgentProcess) (command : RestartCommand) : AgentProcess :=
  { agent with commands := agent.commands ++ [command] }

def next (agent : AgentProcess) : AgentProcess :=
  { agent with
    handled := agent.handled ++ agent.commands.take 1
    commands := agent.commands.tail }

def send (agent : AgentProcess) (report : RestartReport) : AgentProcess :=
  { agent with reports := agent.reports ++ [report] }

/-- The parent handles the first report on its way. -/
def report (agent : AgentProcess) : AgentProcess :=
  { agent with
    reported := agent.reported ++ agent.reports.take 1
    reports := agent.reports.tail }

def heartbeat (tag : String) (agent : AgentProcess) : AgentProcess :=
  agent.send (.heartbeat agent.hostname agent.port tag)

section AnalysisAgent

/-- `AnalysisAgent::run` -/
def runAnalysisAgent (tag : String) (agent : AgentProcess) : AgentProcess :=
  { agent with running := true }.heartbeat tag

def reinitProviders (tag : String) (agent : AgentProcess) : AgentProcess := agent.heartbeat tag

def onCommand (tag : String) (agent : AgentProcess) : RestartCommand → AgentProcess
  | .terminate => agent.send (.terminated tag)
  | .reinit _ => agent.reinitProviders tag

end AnalysisAgent

section HighLevelAgent

/-- `PeriscopeHLAgent::run` -/
def runHighLevelAgent (agent : AgentProcess) : AgentProcess :=
  { agent with running := true, timerAction := some .startup }

def onReport (tag : String) (agent : AgentProcess) : RestartReport → AgentProcess
  | .heartbeat hostname port child => { agent with
      childAgents := onHeartbeat (AgentInfo.onHeartbeat hostname port) child agent.childAgents }
  | .terminated child =>
    let (childAgents, done) := onTerminated child agent.childAgents
    let agent := { agent with childAgents }
    if done then agent.send (.terminated tag) else agent

/-- An agent whose time is up stops waiting for the children to start again. -/
def handleTimeout (late : Bool) (tag : String) (agent : AgentProcess) : AgentProcess :=
  match agent.timerAction with
  | none => agent
  | some .startup =>
    if agent.childAgents.all (·.status = .started) then
      { agent.heartbeat tag with timerAction := none }
    else agent
  | some .startupReinit =>
    if agent.childAgents.all (·.statusReinit = .started) then
      { agent.heartbeat tag with timerAction := none }
    else if late then { agent with stopped := true }
    else agent

end HighLevelAgent
end AgentProcess

/-- Where the frontend is in a run. -/
inductive FrontendPhase where
  | starting
  | searching
  | restarting
  | terminating
  | terminated
  | reiniting
  deriving DecidableEq

/-- The agents by their tags, with the frontend as the top one. What it has handled are the
commands that it has given itself. -/
structure Network where
  agents : String → AgentProcess
  phase : FrontendPhase
  ended : Bool

namespace Network
variable (reachable : String → ℤ → Bool)

def set (net : Network) (tag : String) (agent : AgentProcess) : Network :=
  { net with agents := fun other => if other = tag then agent else net.agents other }

/-- The command goes to the connected children. -/
def tell (net : Network) (tags : List String) (command : RestartCommand) : Network :=
  { net with agents := fun other =>
      if other ∈ tags then (net.agents other).receive command else net.agents other }

section HighLevelAgent

def onTerminate (net : Network) (agent : String) : Network :=
  let (childAgents, tags) := forChildren reachable id id
    ((net.agents agent).childAgents.map fun ai => { ai with applTerminated := false })
  (net.set agent { (net.agents agent).next with childAgents }).tell tags .terminate

def onReinit (net : Network) (agent : String) (idmap : IdMap) : Network :=
  let (childAgents, tags) := forChildren reachable id id (net.agents agent).childAgents
  (net.set agent { (net.agents agent).next with
    childAgents := childAgents.map fun ai => { ai with statusReinit := .initial }
    timerAction := some .startupReinit }).tell tags (.reinit idmap)

def forward (net : Network) (agent : String) : RestartCommand → Network
  | .terminate => net.onTerminate reachable agent
  | .reinit idmap => net.onReinit reachable agent idmap

end HighLevelAgent

section Frontend
variable (top : String)

def table (net : Network) : List AgentInfo := (net.agents top).childAgents

def setTable (net : Network) (childAgents : List AgentInfo) : Network :=
  net.set top { net.agents top with childAgents }

/-- `PeriscopeFrontend::start`. It gives none where the source aborts. -/
def start : List AgentInfo → Option (List AgentInfo)
  | [] => some []
  | ai :: rest =>
    if ai.status = .connected then (start rest).map (ai :: ·)
    else match connectToChild reachable ai with
      | none => none
      | some ai => (start rest).map ({ ai with propertiesSent := false } :: ·)

/-- The step in the state STARTUP. -/
def handleStartup (late : Bool) (net : Network) : Network :=
  if (net.table top).all (·.status = .started) then
    match start reachable (net.table top) with
    | none => { net with ended := true }
    | some childAgents => { net.setTable top childAgents with phase := .searching }
  else if late then { net with ended := true }
  else net

/-- The frontend decides to restart the application. -/
def restart (net : Network) : Network :=
  let (childAgents, stops) := forChildren reachable
    (fun ai => { ai with
      applTerminated := false, searchStatus := .undefined, statusReinit := .initial })
    id (net.table top)
  if stops = [] then net else { net.setTable top childAgents with phase := .restarting }

/-- The loop that has the application terminated. It exits at a child without connection. -/
def terminateChildren : List AgentInfo → List AgentInfo × List String × Bool
  | [] => ([], [], true)
  | ai :: rest =>
    match if ai.status = .connected then some ai else connectToChild reachable ai with
    | none => (ai :: rest, [], false)
    | some ai =>
      let (agents, tags, done) := terminateChildren rest
      ({ ai with applTerminated := false } :: agents, ai.tag :: tags, done)

/-- A command that the frontend gives. -/
def give (net : Network) (command : RestartCommand) : AgentProcess :=
  { net.agents top with handled := (net.agents top).handled ++ [command] }

def terminate (net : Network) : Network :=
  let (childAgents, tags, done) := terminateChildren reachable (net.table top)
  { (net.set top { net.give top .terminate with childAgents }).tell tags .terminate with
    phase := .terminating, ended := !done }

/-- The step in the state APPLICATION_TERMINATION, with so many processes registered. -/
def handleTermination (late : Bool) (registered : ℕ) (net : Network) : Network :=
  if (net.table top).all AgentInfo.applTerminated then
    if registered = 0 then { net with phase := .terminated } else net
  else if late then { net with ended := true }
  else net

def rerunApplication (idmap : IdMap) (net : Network) : Network :=
  let (childAgents, tags) := forChildren reachable id id (net.table top)
  { (net.set top { net.give top (.reinit idmap) with childAgents }).tell tags (.reinit idmap) with
    phase := .reiniting }

/-- The search goes on with a child that a connection exists to or can be made to. -/
def startexperiment (ai : AgentInfo) : AgentInfo :=
  match connectToChild reachable ai with
  | none => ai
  | some ai => { ai with searchStatus := .undefined, propertiesSent := false }

/-- The step in the state STARTUP_REINIT. -/
def handleReinit (net : Network) : Network :=
  if (net.table top).all (·.statusReinit = .started) then
    { net.setTable top ((net.table top).map (startexperiment reachable)) with
      phase := .searching }
  else net

/-- The handlers of the frontend only mark the sender. -/
def onReport (net : Network) : RestartReport → Network
  | .heartbeat hostname port child => net.setTable top (onHeartbeat
      (fun ai => { ai.onHeartbeat hostname port with propertiesSent := false }) child
      (net.table top))
  | .terminated child => net.setTable top (onTerminated child (net.table top)).1

end Frontend

section Steps
variable (forest : Forest String) (top : String) (late : Bool)

/-- Whether the agent handles what comes in. -/
def alive (net : Network) (tag : String) : Bool :=
  if tag = top then !net.ended else (net.agents tag).running && !(net.agents tag).stopped

/-- The parent handles the first report of a child. -/
def deliver (net : Network) (parent child : String) (report : RestartReport) : Network :=
  let net := net.set child (net.agents child).report
  if parent = top then net.onReport top report
  else net.set parent ((net.agents parent).onReport parent report)

/-- A step of one agent, on a message or by itself, with what can be reached then and whether
its time is up. -/
inductive Step (net : Network) : Network → Prop
  | runAnalysisAgent (tag : String) (htag : tag ∈ forest.nodes) (hne : tag ≠ top)
      (hleaf : forest.Leaf tag) (hidle : (net.agents tag).running = false) :
      Step net (net.set tag ((net.agents tag).runAnalysisAgent tag))
  | runHighLevelAgent (tag : String) (htag : tag ∈ forest.nodes) (hne : tag ≠ top)
      (hinner : ¬forest.Leaf tag) (hidle : (net.agents tag).running = false) :
      Step net (net.set tag (net.agents tag).runHighLevelAgent)
  | command (parent tag : String) (command : RestartCommand)
      (htag : tag ∈ forest.children parent) (hleaf : forest.Leaf tag)
      (halive : net.alive top tag = true)
      (hcommand : command ∈ (net.agents tag).commands.head?) :
      Step net (net.set tag ((net.agents tag).next.onCommand tag command))
  | forward (parent tag : String) (command : RestartCommand)
      (htag : tag ∈ forest.children parent) (hinner : ¬forest.Leaf tag)
      (halive : net.alive top tag = true)
      (hcommand : command ∈ (net.agents tag).commands.head?) :
      Step net (net.forward reachable tag command)
  | deliver (parent child : String) (report : RestartReport) (hparent : parent ∈ forest.nodes)
      (hchild : child ∈ forest.children parent) (halive : net.alive top parent = true)
      (hreport : report ∈ (net.agents child).reports.head?) :
      Step net (net.deliver top parent child report)
  | timeout (tag : String) (htag : tag ∈ forest.nodes) (hne : tag ≠ top)
      (hinner : ¬forest.Leaf tag) (halive : net.alive top tag = true) :
      Step net (net.set tag ((net.agents tag).handleTimeout late tag))
  | startup (halive : net.ended = false) (hphase : net.phase = .starting) :
      Step net (net.handleStartup reachable top late)
  | terminate (halive : net.ended = false) (hphase : net.phase = .restarting) :
      Step net (net.terminate reachable top)
  | termination (registered : ℕ) (halive : net.ended = false)
      (hphase : net.phase = .terminating) :
      Step net (net.handleTermination top late registered)
  | rerun (idmap : IdMap) (halive : net.ended = false) (hphase : net.phase = .terminated) :
      Step net (net.rerunApplication reachable top idmap)
  | reinit (halive : net.ended = false) (hphase : net.phase = .reiniting) :
      Step net (net.handleReinit reachable top)

/-- A step of the agents, or a restart. -/
inductive Event (net : Network) : Network → Prop
  | step {next : Network} (h : Step reachable forest top late net next) : Event net next
  | restart (halive : net.ended = false) (hphase : net.phase = .searching) :
      Event net (net.restart reachable top)

/-- Every agent but the frontend has still to run, and knows the tags of its children only. -/
structure Initial (net : Network) : Prop where
  tags : ∀ tag, (net.agents tag).childAgents.map AgentInfo.tag = forest.children tag
  status : ∀ tag, ∀ ai ∈ (net.agents tag).childAgents, ai.status = .initial
  running : ∀ tag, tag ≠ top → (net.agents tag).running = false
  timerAction : ∀ tag, (net.agents tag).timerAction = none
  handled : ∀ tag, (net.agents tag).handled = []
  commands : ∀ tag, (net.agents tag).commands = []
  reported : ∀ tag, (net.agents tag).reported = []
  reports : ∀ tag, (net.agents tag).reports = []
  phase : net.phase = .starting

/-- Connections and delays may be others at every step. -/
inductive Reachable : Network → Prop
  | initial {net : Network} (h : net.Initial forest top) : Reachable net
  | event {net next : Network} (reachable : String → ℤ → Bool) (late : Bool)
      (h : Reachable net) (hevent : Event reachable forest top late net next) : Reachable next

end Steps
end Network
end ReadexPtf.Agents
