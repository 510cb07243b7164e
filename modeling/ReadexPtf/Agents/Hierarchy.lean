import ReadexPtf.Agents.AgentInfo
import ReadexPtf.Lib.Forest
import Mathlib

/-! The hierarchy of agents: commands go down from the frontend to the analysis agents, and
the requests at the end of an experiment come up through the high-level agents. -/
namespace ReadexPtf.Agents

/-- The messages by which a parent begins an experiment. -/
inductive Command where
  | start
  | startexperiment
  deriving DecidableEq

inductive ApplicationState where
  | working
  | suspended
  | suspendedAtEnd
  | terminated
  | gotData
  | traceBufferFull
  | stateUnknown
  deriving DecidableEq

def ApplicationState.needRestart (state : ApplicationState) : Bool :=
  state = .terminated ∨ state = .suspendedAtEnd

/-- What the data provider and the strategy of an analysis agent answer at the end of an
experiment. -/
structure Evaluation where
  stillExecuting : Bool
  phaseIsMainRegion : Bool
  stateBefore : ApplicationState
  allInfoGathered : Bool
  requestsNext : Bool
  stateAfter : ApplicationState

/-- An agent with its connection to the parent. Each direction keeps what was handled and
what is still on its way. -/
structure Agent where
  childAgents : List AgentInfo
  started : Bool
  begun : ℕ
  commands : List Command
  reported : List Request
  requests : List Request
  deriving DecidableEq

/-- All requests that the agent has sent. -/
def Agent.sent (agent : Agent) : List Request := agent.reported ++ agent.requests

/-- The number of commands that were sent to the agent. -/
def Agent.commanded (agent : Agent) : ℕ := agent.begun + agent.commands.length

def Agent.receive (agent : Agent) (command : Command) : Agent :=
  { agent with commands := agent.commands ++ [command] }

def Agent.next (agent : Agent) : Agent :=
  { agent with begun := agent.begun + 1, commands := agent.commands.tail }

def Agent.send (agent : Agent) (request : Request) : Agent :=
  { agent with requests := agent.requests ++ [request] }

/-- The parent handles the first request on its way. -/
def Agent.report (agent : Agent) : Agent :=
  { agent with
    reported := agent.reported ++ agent.requests.take 1
    requests := agent.requests.tail }

section AnalysisAgent

def Agent.startExperiment (agent : Agent) : Agent :=
  { agent with started := true }

/-- A delay that the application did not live to see cancels the search. -/
def Agent.onStart (delayed : Bool) (state : ApplicationState) (agent : Agent) : Agent :=
  if state.needRestart then
    if delayed then agent.send .searchfinished else agent.send .needrestart
  else agent.startExperiment

def Agent.onStartexperiment (state : ApplicationState) (agent : Agent) : Agent :=
  if state.needRestart then agent.send .needrestart else agent.startExperiment

def Agent.onCommand (delayed : Bool) (state : ApplicationState) :
    Command → Agent → Agent
  | .start => Agent.onStart delayed state
  | .startexperiment => Agent.onStartexperiment state

def Agent.appropriateRequest (agent : Agent) (state : ApplicationState) : Agent :=
  if ¬state.needRestart then agent.send .reqexperiment else agent.send .needrestart

def Agent.evaluateExperiment (agent : Agent) (evaluation : Evaluation) : Agent :=
  if ¬agent.started ∨ evaluation.stillExecuting then agent
  else
    let agent := { agent with started := false }
    if ¬evaluation.phaseIsMainRegion ∧ evaluation.stateBefore.needRestart then
      agent.send .needrestart
    else if ¬evaluation.allInfoGathered ∨ evaluation.requestsNext then
      agent.appropriateRequest evaluation.stateAfter
    else agent.send .searchfinished

end AnalysisAgent

section HighLevelAgent

/-- Nothing is forwarded while the information for a child is missing. -/
def Agent.forwardRequest (agent : Agent) : Agent :=
  match prioritize .finished agent.childAgents with
  | none => agent
  | some status =>
    let agent := match status with
      | .finished => agent.send .searchfinished
      | .reqexperiment => agent.send .reqexperiment
      | .reqrestart => agent.send .needrestart
      | .undefined => agent
    { agent with
      childAgents := agent.childAgents.map fun ai => { ai with searchStatus := .undefined } }

/-- The handlers of the three requests differ in the status only. -/
def Agent.onStatus (status : SearchStatus) (agent : Agent) (tag : String) : Agent :=
  { agent with childAgents := setSearchStatus tag status agent.childAgents }.forwardRequest

def Agent.onSearchfinished : Agent → String → Agent := Agent.onStatus .finished

def Agent.onReqexperiment : Agent → String → Agent := Agent.onStatus .reqexperiment

def Agent.onNeedrestart : Agent → String → Agent := Agent.onStatus .reqrestart

def Agent.onRequest (agent : Agent) (tag : String) : Request → Agent
  | .searchfinished => agent.onSearchfinished tag
  | .reqexperiment => agent.onReqexperiment tag
  | .needrestart => agent.onNeedrestart tag

end HighLevelAgent

/-- The agents by their tags. -/
abbrev Hierarchy := String → Agent

section Steps
variable (forest : Forest String) (reachable : String → ℤ → Bool)

/-- A high-level agent handles a command: it goes to every child that is connected. -/
def Hierarchy.forward (agents : Hierarchy) (agent : String) (command : Command) : Hierarchy :=
  let (childAgents, tags) := forChildren reachable id id (agents agent).childAgents
  fun tag =>
    if tag = agent then { (agents agent).next with childAgents }
    else if tag ∈ tags then (agents tag).receive command
    else agents tag

/-- A high-level agent handles the first request of a child. -/
def Hierarchy.deliver (agents : Hierarchy) (parent child : String) (request : Request) :
    Hierarchy :=
  Function.update (Function.update agents child (agents child).report) parent
    ((agents parent).onRequest child request)

/-- The first request of an agent reaches its parent, or the frontend. -/
inductive Hierarchy.Delivers (agents : Hierarchy) : Hierarchy → Prop
  | deliver (parent child : String) (request : Request) (hchild : child ∈ forest.children parent)
      (hrequest : request ∈ (agents child).requests.head?) :
      Delivers agents (agents.deliver parent child request)
  | arrive (root : String) (request : Request) (hroot : forest.Root root)
      (hrequest : request ∈ (agents root).requests.head?) :
      Delivers agents (Function.update agents root (agents root).report)

/-- A step of one agent, on a message or by itself. The frontend begins an experiment of one
of its child agents only when this one has reported the experiments before. -/
inductive Hierarchy.Step (agents : Hierarchy) : Hierarchy → Prop
  | command (root : String) (command : Command) (hroot : forest.Root root)
      (hturn : (agents root).commanded = (agents root).reported.length) :
      Step agents (Function.update agents root ((agents root).receive command))
  | forward (agent : String) (command : Command) (hinner : ¬forest.Leaf agent)
      (hcommand : command ∈ (agents agent).commands.head?) :
      Step agents (agents.forward reachable agent command)
  | handle (leaf : String) (command : Command) (delayed : Bool) (state : ApplicationState)
      (hleaf : forest.Leaf leaf) (hcommand : command ∈ (agents leaf).commands.head?) :
      Step agents (Function.update agents leaf
        ((agents leaf).next.onCommand delayed state command))
  | evaluate (leaf : String) (evaluation : Evaluation) (hleaf : forest.Leaf leaf) :
      Step agents (Function.update agents leaf ((agents leaf).evaluateExperiment evaluation))
  | delivers {next : Hierarchy} (h : Hierarchy.Delivers forest agents next) : Step agents next

/-- Every agent knows its children, and nothing has been sent. -/
structure Hierarchy.Initial (agents : Hierarchy) : Prop where
  tags : ∀ agent, (agents agent).childAgents.map AgentInfo.tag = forest.children agent
  undefined : ∀ agent, ∀ ai ∈ (agents agent).childAgents, ai.searchStatus = .undefined
  started : ∀ agent, (agents agent).started = false
  begun : ∀ agent, (agents agent).begun = 0
  commands : ∀ agent, (agents agent).commands = []
  reported : ∀ agent, (agents agent).reported = []
  requests : ∀ agent, (agents agent).requests = []

inductive Hierarchy.Reachable : Hierarchy → Prop
  | initial {agents : Hierarchy} (h : agents.Initial forest) : Reachable agents
  | step {agents next : Hierarchy} (h : Reachable agents)
      (hstep : Hierarchy.Step forest reachable agents next) : Reachable next

end Steps

end ReadexPtf.Agents
