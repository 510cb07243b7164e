import ReadexPtf.Agents.AgentInfo
import Mathlib

/-! How the frontend decides on the continuation of the search from the messages of its
child agents. -/
namespace ReadexPtf.Agents

structure Instrumentation where
  hasInst : Bool
  instString : String
  badRegions : List String
  badRegionsRemoved : Bool
  allRegionsCommented : Bool
  requiredRegionsList : List String
  requiredRegionsListLastRun : List String

/-- The search in a list of regions that stops at a greater one. -/
def isInRegions (region : String) : List String → Bool
  | [] => false
  | name :: rest =>
    if name = region then true
    else if region < name then false
    else isInRegions region rest

def Instrumentation.isInBadRegions (inst : Instrumentation) (region : String) : Bool :=
  isInRegions region inst.badRegions

def Instrumentation.isInRequiredRegionsListLastRun (inst : Instrumentation) (region : String) :
    Bool :=
  isInRegions region inst.requiredRegionsListLastRun

def Instrumentation.checkForReinstrumentation (inst : Instrumentation) : Bool :=
  if ¬inst.hasInst then false
  else if inst.badRegions.length > 0 ∧ ¬inst.badRegionsRemoved ∧
      (inst.instString = "overhead" ∨ inst.instString = "all_overhead") then true
  else if inst.instString = "analyse" ∧ ¬inst.allRegionsCommented then true
  else inst.requiredRegionsList.any fun region =>
    !inst.isInBadRegions region && !inst.isInRequiredRegionsListLastRun region

/-- What the handler calls: messages to a child, and the frontend's own operations. -/
inductive Action where
  | check (tag : String)
  | startexperiment (tag : String)
  | start
  | quit
  | stop
  deriving DecidableEq

structure FrontendHandler where
  childAgents : List AgentInfo
  instrumentation : Instrumentation
  automatic : Bool
  shutdownAllowed : Bool
  needRestart : Bool
  searchDone : Bool
  restartRequestedForNoTuning : Bool
  actions : List Action

section Models
variable (reachable : String → ℤ → Bool)

/-- The loop of a request for an experiment, which returns from the handler at the first child
that it has started. -/
def startFirst : List AgentInfo → List AgentInfo × Option String
  | [] => ([], none)
  | ai :: rest =>
    let (agents, child) := startFirst rest
    if ai.status = .connected then (ai :: agents, child)
    else match connectToChild reachable ai with
      | none => (ai :: agents, child)
      | some ai => ({ ai with searchStatus := .undefined } :: rest, some ai.tag)

/-- One loop over the children as a step of the frontend. -/
def FrontendHandler.loop (fe : FrontendHandler) (update : AgentInfo → AgentInfo)
    (action : String → Action) : FrontendHandler :=
  let (childAgents, actions) := forChildren reachable update action fe.childAgents
  { fe with childAgents, actions := fe.actions ++ actions }

def FrontendHandler.finish (fe : FrontendHandler) : FrontendHandler :=
  let fe := if fe.automatic then fe.loop reachable id fun _ => .start else fe
  { fe with searchDone := true }

def FrontendHandler.startExperiment (fe : FrontendHandler) : FrontendHandler :=
  match startFirst reachable fe.childAgents with
  | (childAgents, none) => { fe with childAgents, searchDone := true }
  | (childAgents, some tag) => { fe with
      childAgents, searchDone := false, actions := fe.actions ++ [.startexperiment tag] }

/-- Without permission for a shutdown the application is restarted. -/
def FrontendHandler.restart (fe : FrontendHandler) : FrontendHandler :=
  if fe.shutdownAllowed then
    let fe := if fe.automatic then fe.loop reachable id fun _ => .quit else fe
    { fe with searchDone := true }
  else
    let next := fe.loop reachable
      (fun ai => { ai with
        applTerminated := false, searchStatus := .undefined, statusReinit := .initial })
      fun _ => .stop
    { next with
      restartRequestedForNoTuning := true
      needRestart := fe.needRestart || decide (fe.actions.length < next.actions.length)
      searchDone := true }

def FrontendHandler.clearRequiredRegionsList (fe : FrontendHandler) : FrontendHandler :=
  { fe with instrumentation := { fe.instrumentation with requiredRegionsList := [] } }

def FrontendHandler.resetPropertiesSent (fe : FrontendHandler) : FrontendHandler :=
  { fe with childAgents := fe.childAgents.map fun ai => { ai with propertiesSent := false } }

/-- What follows once every child has a status and has sent its properties. -/
def FrontendHandler.enforce (fe : FrontendHandler) (status : SearchStatus) : FrontendHandler :=
  let fe := fe.resetPropertiesSent
  match status with
  | .reqexperiment =>
    if fe.instrumentation.checkForReinstrumentation then fe.restart reachable
    else fe.clearRequiredRegionsList.startExperiment reachable
  | .finished => fe.finish reachable
  | .reqrestart => fe.restart reachable
  | .undefined => { fe with searchDone := true }

def FrontendHandler.decideContinuation (fe : FrontendHandler) : FrontendHandler :=
  let fe := { fe with restartRequestedForNoTuning := false }
  match prioritize .finished fe.childAgents with
  | none => fe
  | some status =>
    if fe.childAgents.all AgentInfo.propertiesSent then fe.enforce reachable status
    else fe.loop reachable id .check

/-- The handlers of the three status messages differ in the status only. -/
def FrontendHandler.onStatus (status : SearchStatus) (fe : FrontendHandler) (tag : String) :
    FrontendHandler :=
  { fe with childAgents := setSearchStatus tag status fe.childAgents }.decideContinuation
    reachable

def FrontendHandler.onSearchfinished : FrontendHandler → String → FrontendHandler :=
  FrontendHandler.onStatus reachable .finished

def FrontendHandler.onReqexperiment : FrontendHandler → String → FrontendHandler :=
  FrontendHandler.onStatus reachable .reqexperiment

def FrontendHandler.onNeedrestart : FrontendHandler → String → FrontendHandler :=
  FrontendHandler.onStatus reachable .reqrestart

def FrontendHandler.onPropertiessent (fe : FrontendHandler) (tag : String) : FrontendHandler :=
  let childAgents := fe.childAgents.map fun ai =>
    if ai.tag = tag then { ai with propertiesSent := true } else ai
  let fe := { fe with childAgents }
  if fe.childAgents.all AgentInfo.propertiesSent then fe.decideContinuation reachable else fe

inductive Message where
  | request (request : Request) (tag : String)
  | propertiessent (tag : String)
  deriving DecidableEq

def FrontendHandler.receive (fe : FrontendHandler) : Message → FrontendHandler
  | .request .searchfinished tag => fe.onSearchfinished reachable tag
  | .request .reqexperiment tag => fe.onReqexperiment reachable tag
  | .request .needrestart tag => fe.onNeedrestart reachable tag
  | .propertiessent tag => fe.onPropertiessent reachable tag

end Models

def FrontendHandler.tags (fe : FrontendHandler) : List String :=
  fe.childAgents.map AgentInfo.tag

def Action.started : Action → Option String
  | .startexperiment tag => some tag
  | _ => none

/-- The children that were sent a startexperiment, one entry for each message. -/
def FrontendHandler.started (fe : FrontendHandler) : List String :=
  fe.actions.filterMap Action.started

/-- No child has reported since the experiment began. -/
structure FrontendHandler.Fresh (fe : FrontendHandler) : Prop where
  tags : fe.tags.Nodup
  undefined : ∀ ai ∈ fe.childAgents, ai.searchStatus = .undefined
  unsent : ∀ ai ∈ fe.childAgents, ai.propertiesSent = false

/-- Every child requests an experiment and sends its properties, in any order. -/
def FrontendHandler.Requests (fe : FrontendHandler) (messages : List Message) : Prop :=
  messages.Perm (fe.tags.map (Message.request .reqexperiment) ++
    fe.tags.map Message.propertiessent)

/-- Every child was sent one startexperiment, and its status is reset. -/
def FrontendHandler.Restarted (fe next : FrontendHandler) : Prop :=
  next.started.Perm (fe.started ++ fe.tags) ∧
    ∀ ai ∈ next.childAgents, ai.searchStatus = .undefined

/-- Whether a request for an experiment starts the child. -/
def FrontendHandler.starts (reachable : String → ℤ → Bool) (fe : FrontendHandler)
    (ai : AgentInfo) : Prop :=
  ai.status ≠ .connected ∧ ai.connectable reachable = true ∧
    fe.instrumentation.checkForReinstrumentation = false

/-- The children with the flag of their properties. -/
def FrontendHandler.sending (fe : FrontendHandler) : List (String × Bool) :=
  fe.childAgents.map fun ai => (ai.tag, ai.propertiesSent)

section Loops
variable {reachable : String → ℤ → Bool}

theorem forChildren_started {update : AgentInfo → AgentInfo} {action : String → Action}
    {agents : List AgentInfo} (haction : ∀ tag, (action tag).started = none) :
    (forChildren reachable update action agents).2.filterMap Action.started = [] := by
  induction agents with
  | nil => rfl
  | cons ai rest ih =>
    simp only [forChildren]
    split
    · exact ih
    · split
      · exact ih
      · rw [List.filterMap_cons_none (haction _), ih]

theorem startFirst_map {β : Type} {f : AgentInfo → β} {agents : List AgentInfo}
    (hhandler : ∀ ai : AgentInfo,
      f { ai with handler := true, searchStatus := .undefined } = f ai) :
    (startFirst reachable agents).1.map f = agents.map f := by
  induction agents with
  | nil => rfl
  | cons ai rest ih =>
    simp only [startFirst, connectToChild_eq]
    by_cases hconnected : ai.status = .connected
    · simp only [hconnected, if_true, List.map_cons, ih]
    · by_cases hconnectable : ai.connectable reachable = true
      · simp only [hconnected, hconnectable, if_true, if_false, List.map_cons, hhandler]
      · simp only [hconnected, hconnectable, if_false, List.map_cons, ih, Bool.false_eq_true]

end Loops

section Steps
variable {reachable : String → ℤ → Bool} {fe : FrontendHandler}

theorem FrontendHandler.loop_keeps {update : AgentInfo → AgentInfo} {action : String → Action}
    (hupdate : ∀ ai, (update ai).tag = ai.tag ∧ (update ai).propertiesSent = ai.propertiesSent)
    (haction : ∀ tag, (action tag).started = none) :
    (fe.loop reachable update action).started = fe.started ∧
      (fe.loop reachable update action).sending = fe.sending := by
  refine ⟨?_, ?_⟩
  · simp only [FrontendHandler.started, FrontendHandler.loop, List.filterMap_append,
      forChildren_started haction, List.append_nil]
  · exact forChildren_map (fun _ => rfl) fun ai => by rw [(hupdate ai).1, (hupdate ai).2]

theorem FrontendHandler.finish_keeps :
    (fe.finish reachable).started = fe.started ∧
      (fe.finish reachable).sending = fe.sending := by
  unfold FrontendHandler.finish
  split
  · exact FrontendHandler.loop_keeps (fun _ => ⟨rfl, rfl⟩) fun _ => rfl
  · exact ⟨rfl, rfl⟩

theorem FrontendHandler.restart_keeps :
    (fe.restart reachable).started = fe.started ∧
      (fe.restart reachable).sending = fe.sending := by
  unfold FrontendHandler.restart
  split
  · split
    · exact FrontendHandler.loop_keeps (fun _ => ⟨rfl, rfl⟩) fun _ => rfl
    · exact ⟨rfl, rfl⟩
  · exact FrontendHandler.loop_keeps (fun _ => ⟨rfl, rfl⟩) fun _ => rfl

/-- A request for an experiment starts one child at most. -/
theorem FrontendHandler.startExperiment_keeps :
    (fe.startExperiment reachable).started.length ≤ fe.started.length + 1 ∧
      (fe.startExperiment reachable).sending = fe.sending := by
  have hsending := @startFirst_map reachable _ (fun ai => (ai.tag, ai.propertiesSent))
    fe.childAgents fun _ => rfl
  unfold FrontendHandler.startExperiment
  split
  · rename_i childAgents h
    rw [h] at hsending
    exact ⟨Nat.le_succ _, hsending⟩
  · rename_i childAgents tag h
    rw [h] at hsending
    refine ⟨?_, hsending⟩
    simp only [FrontendHandler.started, List.filterMap_append, List.length_append]
    exact Nat.add_le_add_left (List.length_filterMap_le _ _) _

theorem FrontendHandler.enforce_keeps {status : SearchStatus} :
    (fe.enforce reachable status).started.length ≤ fe.started.length + 1 ∧
      (fe.enforce reachable status).sending = fe.tags.map (·, false) := by
  have hsending : fe.resetPropertiesSent.sending = fe.tags.map (·, false) := by
    simp only [FrontendHandler.sending, FrontendHandler.resetPropertiesSent,
      FrontendHandler.tags, List.map_map, Function.comp_def]
  rw [← hsending]
  change _ ≤ fe.resetPropertiesSent.started.length + 1 ∧ _
  unfold FrontendHandler.enforce
  cases status with
  | reqexperiment =>
    dsimp only
    split
    · exact ⟨by rw [FrontendHandler.restart_keeps.1]; omega, FrontendHandler.restart_keeps.2⟩
    · exact @FrontendHandler.startExperiment_keeps reachable
        fe.resetPropertiesSent.clearRequiredRegionsList
  | finished =>
    exact ⟨by rw [FrontendHandler.finish_keeps.1]; omega, FrontendHandler.finish_keeps.2⟩
  | reqrestart =>
    exact ⟨by rw [FrontendHandler.restart_keeps.1]; omega, FrontendHandler.restart_keeps.2⟩
  | undefined => exact ⟨Nat.le_succ _, rfl⟩

/-- Only the decision that is taken after the properties of all children starts one. -/
theorem FrontendHandler.decideContinuation_cases :
    ((fe.decideContinuation reachable).started = fe.started ∧
      (fe.decideContinuation reachable).sending = fe.sending) ∨
    ((∀ ai ∈ fe.childAgents, ai.propertiesSent = true) ∧
      (fe.decideContinuation reachable).started.length ≤ fe.started.length + 1 ∧
      (fe.decideContinuation reachable).sending = fe.tags.map (·, false)) := by
  unfold FrontendHandler.decideContinuation
  dsimp only
  split
  · exact .inl ⟨rfl, rfl⟩
  · split
    · rename_i hall
      exact .inr ⟨List.all_eq_true.mp hall, FrontendHandler.enforce_keeps⟩
    · exact .inl (FrontendHandler.loop_keeps (fun _ => ⟨rfl, rfl⟩) fun _ => rfl)

/-- The frontend does nothing while the status of a child is missing. -/
theorem FrontendHandler.decideContinuation_waits
    (h : ∃ ai ∈ fe.childAgents, ai.searchStatus = .undefined) :
    fe.decideContinuation reachable = { fe with restartRequestedForNoTuning := false } := by
  simp only [FrontendHandler.decideContinuation, prioritize_eq_none.mpr h]

end Steps

end ReadexPtf.Agents
