import Mathlib

/-! What an agent knows of its children, and the status that a list of children amounts to. -/
namespace ReadexPtf.Agents

inductive Status where
  | initial
  | started
  | connected
  deriving DecidableEq

inductive SearchStatus where
  | reqrestart
  | reqexperiment
  | finished
  | undefined
  deriving DecidableEq

/-- The messages by which an agent reports the end of an experiment to its parent. -/
inductive Request where
  | searchfinished
  | reqexperiment
  | needrestart
  deriving DecidableEq

/-- What the handler of a message records. -/
def Request.searchStatus : Request → SearchStatus
  | .searchfinished => .finished
  | .reqexperiment => .reqexperiment
  | .needrestart => .reqrestart

def Request.rank : Request → ℕ
  | .searchfinished => 0
  | .reqexperiment => 1
  | .needrestart => 2

theorem Request.rank_injective : Function.Injective Request.rank := by
  intro a b h
  cases a <;> cases b <;> first | rfl | (simp only [Request.rank] at h; omega)

/-- Restart over experiment over finished. -/
instance : LinearOrder Request := .lift' Request.rank Request.rank_injective

theorem Request.searchfinished_le (request : Request) : .searchfinished ≤ request :=
  Nat.zero_le request.rank

structure AgentInfo where
  tag : String
  hostname : String
  port : ℤ
  status : Status
  statusReinit : Status
  propertiesSent : Bool
  applTerminated : Bool
  searchStatus : SearchStatus
  calltreeSent : Bool
  /-- Whether the connection has a handler. -/
  handler : Bool
  deriving DecidableEq

/-- A child that has a connection and has reported nothing. -/
def AgentInfo.ofTag (tag : String) : AgentInfo :=
  ⟨tag, "localhost", 51000, .started, .initial, false, false, .undefined, false, true⟩

/-- The first child of the tag gets the status. -/
def setSearchStatus (tag : String) (status : SearchStatus) : List AgentInfo → List AgentInfo
  | [] => []
  | ai :: rest =>
    if ai.tag = tag then { ai with searchStatus := status } :: rest
    else ai :: setSearchStatus tag status rest

/-- The loop over the children that implements the priorities. It gives none when the
information for a child is still missing. -/
def prioritize : SearchStatus → List AgentInfo → Option SearchStatus
  | status, [] => some status
  | status, ai :: rest =>
    if ai.searchStatus = .reqexperiment ∧ status = .finished then prioritize .reqexperiment rest
    else if ai.searchStatus = .reqrestart then prioritize .reqrestart rest
    else if ai.searchStatus = .undefined then none
    else prioritize status rest

/-- Whether a connection to the child exists or can be made. -/
def AgentInfo.connectable (reachable : String → ℤ → Bool) (ai : AgentInfo) : Bool :=
  ai.handler || reachable ai.hostname ai.port

/-- Whether the loops over the children reach the child. -/
def AgentInfo.served (reachable : String → ℤ → Bool) (ai : AgentInfo) : Bool :=
  ai.status ≠ .connected && ai.connectable reachable

/-- Gives none where the source returns -1. -/
def connectToChild (reachable : String → ℤ → Bool) (ai : AgentInfo) : Option AgentInfo :=
  if ai.handler then some ai
  else if reachable ai.hostname ai.port then some { ai with handler := true }
  else none

/-- The loop over the children that are not connected: each one that a connection exists to
or can be made to is updated, and gets the action. -/
def forChildren {α : Type} (reachable : String → ℤ → Bool) (update : AgentInfo → AgentInfo)
    (action : String → α) : List AgentInfo → List AgentInfo × List α
  | [] => ([], [])
  | ai :: rest =>
    let (agents, actions) := forChildren reachable update action rest
    if ai.status = .connected then (ai :: agents, actions)
    else match connectToChild reachable ai with
      | none => (ai :: agents, actions)
      | some ai => (update ai :: agents, action ai.tag :: actions)

section Children
variable {tag : String} {status : SearchStatus} {agents : List AgentInfo}

/-- What the status is no part of stays as it is. -/
theorem setSearchStatus_map {β : Type} {f : AgentInfo → β}
    (h : ∀ ai : AgentInfo, f { ai with searchStatus := status } = f ai) :
    (setSearchStatus tag status agents).map f = agents.map f := by
  induction agents with
  | nil => rfl
  | cons ai rest ih =>
    rw [setSearchStatus]
    split
    · rw [List.map_cons, h, List.map_cons]
    · rw [List.map_cons, ih, List.map_cons]

/-- The status is known when no child is undefined. -/
theorem prioritize_eq_none :
    prioritize status agents = none ↔ ∃ ai ∈ agents, ai.searchStatus = .undefined := by
  induction agents generalizing status with
  | nil => simp [prioritize]
  | cons ai rest ih =>
    simp only [prioritize, List.mem_cons, exists_eq_or_imp]
    split
    · rename_i h
      rw [ih, h.1]
      simp
    · split
      · rename_i h
        rw [ih, h]
        simp
      · split
        · rename_i h
          simp [h]
        · rename_i h
          rw [ih]
          simp [h]

/-- From a status that some request has, the loop takes the highest one. -/
theorem prioritize_eq {request : Request} {requests : List Request}
    (h : agents.map AgentInfo.searchStatus = requests.map Request.searchStatus) :
    prioritize request.searchStatus agents =
      some (requests.foldl max request).searchStatus := by
  induction agents generalizing request requests with
  | nil =>
    rw [List.map_nil, eq_comm, List.map_eq_nil_iff] at h
    rw [h]
    rfl
  | cons ai rest ih =>
    cases requests with
    | nil => cases h
    | cons first later =>
      rw [List.map_cons, List.map_cons, List.cons.injEq] at h
      rw [prioritize, h.1, List.foldl_cons]
      -- the two statuses decide which branch is taken
      cases first <;> cases request <;>
        simp only [Request.searchStatus, reduceCtorEq, and_true, and_false, and_self, if_true,
          if_false] <;>
        first
          | exact @ih .searchfinished later h.2
          | exact @ih .reqexperiment later h.2
          | exact @ih .needrestart later h.2

end Children

section Loops
variable {reachable : String → ℤ → Bool}

theorem connectToChild_eq (ai : AgentInfo) :
    connectToChild reachable ai =
      if ai.connectable reachable then some { ai with handler := true } else none := by
  unfold connectToChild AgentInfo.connectable
  cases hhandler : ai.handler with
  | true =>
    rw [Bool.true_or, if_pos rfl, if_pos rfl, ← hhandler]
  | false => rw [if_neg Bool.false_ne_true, Bool.false_or]

/-- What the loop does not update of a child stays as it is. -/
theorem forChildren_map {α β : Type} {f : AgentInfo → β} {update : AgentInfo → AgentInfo}
    {action : String → α} {agents : List AgentInfo}
    (hhandler : ∀ ai : AgentInfo, f { ai with handler := true } = f ai)
    (hupdate : ∀ ai, f (update ai) = f ai) :
    (forChildren reachable update action agents).1.map f = agents.map f := by
  induction agents with
  | nil => rfl
  | cons ai rest ih =>
    simp only [forChildren, connectToChild_eq]
    by_cases hconnected : ai.status = .connected
    · simp only [hconnected, if_true, List.map_cons, ih]
    · by_cases hconnectable : ai.connectable reachable = true
      · simp only [hconnected, hconnectable, if_true, if_false, List.map_cons, ih, hupdate,
          hhandler]
      · simp only [hconnected, hconnectable, if_false, List.map_cons, ih, Bool.false_eq_true]

theorem forChildren_cons {α : Type} {update : AgentInfo → AgentInfo} {action : String → α}
    {ai : AgentInfo} {rest : List AgentInfo} :
    forChildren reachable update action (ai :: rest) =
      (if ai.served reachable then
        (update { ai with handler := true } :: (forChildren reachable update action rest).1,
          action ai.tag :: (forChildren reachable update action rest).2)
      else
        (ai :: (forChildren reachable update action rest).1,
          (forChildren reachable update action rest).2)) := by
  simp only [forChildren, connectToChild_eq, AgentInfo.served]
  by_cases hconnected : ai.status = .connected
  · simp [hconnected]
  · by_cases hconnectable : ai.connectable reachable = true
    · simp [hconnected, hconnectable]
    · simp [hconnected, hconnectable]

theorem forChildren_agents {α : Type} {update : AgentInfo → AgentInfo} {action : String → α}
    {agents : List AgentInfo} :
    (forChildren reachable update action agents).1 =
      agents.map fun ai =>
        if ai.served reachable then update { ai with handler := true } else ai := by
  induction agents with
  | nil => rfl
  | cons ai rest ih =>
    rw [forChildren_cons, List.map_cons, ← ih]
    split <;> rfl

theorem forChildren_actions {α : Type} {update : AgentInfo → AgentInfo} {action : String → α}
    {agents : List AgentInfo} :
    (forChildren reachable update action agents).2 =
      (agents.filter (AgentInfo.served reachable)).map fun ai => action ai.tag := by
  induction agents with
  | nil => rfl
  | cons ai rest ih =>
    rw [forChildren_cons, List.filter_cons]
    split
    · rw [List.map_cons, ih]
    · exact ih

end Loops

/-- The highest of several requests. -/
def highest (requests : List Request) : Request := requests.foldl max .searchfinished

theorem isGreatest_highest {requests : List Request} (h : requests ≠ []) :
    IsGreatest { r | r ∈ requests } (highest requests) := by
  have hlawful : Std.LawfulOrderMax Request :=
    .of_max_le_iff (fun _ _ _ => max_le_iff) max_choice
  cases requests with
  | nil => exact absurd rfl h
  | cons first later =>
    rw [highest, List.foldl_cons, max_eq_right first.searchfinished_le]
    exact List.max?_eq_some_iff.mp List.max?_cons'

end ReadexPtf.Agents
