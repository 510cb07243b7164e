import ReadexPtf.Agents.FrontendHandler
import Mathlib

/-! Rounds in which every child agent requests another experiment. -/
namespace ReadexPtf.Agents

/-- One if the properties of the child are there. -/
def FrontendHandler.delivered (fe : FrontendHandler) (tag : String) : ℕ :=
  if (tag, true) ∈ fe.sending then 1 else 0

section Runs
variable {reachable : String → ℤ → Bool} {fe : FrontendHandler} {tag : String}

theorem FrontendHandler.tags_eq : fe.tags = fe.sending.map Prod.fst := by
  simp only [FrontendHandler.tags, FrontendHandler.sending, List.map_map, Function.comp_def]

theorem FrontendHandler.decideContinuation_tags :
    (fe.decideContinuation reachable).tags = fe.tags := by
  rw [FrontendHandler.tags_eq]
  cases @FrontendHandler.decideContinuation_cases reachable fe with
  | inl h => rw [h.2, FrontendHandler.tags_eq]
  | inr h => rw [h.2.2, List.map_map]; exact List.map_id _

/-- A start uses up the properties of every child. -/
theorem FrontendHandler.decideContinuation_bound (htag : tag ∈ fe.tags) :
    (fe.decideContinuation reachable).started.length +
        (fe.decideContinuation reachable).delivered tag ≤
      fe.started.length + fe.delivered tag := by
  unfold FrontendHandler.delivered
  cases @FrontendHandler.decideContinuation_cases reachable fe with
  | inl h => rw [h.1, h.2]
  | inr h =>
    obtain ⟨ai, hai, rfl⟩ := List.mem_map.mp htag
    have hsent : (ai.tag, true) ∈ fe.sending :=
      List.mem_map.mpr ⟨ai, hai, by rw [h.1 ai hai]⟩
    have hunsent : (ai.tag, true) ∉ (fe.decideContinuation reachable).sending := by
      rw [h.2.2]
      intro hmem
      obtain ⟨tag, -, heq⟩ := List.mem_map.mp hmem
      cases heq
    rw [if_pos hsent, if_neg hunsent]
    exact h.2.1

theorem FrontendHandler.onStatus_sending {status : SearchStatus} {child : String} :
    ({ fe with childAgents := setSearchStatus child status fe.childAgents } :
      FrontendHandler).sending = fe.sending :=
  setSearchStatus_map fun _ => rfl

theorem FrontendHandler.onStatus_keeps {status : SearchStatus} {child : String} :
    (fe.onStatus reachable status child).tags = fe.tags ∧
      (tag ∈ fe.tags → (fe.onStatus reachable status child).started.length +
        (fe.onStatus reachable status child).delivered tag ≤
          fe.started.length + fe.delivered tag) := by
  have hsending := @FrontendHandler.onStatus_sending fe status child
  have htags : ({ fe with childAgents := setSearchStatus child status fe.childAgents } :
      FrontendHandler).tags = fe.tags := by
    rw [FrontendHandler.tags_eq, hsending, FrontendHandler.tags_eq]
  refine ⟨FrontendHandler.decideContinuation_tags.trans htags, fun htag => ?_⟩
  have hbound := @FrontendHandler.decideContinuation_bound reachable
    { fe with childAgents := setSearchStatus child status fe.childAgents } tag
    (htags ▸ htag)
  rw [FrontendHandler.delivered, FrontendHandler.delivered, hsending] at hbound
  exact hbound

theorem FrontendHandler.onPropertiessent_keeps {child : String} :
    (fe.onPropertiessent reachable child).tags = fe.tags ∧
      (tag ∈ fe.tags → (fe.onPropertiessent reachable child).started.length +
        (fe.onPropertiessent reachable child).delivered tag ≤
          fe.started.length + fe.delivered tag + if child = tag then 1 else 0) := by
  obtain ⟨next, hnext⟩ : ∃ next : FrontendHandler, next = { fe with
      childAgents := fe.childAgents.map fun ai =>
        if ai.tag = child then { ai with propertiesSent := true } else ai } := ⟨_, rfl⟩
  have htags : next.tags = fe.tags := by
    rw [hnext, FrontendHandler.tags, FrontendHandler.tags, List.map_map]
    apply List.map_congr_left
    intro ai _
    rw [Function.comp_apply]
    split <;> rfl
  have hdelivered : next.started.length + next.delivered tag ≤
      fe.started.length + fe.delivered tag + if child = tag then 1 else 0 := by
    have hstarted : next.started = fe.started := by rw [hnext]; rfl
    rw [hstarted]
    by_cases hchild : child = tag
    · rw [if_pos hchild, FrontendHandler.delivered]
      split <;> omega
    · have hmem : (tag, true) ∈ next.sending → (tag, true) ∈ fe.sending := by
        intro h
        rw [hnext] at h
        obtain ⟨_, hnew, heq⟩ := List.mem_map.mp h
        obtain ⟨ai, hai, rfl⟩ := List.mem_map.mp hnew
        by_cases hother : ai.tag = child
        · rw [if_pos hother, Prod.mk.injEq] at heq
          exact absurd (hother.symm.trans heq.1) hchild
        · rw [if_neg hother] at heq
          exact List.mem_map.mpr ⟨ai, hai, heq⟩
      rw [if_neg hchild, FrontendHandler.delivered, FrontendHandler.delivered]
      split
      · rename_i h
        rw [if_pos (hmem h)]
      · omega
  simp only [FrontendHandler.onPropertiessent, ← hnext]
  split
  · refine ⟨FrontendHandler.decideContinuation_tags.trans htags, fun htag => ?_⟩
    have hbound := @FrontendHandler.decideContinuation_bound reachable next tag (htags ▸ htag)
    omega
  · exact ⟨htags, fun _ => hdelivered⟩

/-- One message starts a child only at the expense of properties that were sent. -/
theorem FrontendHandler.receive_keeps {message : Message} :
    (fe.receive reachable message).tags = fe.tags ∧
      (tag ∈ fe.tags → (fe.receive reachable message).started.length +
        (fe.receive reachable message).delivered tag ≤
          fe.started.length + fe.delivered tag + [message].count (.propertiessent tag)) := by
  cases message with
  | request request child =>
    have hkeeps := fun status => @FrontendHandler.onStatus_keeps reachable fe tag status child
    cases request with
    | searchfinished => exact hkeeps .finished
    | reqexperiment => exact hkeeps .reqexperiment
    | needrestart => exact hkeeps .reqrestart
  | propertiessent child =>
    have hkeeps := @FrontendHandler.onPropertiessent_keeps reachable fe tag child
    simp only [List.count_singleton, beq_iff_eq, Message.propertiessent.injEq]
    exact hkeeps

/-- Over any messages, a child's properties allow one start. -/
theorem FrontendHandler.run_keeps {messages : List Message} (htag : tag ∈ fe.tags) :
    (messages.foldl (FrontendHandler.receive reachable) fe).started.length +
        (messages.foldl (FrontendHandler.receive reachable) fe).delivered tag ≤
      fe.started.length + fe.delivered tag + messages.count (.propertiessent tag) := by
  induction messages generalizing fe with
  | nil => exact Nat.le_refl _
  | cons message rest ih =>
    obtain ⟨htags, hbound⟩ := @FrontendHandler.receive_keeps reachable fe tag message
    have hrest := @ih (fe.receive reachable message) (htags ▸ htag)
    have hfirst := hbound htag
    rw [← List.singleton_append, List.count_append]
    rw [List.foldl_append, List.foldl_cons, List.foldl_nil]
    omega

end Runs

section Single
variable {reachable : String → ℤ → Bool} {fe : FrontendHandler} {ai : AgentInfo}

/-- The decision on the request of an only child. -/
theorem FrontendHandler.decideContinuation_single (hchild : fe.childAgents = [ai])
    (hstatus : ai.searchStatus = .reqexperiment) (hsent : ai.propertiesSent = true) :
    (fe.starts reachable ai →
      (fe.decideContinuation reachable).started = fe.started ++ [ai.tag] ∧
      ∀ child ∈ (fe.decideContinuation reachable).childAgents, child.searchStatus = .undefined) ∧
    (¬fe.starts reachable ai →
      (fe.decideContinuation reachable).started = fe.started) := by
  have hdecide : fe.decideContinuation reachable =
      { fe with restartRequestedForNoTuning := false }.enforce reachable .reqexperiment := by
    simp only [FrontendHandler.decideContinuation, hchild, prioritize, hstatus, and_self, if_true,
      List.all_cons, List.all_nil, hsent, Bool.and_self]
  rw [hdecide]
  unfold FrontendHandler.enforce FrontendHandler.starts
  cases hinst : fe.instrumentation.checkForReinstrumentation with
  | true =>
    simp only [FrontendHandler.resetPropertiesSent, hinst, if_true]
    refine ⟨fun h => (by cases h.2.2), fun _ => ?_⟩
    exact FrontendHandler.restart_keeps.1
  | false =>
    simp only [FrontendHandler.resetPropertiesSent, hinst, Bool.false_eq_true, if_false, hchild,
      FrontendHandler.clearRequiredRegionsList, FrontendHandler.startExperiment, List.map_cons,
      List.map_nil, startFirst, connectToChild_eq]
    unfold AgentInfo.connectable
    by_cases hconnected : ai.status = .connected
    · simp [hconnected, FrontendHandler.started]
    · by_cases hconnectable : (ai.handler || reachable ai.hostname ai.port) = true
      · simp [hconnected, hconnectable, FrontendHandler.started, Action.started]
      · simp [hconnected, hconnectable, FrontendHandler.started]

/-- The decision that ends a round of an only child: its request and its properties are
there, and nothing was started before. -/
structure FrontendHandler.Deciding (reachable : String → ℤ → Bool) (fe : FrontendHandler)
    (ai : AgentInfo) (next : FrontendHandler) (last : AgentInfo) : Prop where
  child : next.childAgents = [last]
  tag : last.tag = ai.tag
  status : last.searchStatus = .reqexperiment
  sent : last.propertiesSent = true
  starts : next.starts reachable last ↔ fe.starts reachable ai
  started : next.started = fe.started

/-- The child's request arrives last. -/
theorem FrontendHandler.request_last (hchild : fe.childAgents = [ai])
    (hundefined : ai.searchStatus = .undefined) :
    ∃ next last, FrontendHandler.Deciding reachable fe ai next last ∧
      (fe.onPropertiessent reachable ai.tag).onReqexperiment reachable ai.tag =
        next.decideContinuation reachable := by
  have hfirst : fe.onPropertiessent reachable ai.tag =
      { fe with
        childAgents := [{ ai with propertiesSent := true }]
        restartRequestedForNoTuning := false } := by
    simp [FrontendHandler.onPropertiessent, FrontendHandler.decideContinuation, hchild,
      prioritize, hundefined]
  rw [hfirst]
  exact ⟨{ fe with
      childAgents := [{ ai with propertiesSent := true, searchStatus := .reqexperiment }]
      restartRequestedForNoTuning := false }, _, ⟨rfl, rfl, rfl, rfl, Iff.rfl, rfl⟩,
    by simp only [FrontendHandler.onReqexperiment, FrontendHandler.onStatus, setSearchStatus,
      if_true]⟩

/-- The child's properties arrive last, after the frontend has asked for them. -/
theorem FrontendHandler.properties_last (hchild : fe.childAgents = [ai])
    (hunsent : ai.propertiesSent = false) :
    ∃ next last, FrontendHandler.Deciding reachable fe ai next last ∧
      (fe.onReqexperiment reachable ai.tag).onPropertiessent reachable ai.tag =
        next.decideContinuation reachable := by
  have hfirst : fe.onReqexperiment reachable ai.tag =
      { fe with
        childAgents := [{ ai with searchStatus := .reqexperiment }]
        restartRequestedForNoTuning := false }.loop reachable id .check := by
    simp [FrontendHandler.onReqexperiment, FrontendHandler.onStatus, setSearchStatus,
      FrontendHandler.decideContinuation, hchild, prioritize, hunsent]
  -- asking makes the connection that the start would make
  have hloop : ∃ handler, (fe.onReqexperiment reachable ai.tag).childAgents = [{ ai with
        searchStatus := .reqexperiment
        handler := handler }] ∧
      (ai.status ≠ .connected → (handler || reachable ai.hostname ai.port) =
        ai.connectable reachable) := by
    rw [hfirst]
    simp only [FrontendHandler.loop, forChildren, connectToChild_eq]
    by_cases hconnected : ai.status = .connected
    · exact ⟨ai.handler, by simp [hconnected], fun h => absurd hconnected h⟩
    · by_cases hconnectable : (ai.handler || reachable ai.hostname ai.port) = true
      · exact ⟨true, by simp [hconnected, AgentInfo.connectable, hconnectable],
          fun _ => hconnectable.symm⟩
      · exact ⟨ai.handler, by simp [hconnected, AgentInfo.connectable, hconnectable],
          fun _ => rfl⟩
  obtain ⟨handler, hagents, hhandler⟩ := hloop
  have hstarted : (fe.onReqexperiment reachable ai.tag).started = fe.started := by
    rw [hfirst]
    exact (FrontendHandler.loop_keeps (fun _ => ⟨rfl, rfl⟩) fun _ => rfl).1
  have hinst : (fe.onReqexperiment reachable ai.tag).instrumentation = fe.instrumentation := by
    rw [hfirst]
    rfl
  refine ⟨{ fe.onReqexperiment reachable ai.tag with childAgents := [{ ai with
    propertiesSent := true
    searchStatus := .reqexperiment
    handler := handler }] }, _, ⟨rfl, rfl, rfl, rfl, ?_, hstarted⟩, ?_⟩
  · rw [FrontendHandler.starts, FrontendHandler.starts, hinst]
    exact and_congr_right fun h => by rw [← hhandler h]; rfl
  · simp [FrontendHandler.onPropertiessent, hagents]

theorem perm_two {α : Type} {a b : α} {l : List α} (h : l.Perm [a, b]) :
    l = [a, b] ∨ l = [b, a] := by
  obtain ⟨c, d, rfl⟩ := List.length_eq_two.mp h.length_eq
  cases List.mem_pair.mp (h.subset List.mem_cons_self) with
  | inl hc =>
    rw [hc] at h ⊢
    rw [List.singleton_perm_singleton.mp h.cons_inv]
    exact .inl rfl
  | inr hc =>
    rw [hc] at h ⊢
    rw [List.singleton_perm_singleton.mp (h.trans (.swap b a [])).cons_inv]
    exact .inr rfl

/-- Whatever the order of its two messages, an only child is started once or not at all. -/
theorem FrontendHandler.run_single {messages : List Message} (hchild : fe.childAgents = [ai])
    (hundefined : ai.searchStatus = .undefined) (hunsent : ai.propertiesSent = false)
    (hmessages : fe.Requests messages) :
    (fe.starts reachable ai →
      (messages.foldl (FrontendHandler.receive reachable) fe).started = fe.started ++ [ai.tag] ∧
      ∀ child ∈ (messages.foldl (FrontendHandler.receive reachable) fe).childAgents,
        child.searchStatus = .undefined) ∧
    (¬fe.starts reachable ai →
      (messages.foldl (FrontendHandler.receive reachable) fe).started = fe.started) := by
  rw [FrontendHandler.Requests, FrontendHandler.tags, hchild] at hmessages
  have hlast : ∃ next last, FrontendHandler.Deciding reachable fe ai next last ∧
      messages.foldl (FrontendHandler.receive reachable) fe =
        next.decideContinuation reachable := by
    cases perm_two hmessages with
    | inl h => rw [h]; exact FrontendHandler.properties_last hchild hunsent
    | inr h => rw [h]; exact FrontendHandler.request_last hchild hundefined
  obtain ⟨next, last, hnext, hrun⟩ := hlast
  rw [hrun, ← hnext.starts, ← hnext.started, ← hnext.tag]
  exact FrontendHandler.decideContinuation_single hnext.child hnext.status hnext.sent

theorem FrontendHandler.Fresh.delivered (h : fe.Fresh) (tag : String) :
    fe.delivered tag = 0 := by
  refine if_neg fun hmem => ?_
  obtain ⟨child, hchild, heq⟩ := List.mem_map.mp hmem
  rw [Prod.mk.injEq, h.unsent child hchild] at heq
  cases heq.2

/-- In a round every child sends its properties once. -/
theorem FrontendHandler.Requests.count_propertiessent {messages : List Message} {tag : String}
    (h : fe.Requests messages) (hfresh : fe.Fresh) (htag : tag ∈ fe.tags) :
    messages.count (.propertiessent tag) = 1 := by
  rw [h.count_eq, List.count_append, List.count_eq_zero_of_not_mem,
    List.count_map_of_injective, List.count_eq_one_of_mem hfresh.tags htag]
  · intro a b heq
    cases heq
    rfl
  · intro hmem
    obtain ⟨_, _, heq⟩ := List.mem_map.mp hmem
    cases heq

/-- A round of requests starts every child exactly when there is one child at most, which can
be started. -/
theorem FrontendHandler.restarted_iff {messages : List Message} (hfresh : fe.Fresh)
    (hmessages : fe.Requests messages) :
    fe.Restarted (messages.foldl (FrontendHandler.receive reachable) fe) ↔
      fe.childAgents = [] ∨ ∃ ai, fe.childAgents = [ai] ∧ fe.starts reachable ai := by
  refine ⟨fun h => ?_, fun h => ?_⟩
  · cases hagents : fe.childAgents with
    | nil => exact .inl rfl
    | cons ai rest =>
      have htag : ai.tag ∈ fe.tags := by
        rw [FrontendHandler.tags, hagents]
        exact List.mem_cons_self
      have hundelivered := hfresh.delivered ai.tag
      have hcount := hmessages.count_propertiessent hfresh htag
      have hbound := @FrontendHandler.run_keeps reachable fe ai.tag messages htag
      have hlength := h.1.length_eq
      rw [List.length_append, FrontendHandler.tags, List.length_map, hagents,
        List.length_cons] at hlength
      have hrest : rest = [] := List.eq_nil_of_length_eq_zero (by omega)
      rw [hrest] at hagents ⊢
      refine .inr ⟨ai, rfl, ?_⟩
      by_contra hstarts
      have hrun := (FrontendHandler.run_single hagents
        (hfresh.undefined ai (hagents ▸ List.mem_cons_self))
        (hfresh.unsent ai (hagents ▸ List.mem_cons_self)) hmessages).2 hstarts
      rw [hrun] at hlength
      omega
  · cases h with
    | inl hagents =>
      rw [FrontendHandler.Requests, FrontendHandler.tags, hagents] at hmessages
      rw [List.perm_nil.mp hmessages, List.foldl_nil, FrontendHandler.Restarted,
        FrontendHandler.tags, hagents, List.map_nil, List.append_nil]
      exact ⟨.refl _, fun _ h => by cases h⟩
    | inr h =>
      obtain ⟨ai, hagents, hstarts⟩ := h
      have hrun := (FrontendHandler.run_single hagents
        (hfresh.undefined ai (hagents ▸ List.mem_cons_self))
        (hfresh.unsent ai (hagents ▸ List.mem_cons_self)) hmessages).1 hstarts
      refine ⟨?_, hrun.2⟩
      rw [hrun.1, FrontendHandler.tags, hagents]
      exact .refl _

end Single

def FrontendHandler.ofTags (tags : List String) : FrontendHandler :=
  ⟨tags.map AgentInfo.ofTag, ⟨false, "", [], false, false, [], []⟩, true, false, false, false,
    false, []⟩

/-- A frontend with one child, which reports before it sends its properties. -/
theorem FrontendHandler.restarted_iff_one :
    FrontendHandler.Restarted (.ofTags ["a"])
      ([.request .reqexperiment "a", .propertiessent "a"].foldl
        (FrontendHandler.receive fun _ _ => true) (.ofTags ["a"])) :=
  (FrontendHandler.restarted_iff ⟨by decide, by decide, by decide⟩ (.refl _)).mpr
    (.inr ⟨.ofTag "a", rfl, by decide, rfl, rfl⟩)

/-- With two children the second one is not started. -/
theorem FrontendHandler.not_restarted :
    (FrontendHandler.ofTags ["a", "b"]).Fresh ∧
    (FrontendHandler.ofTags ["a", "b"]).Requests
      [.request .reqexperiment "a", .request .reqexperiment "b", .propertiessent "a",
        .propertiessent "b"] ∧
    ¬FrontendHandler.Restarted (.ofTags ["a", "b"])
      ([.request .reqexperiment "a", .request .reqexperiment "b", .propertiessent "a",
        .propertiessent "b"].foldl
          (FrontendHandler.receive fun _ _ => true) (.ofTags ["a", "b"])) :=
  ⟨⟨by decide, by decide, by decide⟩, .refl _, fun h => absurd h.2 (by decide +kernel)⟩

end ReadexPtf.Agents
