import ReadexPtf.Agents.HierarchyRuns
import Mathlib

/-! Rounds of the hierarchy: in each one every high-level agent sends one request, and the
highest request of the analysis agents reaches the frontend. -/
namespace ReadexPtf.Agents

section Deliveries
variable {forest : Forest String} {reachable : String → ℤ → Bool} {agents : Hierarchy}

/-- The request of a child arrives: it is recorded in the table of the parent. -/
def Hierarchy.record (agents : Hierarchy) (parent child : String) (request : Request) :
    Hierarchy :=
  Function.update (Function.update agents child (agents child).report) parent
    { agents parent with
      childAgents := setSearchStatus child request.searchStatus (agents parent).childAgents }

theorem Hierarchy.deliver_eq {parent child : String} {request : Request} :
    agents.deliver parent child request =
      Function.update (agents.record parent child request) parent
        (agents.record parent child request parent).forwardRequest := by
  rw [Hierarchy.deliver, Hierarchy.record, Function.update_self, Function.update_idem]
  cases request <;> rfl

theorem Agent.report_reported {agent : Agent} {request : Request}
    (h : request ∈ agent.requests.head?) :
    agent.report.reported = agent.reported ++ [request] := by
  rw [Agent.report]
  cases hrequests : agent.requests with
  | nil => rw [hrequests] at h; cases h
  | cons first rest =>
    rw [hrequests, List.head?_cons, Option.mem_some_iff] at h
    rw [h]
    rfl

/-- What recording a request changes. -/
structure Hierarchy.Records (agents : Hierarchy) (parent child : String) (request : Request)
    (next : Hierarchy) : Prop where
  sent : ∀ other, (next other).sent = (agents other).sent
  begun : ∀ other, (next other).begun = (agents other).begun
  commanded : ∀ other, (next other).commanded = (agents other).commanded
  owed : ∀ other, (next other).owed = (agents other).owed
  childAgents : ∀ other, other ≠ parent →
    (next other).childAgents = (agents other).childAgents
  table : (next parent).childAgents =
    setSearchStatus child request.searchStatus (agents parent).childAgents
  others : ∀ other, other ≠ child → (next other).reported = (agents other).reported
  reported : (next child).reported = (agents child).reported ++ [request]

theorem Hierarchy.record_records {parent child : String} {request : Request}
    (hchild : child ∈ forest.children parent)
    (hrequest : request ∈ (agents child).requests.head?) :
    agents.Records parent child request (agents.record parent child request) := by
  have hne : child ≠ parent := Forest.ne_of_mem hchild
  have hself : agents.record parent child request child = (agents child).report := by
    rw [Hierarchy.record, Function.update_of_ne hne, Function.update_self]
  have hparent : agents.record parent child request parent = { agents parent with
      childAgents := setSearchStatus child request.searchStatus (agents parent).childAgents } :=
    Function.update_self _ _ _
  have hother : ∀ other, other ≠ parent → other ≠ child →
      agents.record parent child request other = agents other := by
    intro other h h'
    rw [Hierarchy.record, Function.update_of_ne h, Function.update_of_ne h']
  -- a property that neither change touches holds of all agents
  have hall : ∀ {α : Type} (f : Agent → α), f (agents child).report = f (agents child) →
      f { agents parent with
        childAgents := setSearchStatus child request.searchStatus
          (agents parent).childAgents } = f (agents parent) →
      ∀ other, f (agents.record parent child request other) = f (agents other) := by
    intro α f hf hf' other
    by_cases h : other = parent
    · rw [h, hparent]
      exact hf'
    · by_cases h' : other = child
      · rw [h', hself]
        exact hf
      · rw [hother other h h']
  refine ⟨?_, ?_, ?_, ?_, ?_, ?_, ?_, ?_⟩
  · exact hall Agent.sent Agent.sent_report rfl
  · exact hall Agent.begun rfl rfl
  · exact hall Agent.commanded rfl rfl
  · exact hall Agent.owed (by rw [Agent.owed, Agent.sent_report]; rfl) rfl
  · intro other h
    by_cases h' : other = child
    · rw [h', hself]
      rfl
    · rw [hother other h h']
  · rw [hparent]
  · intro other h'
    by_cases h : other = parent
    · rw [h, hparent]
    · rw [hother other h h']
  · rw [hself]
    exact Agent.report_reported hrequest

/-- A child with a request on its way has reported as often as its parent has sent. -/
theorem Hierarchy.Sound.level (h : agents.Sound forest) {parent child : String}
    {request : Request} (hchild : child ∈ forest.children parent)
    (hrequest : request ∈ (agents child).requests.head?) :
    (agents child).reported.length = (agents parent).sent.length := by
  have hpositive : 0 < (agents child).requests.length := by
    cases hrequests : (agents child).requests with
    | nil => rw [hrequests] at hrequest; cases hrequest
    | cons first rest => exact Nat.succ_pos _
  have hsent := h.sent_le child
  have hlower := h.reported parent child hchild
  have hcommanded := h.commanded parent child hchild
  have hturn := h.turn parent
  have hparent := (agents parent).reported_le_sent
  rw [Agent.sent_length] at hsent
  unfold Agent.commanded at hcommanded hturn
  omega

theorem Hierarchy.Invariant.record (h : agents.Invariant forest) {parent child : String}
    {request : Request} (hchild : child ∈ forest.children parent)
    (hrequest : request ∈ (agents child).requests.head?) :
    Hierarchy.Sound forest (agents.record parent child request) ∧
      ∀ other, ¬forest.Leaf other → other ≠ parent →
        Hierarchy.Waits forest (agents.record parent child request) other := by
  have hrecords := Hierarchy.record_records hchild hrequest
  have hlevel := h.sound.level hchild hrequest
  obtain ⟨next, hnext⟩ : ∃ next, next = agents.record parent child request := ⟨_, rfl⟩
  rw [← hnext] at hrecords ⊢
  have hsiblings : ∀ other, other ≠ parent → ∀ c ∈ forest.children other,
      (next c).reported = (agents c).reported := by
    intro other hother c hc
    refine hrecords.others c ?_
    intro heq
    exact hother (forest.parent_unique (heq ▸ hc) hchild)
  have hlonger : ∀ c, (agents c).reported.length ≤ (next c).reported.length := by
    intro c
    by_cases hc : c = child
    · rw [hc, hrecords.reported, List.length_append]
      exact Nat.le_add_right _ _
    · rw [hrecords.others c hc]
  refine ⟨⟨?_, ?_, ?_, ?_, ?_⟩, ?_⟩
  · intro other
    rw [hrecords.commanded]
    exact (h.sound.turn other).trans (Nat.add_le_add_right (hlonger other) 1)
  · intro p c hc
    rw [hrecords.commanded, hrecords.begun]
    exact h.sound.commanded p c hc
  · intro p c hc
    rw [hrecords.sent]
    exact (h.sound.reported p c hc).trans (hlonger c)
  · intro leaf hleaf
    rw [hrecords.owed, hrecords.begun]
    exact h.sound.leaf leaf hleaf
  · intro other hother
    have hcollects := h.sound.inner other hother
    by_cases heq : other = parent
    · rw [heq] at hcollects ⊢
      refine ⟨?_, ?_, ?_⟩
      · rw [hrecords.table, setSearchStatus_view (forest.nodup parent) hcollects.view,
          hrecords.sent]
        apply List.map_congr_left
        intro c hc
        by_cases hsame : c = child
        · rw [if_pos hsame, hsame, hrecords.reported, ← hlevel,
            List.getElem?_concat_length]
          rfl
        · rw [if_neg hsame, hrecords.others c hsame]
      · rw [hrecords.sent, hrecords.begun]
        exact hcollects.begun
      · intro round r hr
        rw [hrecords.sent] at hr
        have hround : round < (agents child).reported.length := by
          rw [hlevel]
          exact (List.getElem?_eq_some_iff.mp hr).1
        -- earlier rounds of the child stay as they are
        have hvalue : ∀ c, (next c).reported[round]? = (agents c).reported[round]? := by
          intro c
          by_cases hsame : c = child
          · rw [hsame, hrecords.reported, List.getElem?_append_left hround]
          · rw [hrecords.others c hsame]
        simp only [hvalue]
        exact hcollects.greatest round r hr
    · refine Hierarchy.Collects.congr ⟨?_, ?_, ?_⟩ (hsiblings other heq)
      · rw [hrecords.childAgents other heq, hrecords.sent]
        exact hcollects.view
      · rw [hrecords.sent, hrecords.begun]
        exact hcollects.begun
      · rw [hrecords.sent]
        exact hcollects.greatest
  · intro other hother hne
    obtain ⟨c, hc, hle⟩ := h.waits other hother
    refine ⟨c, hc, ?_⟩
    rw [hsiblings other hne c hc, hrecords.sent]
    exact hle

/-- The parent's request for a round is the highest of its children's. -/
theorem Hierarchy.Collects.send {tag : String} (hinner : ¬forest.Leaf tag)
    (h : agents.Collects forest tag (agents tag))
    (hbegun : (agents tag).sent.length + 1 ≤ (agents tag).begun)
    (hbound : ∀ child ∈ forest.children tag,
      (agents child).reported.length = (agents tag).sent.length + 1)
    {table : List AgentInfo} {agent : Agent}
    (htable : table = (agents tag).childAgents.map fun ai =>
      { ai with searchStatus := .undefined })
    (hagent : agent = { (agents tag).send (highest ((forest.children tag).filterMap fun child =>
      (agents child).reported[(agents tag).sent.length]?)) with childAgents := table }) :
    agents.Collects forest tag agent := by
  have hsent : agent.sent = (agents tag).sent ++ [highest ((forest.children tag).filterMap
      fun child => (agents child).reported[(agents tag).sent.length]?)] := by
    rw [hagent]
    change ((agents tag).send _).sent = _
    exact Agent.sent_send
  have hlength : agent.sent.length = (agents tag).sent.length + 1 := by
    rw [hsent, List.length_append]
    rfl
  refine ⟨?_, ?_, ?_⟩
  · have hview := congrArg (List.map fun entry : String × SearchStatus =>
      (entry.1, SearchStatus.undefined)) h.view
    rw [List.map_map, List.map_map] at hview
    have hchildAgents : agent.childAgents = table := by rw [hagent]
    rw [hchildAgents, htable, List.map_map]
    refine hview.trans ?_
    apply List.map_congr_left
    intro child hchild
    rw [Function.comp_apply, hlength, ← hbound child hchild, List.getElem?_length]
    rfl
  · rw [hlength, hagent]
    exact hbegun
  · intro round r hr
    by_cases hround : round < (agents tag).sent.length
    · rw [hsent, List.getElem?_append_left hround] at hr
      exact h.greatest round r hr
    · have hlast : round = (agents tag).sent.length := by
        have hlt := (List.getElem?_eq_some_iff.mp hr).1
        omega
      rw [hsent, hlast, List.getElem?_concat_length, Option.some.injEq] at hr
      rw [hlast, ← hr]
      have hne : (forest.children tag).filterMap (fun child =>
          (agents child).reported[(agents tag).sent.length]?) ≠ [] := by
        obtain ⟨child, hchild⟩ := List.exists_mem_of_ne_nil _ hinner
        have hlt : (agents tag).sent.length < (agents child).reported.length := by
          rw [hbound child hchild]
          exact Nat.lt_succ_self _
        exact List.ne_nil_of_mem (List.mem_filterMap.mpr
          ⟨child, hchild, List.getElem?_eq_getElem hlt⟩)
      have hgreatest := isGreatest_highest hne
      simp only [List.mem_filterMap] at hgreatest
      exact hgreatest

theorem Hierarchy.Sound.forwardRequest (h : agents.Sound forest) {tag : String}
    (hinner : ¬forest.Leaf tag)
    (hwaits : ∀ other, ¬forest.Leaf other → other ≠ tag → agents.Waits forest other) :
    Hierarchy.Invariant forest
      (Function.update agents tag (agents tag).forwardRequest) := by
  have hcollects := h.inner tag hinner
  by_cases hmissing : agents.Waits forest tag
  · have hnone : ∃ child ∈ forest.children tag,
        (agents child).reported[(agents tag).sent.length]? = none := by
      obtain ⟨child, hchild, hle⟩ := hmissing
      exact ⟨child, hchild, List.getElem?_eq_none hle⟩
    rw [Agent.forwardRequest_waits hcollects.view hnone, Function.update_eq_self]
    refine ⟨h, ?_⟩
    intro other hother
    by_cases heq : other = tag
    · rw [heq]
      exact hmissing
    · exact hwaits other hother heq
  · have hahead : ∀ child ∈ forest.children tag,
        (agents tag).sent.length < (agents child).reported.length := by
      intro child hchild
      by_contra hle
      exact hmissing ⟨child, hchild, Nat.le_of_not_lt hle⟩
    have hsome : ∀ child ∈ forest.children tag,
        (agents child).reported[(agents tag).sent.length]? ≠ none := by
      intro child hchild hnone
      have hle := List.getElem?_eq_none_iff.mp hnone
      have hlt := hahead child hchild
      omega
    have hlevel : ∀ child ∈ forest.children tag,
        (agents child).reported.length = (agents tag).sent.length + 1 := by
      intro child hchild
      exact Nat.le_antisymm (h.reported_le hchild) (hahead child hchild)
    obtain ⟨child, hchild⟩ := List.exists_mem_of_ne_nil _ hinner
    have hbegun : (agents tag).sent.length + 1 ≤ (agents tag).begun := by
      have hsent := h.sent_le child
      have hreported := (agents child).reported_le_sent
      have hcommanded := h.commanded tag child hchild
      rw [← hlevel child hchild]
      unfold Agent.commanded at hcommanded
      omega
    have hsends := Agent.forwardRequest_sends hcollects.view hsome
    obtain ⟨agent, hagent⟩ : ∃ agent, agent = (agents tag).forwardRequest := ⟨_, rfl⟩
    have hnext := hcollects.send hinner hbegun hlevel rfl (hagent.trans hsends)
    rw [← hagent]
    rw [← hagent] at hsends
    have hsent : agent.sent.length = (agents tag).sent.length + 1 := by
      rw [hsends]
      change ((agents tag).send _).sent.length = _
      rw [Agent.sent_send, List.length_append]
      rfl
    refine ⟨h.update ?_ ?_ ?_ ?_ fun _ => hnext, ?_⟩
    · rw [hsends]
      exact h.turn tag
    · intro parent hparent
      rw [hsends]
      exact ⟨h.commanded parent tag hparent, rfl⟩
    · intro child hchild
      rw [hsent]
      refine ⟨?_, hahead child hchild⟩
      rw [hsends]
      exact h.commanded tag child hchild
    · intro hleaf
      exact absurd hleaf hinner
    · intro other hother
      have hreported : ∀ c, (Function.update agents tag agent c).reported =
          (agents c).reported := by
        intro c
        by_cases hc : c = tag
        · rw [hc, Function.update_self, hsends]
          rfl
        · rw [Function.update_of_ne hc]
      by_cases heq : other = tag
      · rw [heq]
        refine ⟨child, hchild, ?_⟩
        rw [hreported, Function.update_self, hsent]
        exact h.reported_le hchild
      · obtain ⟨c, hc, hle⟩ := hwaits other hother heq
        refine ⟨c, hc, ?_⟩
        rw [hreported, Function.update_of_ne heq]
        exact hle

theorem Hierarchy.Invariant.deliver (h : agents.Invariant forest) {parent child : String}
    {request : Request} (hchild : child ∈ forest.children parent)
    (hrequest : request ∈ (agents child).requests.head?) :
    Hierarchy.Invariant forest (agents.deliver parent child request) := by
  obtain ⟨hsound, hwaits⟩ := h.record hchild hrequest
  rw [Hierarchy.deliver_eq]
  refine hsound.forwardRequest ?_ hwaits
  intro hleaf
  rw [hleaf] at hchild
  cases hchild

theorem Hierarchy.Invariant.step {next : Hierarchy} (h : agents.Invariant forest)
    (hstep : Hierarchy.Step forest reachable agents next) : next.Invariant forest := by
  cases hstep with
  | command root command hroot hturn => exact h.command hroot hturn
  | forward agent command hinner hcommand => exact h.forward hinner hcommand
  | handle leaf command delayed state hleaf hcommand => exact h.handle hleaf hcommand
  | evaluate leaf evaluation hleaf => exact h.evaluate hleaf
  | delivers hdelivers =>
    cases hdelivers with
    | deliver parent child request hchild hrequest => exact h.deliver hchild hrequest
    | arrive root request hroot hrequest => exact h.arrive hroot

theorem Hierarchy.Reachable.invariant (h : agents.Reachable forest reachable) :
    agents.Invariant forest := by
  induction h with
  | initial h => exact h.invariant
  | step _ hstep ih => exact ih.step hstep

end Deliveries

section Rounds
variable {forest : Forest String} {reachable : String → ℤ → Bool} {agents : Hierarchy}

/-- An agent's request for a round is there exactly when all children have reported. -/
theorem Hierarchy.Invariant.sends_iff (h : agents.Invariant forest) {tag : String}
    (hinner : ¬forest.Leaf tag) {round : ℕ} :
    round < (agents tag).sent.length ↔
      ∀ child ∈ forest.children tag, round < (agents child).reported.length := by
  refine ⟨fun hround child hchild => ?_, fun hall => ?_⟩
  · exact hround.trans_le (h.sound.reported tag child hchild)
  · obtain ⟨child, hchild, hle⟩ := h.waits tag hinner
    exact (hall child hchild).trans_le hle

theorem Hierarchy.Invariant.once (h : agents.Invariant forest) (tag : String) :
    (agents tag).sent.length ≤ (agents tag).begun ∧
      (agents tag).begun ≤ (agents tag).sent.length + 1 := by
  have hturn := h.sound.turn tag
  have hsent := (agents tag).reported_le_sent
  unfold Agent.commanded at hturn
  exact ⟨h.sound.sent_le tag, by omega⟩

/-- What an agent has sent in a round is the highest of what the leaves under it have sent. -/
theorem Hierarchy.Invariant.greatest (h : agents.Invariant forest) {round : ℕ} :
    ∀ tag r, (agents tag).sent[round]? = some r →
      (∀ leaf, forest.Leaf leaf → forest.Below tag leaf →
        ∃ q, (agents leaf).sent[round]? = some q) ∧
      IsGreatest { q | ∃ leaf, forest.Leaf leaf ∧ forest.Below tag leaf ∧
        (agents leaf).sent[round]? = some q } r := by
  refine Forest.isGreatest_leaves ?_
  intro tag r hinner hr
  have hreported : ∀ child ∈ forest.children tag,
      (agents child).sent[round]? = (agents child).reported[round]? ∧
        round < (agents child).reported.length := by
    intro child hchild
    have hround := (h.sends_iff hinner).mp (List.getElem?_eq_some_iff.mp hr).1 child hchild
    exact ⟨List.getElem?_append_left hround, hround⟩
  refine ⟨fun child hchild => ?_, ?_⟩
  · obtain ⟨heq, hround⟩ := hreported child hchild
    exact ⟨_, heq.trans (List.getElem?_eq_getElem hround)⟩
  · have hgreatest := (h.sound.inner tag hinner).greatest round r hr
    have hset : { q | ∃ child ∈ forest.children tag, (agents child).sent[round]? = some q } =
        { q | ∃ child ∈ forest.children tag, (agents child).reported[round]? = some q } := by
      ext q
      refine exists_congr fun child => and_congr_right fun hchild => ?_
      rw [(hreported child hchild).1]
    rw [hset]
    exact hgreatest

/-- Nothing can be delivered when no request is on its way. -/
theorem Hierarchy.no_requests (hquiet : ∀ next, ¬Hierarchy.Delivers forest agents next)
    {root tag : String} (hroot : forest.Root root) (hbelow : forest.Below root tag) :
    (agents tag).requests = [] := by
  cases hrequests : (agents tag).requests with
  | nil => rfl
  | cons request rest =>
    have hrequest : request ∈ (agents tag).requests.head? := by
      rw [hrequests]
      rfl
    exfalso
    cases Relation.ReflTransGen.cases_tail hbelow with
    | inl heq => exact hquiet _ (.arrive tag request (heq ▸ hroot) hrequest)
    | inr hparent =>
      obtain ⟨parent, -, hchild⟩ := hparent
      exact hquiet _ (.deliver parent tag request hchild hrequest)

/-- When everything is delivered, a round of the leaves is a round of all agents. -/
theorem Hierarchy.Invariant.complete (h : agents.Invariant forest)
    (hquiet : ∀ next, ¬Hierarchy.Delivers forest agents next) {root : String}
    (hroot : forest.Root root) {round : ℕ}
    (hleaves : ∀ leaf, forest.Leaf leaf → forest.Below root leaf →
      round < (agents leaf).sent.length) :
    ∀ tag, forest.Below root tag → round < (agents tag).reported.length := by
  have hall : ∀ tag, forest.Below root tag →
      (agents tag).reported.length = (agents tag).sent.length := by
    intro tag hbelow
    rw [Agent.sent_length, Hierarchy.no_requests hquiet hroot hbelow]
    rfl
  intro tag
  induction tag using forest.induction with
  | hleaf tag hleaf =>
    intro hbelow
    rw [hall tag hbelow]
    exact hleaves tag hleaf hbelow
  | hinner tag hinner ih =>
    intro hbelow
    rw [hall tag hbelow]
    exact (h.sends_iff hinner).mpr fun child hchild => ih child hchild (hbelow.tail hchild)

/-- The experiments that the parents have not been told the end of. -/
def Hierarchy.backlog (forest : Forest String) (agents : Hierarchy) : ℕ :=
  ∑ tag ∈ forest.nodes, ((agents tag).begun - (agents tag).reported.length)

theorem Agent.onRequest_keeps {agent : Agent} {tag : String} {request : Request} :
    (agent.onRequest tag request).begun = agent.begun ∧
      (agent.onRequest tag request).reported = agent.reported := by
  have hforward : ∀ other : Agent, other.forwardRequest.begun = other.begun ∧
      other.forwardRequest.reported = other.reported := by
    intro other
    unfold Agent.forwardRequest
    split
    · exact ⟨rfl, rfl⟩
    · rename_i status _
      cases status <;> exact ⟨rfl, rfl⟩
  cases request <;> exact hforward _

/-- A delivery takes one experiment off the backlog. -/
theorem Hierarchy.Invariant.backlog_lt (h : agents.Invariant forest) {next : Hierarchy}
    (hdelivers : Hierarchy.Delivers forest agents next) :
    next.backlog forest < agents.backlog forest := by
  have hchange : ∃ tag ∈ forest.nodes, ∃ request, request ∈ (agents tag).requests.head? ∧
      (∀ other, (next other).begun = (agents other).begun) ∧
      (∀ other, other ≠ tag → (next other).reported = (agents other).reported) ∧
      (next tag).reported = (agents tag).reported ++ [request] := by
    cases hdelivers with
    | deliver parent child request hchild hrequest =>
      have hne : child ≠ parent := Forest.ne_of_mem hchild
      refine ⟨child, forest.children_mem hchild, request, hrequest, ?_, ?_, ?_⟩
      · intro other
        by_cases hp : other = parent
        · rw [hp, Hierarchy.deliver, Function.update_self]
          exact Agent.onRequest_keeps.1
        · rw [Hierarchy.deliver, Function.update_of_ne hp]
          by_cases hc : other = child
          · rw [hc, Function.update_self]
            rfl
          · rw [Function.update_of_ne hc]
      · intro other hc
        by_cases hp : other = parent
        · rw [hp, Hierarchy.deliver, Function.update_self]
          exact Agent.onRequest_keeps.2
        · rw [Hierarchy.deliver, Function.update_of_ne hp, Function.update_of_ne hc]
      · rw [Hierarchy.deliver, Function.update_of_ne hne, Function.update_self]
        exact Agent.report_reported hrequest
    | arrive root request hroot hrequest =>
      refine ⟨root, hroot.1, request, hrequest, ?_, ?_, ?_⟩
      · intro other
        by_cases hother : other = root
        · rw [hother, Function.update_self]
          rfl
        · rw [Function.update_of_ne hother]
      · intro other hother
        rw [Function.update_of_ne hother]
      · rw [Function.update_self]
        exact Agent.report_reported hrequest
  obtain ⟨tag, htag, request, hrequest, hbegun, hothers, hreported⟩ := hchange
  have howing : (agents tag).reported.length < (agents tag).begun := by
    have hsent := h.sound.sent_le tag
    rw [Agent.sent_length] at hsent
    have hpositive : 0 < (agents tag).requests.length := by
      cases hrequests : (agents tag).requests with
      | nil => rw [hrequests] at hrequest; cases hrequest
      | cons first rest => exact Nat.succ_pos _
    omega
  refine Finset.sum_lt_sum ?_ ⟨tag, htag, ?_⟩
  · intro other _
    rw [hbegun]
    by_cases hother : other = tag
    · rw [hother, hreported, List.length_append]
      omega
    · rw [hothers other hother]
  · rw [hbegun, hreported, List.length_append, List.length_singleton]
    omega

/-- Whatever the order, deliveries come to an end. -/
theorem Hierarchy.Invariant.terminates (h : agents.Invariant forest) :
    Acc (fun next current => Hierarchy.Delivers forest current next) agents := by
  induction hbacklog : agents.backlog forest using Nat.strong_induction_on generalizing agents with
  | _ backlog ih =>
    refine ⟨_, fun next hdelivers => ?_⟩
    have hlt := h.backlog_lt hdelivers
    have hnext : next.Invariant forest := @Hierarchy.Invariant.step forest
      (fun _ _ => false) agents next h (.delivers hdelivers)
    exact ih _ (hbacklog ▸ hlt) hnext rfl

/-- What has reached the parent in a round was sent in it. -/
theorem Agent.sent_of_reported {agent : Agent} {round : ℕ} {r : Request}
    (h : agent.reported[round]? = some r) : agent.sent[round]? = some r := by
  rw [Agent.sent, List.getElem?_append_left (List.getElem?_eq_some_iff.mp h).1]
  exact h

/-- The frontend's table decides on the highest request of the leaves under its children. -/
theorem Hierarchy.Invariant.frontend (h : agents.Invariant forest) {roots : List String}
    (hroots : roots ≠ []) {round : ℕ} {table : List AgentInfo} {status : SearchStatus}
    (hview : table.map AgentInfo.view =
      roots.map fun root => (root, statusOf (agents root).reported[round]?))
    (hstatus : prioritize .finished table = some status) :
    ∃ r : Request, status = r.searchStatus ∧
      IsGreatest { q | ∃ root ∈ roots, ∃ leaf, forest.Leaf leaf ∧ forest.Below root leaf ∧
        (agents leaf).sent[round]? = some q } r := by
  have hall : ∀ root ∈ roots, (agents root).reported[round]? ≠ none := by
    intro root hroot hnone
    have hwaits : prioritize .finished table = none :=
      prioritize_waits hview ⟨root, hroot, hnone⟩
    rw [hwaits] at hstatus
    cases hstatus
  rw [prioritize_sends hview hall, Option.some.injEq] at hstatus
  obtain ⟨values, hvalues⟩ : ∃ values,
      values = roots.filterMap fun root => (agents root).reported[round]? := ⟨_, rfl⟩
  have hne : values ≠ [] := by
    obtain ⟨root, hroot⟩ := List.exists_mem_of_ne_nil _ hroots
    obtain ⟨r, hr⟩ := Option.ne_none_iff_exists'.mp (hall root hroot)
    rw [hvalues]
    exact List.ne_nil_of_mem (List.mem_filterMap.mpr ⟨root, hroot, hr⟩)
  rw [← hvalues] at hstatus
  obtain ⟨hmem, hle⟩ := isGreatest_highest hne
  refine ⟨highest values, hstatus.symm, ?_, ?_⟩
  · have hvalue : highest values ∈ values := hmem
    rw [hvalues, List.mem_filterMap] at hvalue
    obtain ⟨root, hroot, hr⟩ := hvalue
    rw [← hvalues] at hr
    obtain ⟨leaf, hleaf, hbelow, hq⟩ := (h.greatest root _ (Agent.sent_of_reported hr)).2.1
    exact ⟨root, hroot, leaf, hleaf, hbelow, hq⟩
  · intro q ⟨root, hroot, leaf, hleaf, hbelow, hq⟩
    obtain ⟨r, hr⟩ := Option.ne_none_iff_exists'.mp (hall root hroot)
    have hroot' : r ∈ values := by
      rw [hvalues]
      exact List.mem_filterMap.mpr ⟨root, hroot, hr⟩
    exact ((h.greatest root r (Agent.sent_of_reported hr)).2.2 ⟨leaf, hleaf, hbelow, hq⟩).trans
      (hle hroot')

/-- Rounds in every reachable state, that is in any order of the messages: a high-level agent
has sent its request for a round exactly when it has handled that of each child, and one for
each command at most. What reaches the frontend, and what the frontend decides on, is the
highest request that the leaves have sent in the round. The requests of a round that all
leaves have sent get through: no order of deliveries goes on forever, and where none is left
to be made, every agent has reported. -/
theorem Hierarchy.status_rounds (h : agents.Reachable forest reachable) :
    (∀ tag, ¬forest.Leaf tag → ∀ round : ℕ, round < (agents tag).sent.length ↔
      ∀ child ∈ forest.children tag, round < (agents child).reported.length) ∧
    (∀ tag, (agents tag).sent.length ≤ (agents tag).begun ∧
      (agents tag).begun ≤ (agents tag).sent.length + 1) ∧
    (∀ root, forest.Root root → ∀ (round : ℕ) r, (agents root).reported[round]? = some r →
      (∀ leaf, forest.Leaf leaf → forest.Below root leaf →
        ∃ q, (agents leaf).sent[round]? = some q) ∧
      IsGreatest { q | ∃ leaf, forest.Leaf leaf ∧ forest.Below root leaf ∧
        (agents leaf).sent[round]? = some q } r) ∧
    (∀ roots : List String, roots ≠ [] → ∀ (round : ℕ) (table : List AgentInfo) status,
      (table.map AgentInfo.view =
        roots.map fun root => (root, statusOf (agents root).reported[round]?)) →
      prioritize .finished table = some status →
      ∃ r : Request, status = r.searchStatus ∧
        IsGreatest { q | ∃ root ∈ roots, ∃ leaf, forest.Leaf leaf ∧ forest.Below root leaf ∧
          (agents leaf).sent[round]? = some q } r) ∧
    Acc (fun next current => Hierarchy.Delivers forest current next) agents ∧
    ((∀ next, ¬Hierarchy.Delivers forest agents next) → ∀ root, forest.Root root →
      ∀ round : ℕ, (∀ leaf, forest.Leaf leaf → forest.Below root leaf →
        round < (agents leaf).sent.length) →
      ∀ tag, forest.Below root tag → round < (agents tag).reported.length) := by
  have hinv := h.invariant
  refine ⟨fun tag hinner round => hinv.sends_iff hinner, hinv.once, ?_, ?_, hinv.terminates, ?_⟩
  · intro root _ round r hr
    exact hinv.greatest root r (Agent.sent_of_reported hr)
  · intro roots hroots round table status hview hstatus
    exact hinv.frontend hroots hview hstatus
  · intro hquiet root hroot round hleaves
    exact hinv.complete hquiet hroot hleaves

end Rounds

/-- A high-level agent with one analysis agent. -/
def pairForest : Forest String where
  nodes := {"h", "a"}
  children tag := if tag = "h" then ["a"] else []
  children_mem {parent child} h := by
    split at h
    · simp [List.mem_singleton.mp h]
    · cases h
  nodup tag := by
    split
    · exact List.nodup_singleton _
    · exact .nil
  parent_unique {a b c} h h' := by
    split at h
    · rename_i ha
      split at h'
      · rename_i hb
        exact ha.trans hb.symm
      · cases h'
    · cases h
  height tag := if tag = "h" then 1 else 0
  height_lt {a c} h := by
    split at h
    · rename_i ha
      rw [List.mem_singleton.mp h, if_pos ha]
      decide
    · cases h

/-- The agents before the first round. -/
def pairInitial : Hierarchy := fun tag =>
  ⟨(pairForest.children tag).map AgentInfo.ofTag, false, 0, [], [], []⟩

/-- The agents after a round in which the analysis agent asks for another experiment. -/
def pairRound : Hierarchy :=
  let begun : Hierarchy := Function.update pairInitial "h" ((pairInitial "h").receive .start)
  let forwarded : Hierarchy := begun.forward (fun _ _ => true) "h" .start
  let started : Hierarchy := Function.update forwarded "a"
    ((forwarded "a").next.onCommand false .suspended .start)
  let evaluated : Hierarchy := Function.update started "a"
    ((started "a").evaluateExperiment ⟨false, true, .suspended, true, true, .suspended⟩)
  let delivered : Hierarchy := evaluated.deliver "h" "a" .reqexperiment
  Function.update delivered "h" (delivered "h").report

theorem pairInitial_initial : pairInitial.Initial pairForest := by
  refine ⟨fun tag => ?_, fun tag ai hai => ?_, fun _ => rfl, fun _ => rfl, fun _ => rfl,
    fun _ => rfl, fun _ => rfl⟩
  · rw [pairInitial, List.map_map]
    exact List.map_id _
  · obtain ⟨child, -, rfl⟩ := List.mem_map.mp hai
    rfl

theorem pairForest_root : pairForest.Root "h" := by
  refine ⟨by decide, fun tag h => ?_⟩
  rw [pairForest] at h
  dsimp only at h
  split at h
  · exact absurd (List.mem_singleton.mp h) (by decide)
  · cases h

theorem pairRound_reachable : pairRound.Reachable pairForest fun _ _ => true := by
  have hinner : ¬pairForest.Leaf "h" := by
    intro h
    cases h
  refine .step (.step (.step (.step (.step (.step (.initial pairInitial_initial)
    (.command "h" .start pairForest_root rfl))
    (.forward "h" .start hinner rfl))
    (.handle "a" .start false .suspended rfl rfl))
    (.evaluate "a" ⟨false, true, .suspended, true, true, .suspended⟩ rfl))
    (.delivers (.deliver "h" "a" .reqexperiment (by decide) rfl)))
    (.delivers (.arrive "h" .reqexperiment pairForest_root rfl))

/-- The request of the only leaf reaches the frontend. -/
theorem Hierarchy.status_rounds_pair :
    IsGreatest { q | ∃ leaf, pairForest.Leaf leaf ∧ pairForest.Below "h" leaf ∧
      (pairRound leaf).sent[0]? = some q } .reqexperiment :=
  ((Hierarchy.status_rounds pairRound_reachable).2.2.1 "h" pairForest_root 0 .reqexperiment
    rfl).2

end ReadexPtf.Agents
