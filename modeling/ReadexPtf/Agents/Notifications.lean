import ReadexPtf.Agents.PerformanceDataBase
import ReadexPtf.Agents.RequestSet

/-! Which strategies an analysis agent calls for the metrics that were measured: what is to be
notified is kept under a text of the metric and the fields of the context. -/
namespace ReadexPtf.Agents.Notifications
open ReadexPtf Agents

/-- The types of regions that a stored profile asks for. -/
inductive RegionType where
  | mpiCall
  | taskRegion
  | taskRegionBody
  | other (value : ℕ)
  deriving DecidableEq

/-- The table of metrics, and the metrics that a stored profile may add. -/
structure Metrics (Metric : Type) extends EventList Metric where
  eventGroup : Metric → Group
  executionTime : Metric
  instances : Metric
  tasksExecuted : Metric
  tasksCreated : Metric
  mpiTimeSpent : Metric
  mpiCallCount : Metric

/-- A measurement of a region, or of an rts node in it. -/
structure Profile (Metric : Type) where
  metric : Metric
  region : Region RegionType
  rank : ℤ
  thread : ℤ
  rtsID : Option ℤ

def Profile.context {Metric : Type} (profile : Profile Metric) : Context RegionType :=
  ⟨some profile.region, profile.rank, profile.thread, profile.rtsID⟩

/-- What tells one notification from another. -/
structure Combination (Metric : Type) where
  metric : Metric
  regionName : String
  fileId : ℕ
  rfl : ℤ
  rank : ℤ
  thread : ℤ
  rtsID : Option ℤ
  deriving DecidableEq

structure MetricNotification (Metric : Type) where
  metric : Metric
  profile : Profile Metric

section Model
variable {Metric Strategy : Type} [DecidableEq Metric] (events : Metrics Metric)

def MetricNotification.combination (mn : MetricNotification Metric) : Combination Metric where
  metric := mn.metric
  regionName := mn.profile.region.name
  fileId := mn.profile.region.fileId
  rfl := mn.profile.region.regionFirstLine
  rank := mn.profile.rank
  thread := mn.profile.thread
  rtsID := mn.profile.rtsID

/-- The fields one after the other; the id of the rts node only where there is one. -/
def Combination.key (c : Combination Metric) : String :=
  let key := events.eventName c.metric ++ c.regionName ++ c.fileId.repr ++ c.rfl.repr ++
    c.rank.repr ++ c.thread.repr
  match c.rtsID with
  | some rtsID => key ++ rtsID.repr
  | none => key

/-- `global_metrics_to_notify`. -/
abbrev ToNotify (Metric : Type) := OrdMap String (MetricNotification Metric)

def addMetricToNotificationList (toNotify : ToNotify Metric) (mn : MetricNotification Metric) :
    ToNotify Metric := toNotify.set (mn.combination.key events) mn

/-- The metrics under which `storeProfile` notifies of a measurement, in their order. -/
def notifiedMetrics (profile : Profile Metric) : List Metric :=
  [profile.metric] ++
  (if events.eventGroup profile.metric = .omp then [events.executionTime] else []) ++
  (if profile.region.regionType = .taskRegionBody then [events.tasksExecuted] else []) ++
  (if profile.region.regionType = .mpiCall ∧ profile.metric = events.mpiTimeSpent then
    [events.mpiCallCount, events.executionTime, events.instances] else []) ++
  (if profile.region.regionType = .taskRegion then [events.tasksCreated] else []) ++
  (if profile.region.regionType ≠ .mpiCall then [events.instances] else [])

def notificationsOf (profile : Profile Metric) : List (MetricNotification Metric) :=
  (notifiedMetrics events profile).map fun metric => ⟨metric, profile⟩

def storeProfile (toNotify : ToNotify Metric) (profile : Profile Metric) : ToNotify Metric :=
  (notificationsOf events profile).foldl (addMetricToNotificationList events) toNotify

end Model

section Notify
variable {Metric Strategy : Type} [DecidableEq Metric]

/-- The subscribers of each metric, in their order. -/
structure Subscribers (Metric Strategy : Type) where
  strategies : Metric → List Strategy
  nodup : ∀ m, (strategies m).Nodup

def Subscribers.none : Subscribers Metric Strategy := ⟨fun _ => [], fun _ => List.nodup_nil⟩

/-- A subscriber goes behind the others; then they are sorted and repetitions are dropped. -/
def Subscribers.globalMetricSubscribe [LinearOrder Strategy]
    (subscribers : Subscribers Metric Strategy) (strategy : Strategy) (m : Metric) :
    Subscribers Metric Strategy where
  strategies := Function.update subscribers.strategies m
    (((subscribers.strategies m ++ [strategy]).insertionSort (· ≤ ·)).destutter (· ≠ ·))
  nodup := by
    intro m'
    rw [Function.update_apply]
    split_ifs
    · rw [(List.pairwise_insertionSort (· ≤ ·) _).destutter_eq_dedup]
      exact List.nodup_dedup _
    · exact subscribers.nodup m'

def Subscribers.globalMetricUnSubscribe [DecidableEq Strategy]
    (subscribers : Subscribers Metric Strategy) (strategy : Strategy) (m : Metric) :
    Subscribers Metric Strategy where
  strategies := Function.update subscribers.strategies m
    ((subscribers.strategies m).filter fun subscriber => subscriber ≠ strategy)
  nodup := by
    intro m'
    rw [Function.update_apply]
    split_ifs
    · exact (subscribers.nodup m).filter _
    · exact subscribers.nodup m'

/-- A call of `metric_found_callback`. -/
structure Callback (Metric Strategy : Type) where
  subscriber : Strategy
  notification : MetricNotification Metric

/-- The calls, and the list that is left. -/
def notifyForGlobalMetrics (subscribers : Subscribers Metric Strategy)
    (toNotify : ToNotify Metric) : List (Callback Metric Strategy) × ToNotify Metric :=
  (toNotify.entries.flatMap fun entry =>
    (subscribers.strategies entry.2.metric).map fun subscriber => ⟨subscriber, entry.2⟩, .empty)

/-- In each round the profiles are stored, and then the subscribers are called. -/
def rounds (events : Metrics Metric) (subscribers : Subscribers Metric Strategy) :
    List (List (Profile Metric)) → ToNotify Metric → List (List (Callback Metric Strategy))
  | [], _ => []
  | profiles :: later, toNotify =>
    let (calls, toNotify) :=
      notifyForGlobalMetrics subscribers (profiles.foldl (storeProfile events) toNotify)
    calls :: rounds events subscribers later toNotify

/-- The combinations that are recorded in a round. -/
def recorded (events : Metrics Metric) (profiles : List (Profile Metric)) :
    List (Combination Metric) :=
  (profiles.flatMap (notificationsOf events)).map MetricNotification.combination

/-- The combinations for which a subscriber is called under a metric. -/
def calledFor [DecidableEq Strategy] (calls : List (Callback Metric Strategy))
    (subscriber : Strategy) (m : Metric) : List (Combination Metric) :=
  (calls.filter fun call => call.subscriber = subscriber ∧ call.notification.metric = m).map
    fun call => call.notification.combination

/-- Every subscriber of a metric is called once for each combination that is recorded of it, and
nobody else is called. -/
def CallsOnce [DecidableEq Strategy] (events : Metrics Metric)
    (subscribers : Subscribers Metric Strategy) (profiles : List (Profile Metric))
    (calls : List (Callback Metric Strategy)) : Prop :=
  ∀ subscriber m, (calledFor calls subscriber m).Nodup ∧ ∀ c, c ∈ calledFor calls subscriber m ↔
    subscriber ∈ subscribers.strategies m ∧ c ∈ recorded events profiles ∧ c.metric = m

/-- No two combinations of a round are written as the same text. -/
def KeysDiffer (events : Metrics Metric) (profiles : List (Profile Metric)) : Prop :=
  ∀ c ∈ recorded events profiles, ∀ c' ∈ recorded events profiles,
    c.key events = c'.key events → c = c'

end Notify

section Rounds
variable {Metric Strategy : Type} [DecidableEq Metric] [DecidableEq Strategy]
  {events : Metrics Metric} {subscribers : Subscribers Metric Strategy}
  {profiles : List (Profile Metric)} {toNotify : ToNotify Metric}

/-- The last notification with a key is kept under it. -/
theorem get?_stored (events : Metrics Metric) (profiles : List (Profile Metric)) (key : String) :
    (profiles.foldl (storeProfile events) .empty).get? key =
      ((profiles.flatMap (notificationsOf events)).filter fun mn =>
        mn.combination.key events = key).getLast? := by
  have hflat : profiles.foldl (storeProfile events) .empty =
      (profiles.flatMap (notificationsOf events)).foldl (addMetricToNotificationList events)
        .empty := by
    rw [List.foldl_flatMap]
    rfl
  rw [hflat]
  induction profiles.flatMap (notificationsOf events) using List.reverseRecOn with
  | nil => rfl
  | append_singleton l mn ih =>
    rw [List.foldl_append, List.foldl_cons, List.foldl_nil, addMetricToNotificationList,
      OrdMap.get?_set, ih, List.filter_append]
    by_cases hkey : key = mn.combination.key events
    · simp [hkey]
    · simp [hkey, Ne.symm hkey]

/-- What is kept was recorded and is under its key. -/
theorem of_mem_stored {entry : String × MetricNotification Metric}
    (h : entry ∈ (profiles.foldl (storeProfile events) .empty).entries) :
    entry.2.combination ∈ recorded events profiles ∧
      entry.1 = entry.2.combination.key events := by
  have hget := OrdMap.get?_eq_some.mpr h
  rw [get?_stored] at hget
  have hmem := List.mem_of_getLast? hget
  rw [List.mem_filter, decide_eq_true_eq] at hmem
  exact ⟨List.mem_map_of_mem hmem.1, hmem.2.symm⟩

/-- Something is kept under the key of each recorded combination. -/
theorem exists_stored {c : Combination Metric} (hc : c ∈ recorded events profiles) :
    ∃ entry ∈ (profiles.foldl (storeProfile events) .empty).entries, entry.1 = c.key events := by
  obtain ⟨mn, hmn, rfl⟩ := List.mem_map.mp hc
  cases hlast : ((profiles.flatMap (notificationsOf events)).filter fun mn' =>
      mn'.combination.key events = mn.combination.key events).getLast? with
  | none =>
    rw [List.getLast?_eq_none_iff, List.filter_eq_nil_iff] at hlast
    exact absurd (decide_eq_true rfl) (hlast mn hmn)
  | some kept =>
    refine ⟨(mn.combination.key events, kept), OrdMap.get?_eq_some.mp ?_, rfl⟩
    rw [get?_stored, hlast]

/-- The calls for one entry. -/
theorem calledFor_entry (mn : MetricNotification Metric) (subscriber : Strategy) (m : Metric) :
    calledFor ((subscribers.strategies mn.metric).map fun subscriber => ⟨subscriber, mn⟩)
        subscriber m =
      if subscriber ∈ subscribers.strategies m ∧ mn.metric = m then [mn.combination] else [] := by
  rw [calledFor, List.filter_map, List.map_map]
  by_cases hm : mn.metric = m
  · have hmine : ((fun call : Callback Metric Strategy =>
        decide (call.subscriber = subscriber ∧ call.notification.metric = m)) ∘
          fun subscriber => ⟨subscriber, mn⟩) = fun other => decide (other = subscriber) := by
      funext other
      simp [hm]
    rw [hmine, hm, List.filter_eq]
    by_cases hmem : subscriber ∈ subscribers.strategies m
    · rw [List.count_eq_one_of_mem (subscribers.nodup m) hmem, if_pos ⟨hmem, rfl⟩]
      rfl
    · rw [List.count_eq_zero_of_not_mem hmem, if_neg fun h => hmem h.1]
      rfl
  · rw [if_neg fun h => hm h.2, List.filter_eq_nil_iff.mpr]
    · rfl
    · intro other _
      simp [hm]

/-- A subscriber is called for the entries of a metric that it is subscribed to. -/
theorem calledFor_notify (subscriber : Strategy) (m : Metric) :
    calledFor (notifyForGlobalMetrics subscribers toNotify).1 subscriber m =
      if subscriber ∈ subscribers.strategies m then
        (toNotify.entries.filter fun entry => entry.2.metric = m).map fun entry =>
          entry.2.combination
      else [] := by
  rw [notifyForGlobalMetrics]
  simp only
  induction toNotify.entries with
  | nil => simp [calledFor]
  | cons entry entries ih =>
    have happend : ∀ calls calls' : List (Callback Metric Strategy),
        calledFor (calls ++ calls') subscriber m =
          calledFor calls subscriber m ++ calledFor calls' subscriber m := fun calls calls' => by
      rw [calledFor, List.filter_append, List.map_append]
      rfl
    rw [List.flatMap_cons, happend, calledFor_entry, ih, List.filter_cons]
    by_cases hmem : subscriber ∈ subscribers.strategies m
    · by_cases hm : entry.2.metric = m
      · simp [hmem, hm]
      · simp [hmem, hm]
    · simp [hmem]

/-- Where the keys differ, the entries are the recorded combinations. -/
theorem callsOnce_of_keysDiffer (h : KeysDiffer events profiles) :
    CallsOnce events subscribers profiles
      (notifyForGlobalMetrics subscribers (profiles.foldl (storeProfile events) .empty)).1 := by
  intro subscriber m
  rw [calledFor_notify]
  by_cases hmem : subscriber ∈ subscribers.strategies m
  · rw [if_pos hmem]
    refine ⟨?_, fun c => ?_⟩
    · refine List.pairwise_map.mpr (((OrdMap.sorted _).filter _).imp_of_mem ?_)
      intro entry entry' hentry hentry' hlt heq
      have hown := (of_mem_stored (List.mem_of_mem_filter hentry)).2
      have hown' := (of_mem_stored (List.mem_of_mem_filter hentry')).2
      rw [hown, hown', heq] at hlt
      exact lt_irrefl _ hlt
    · rw [and_iff_right hmem, List.mem_map]
      constructor
      · rintro ⟨entry, hentry, rfl⟩
        rw [List.mem_filter, decide_eq_true_eq] at hentry
        exact ⟨(of_mem_stored hentry.1).1, hentry.2⟩
      · rintro ⟨hc, hm⟩
        obtain ⟨entry, hentry, hkey⟩ := exists_stored hc
        obtain ⟨hrecorded, hown⟩ := of_mem_stored hentry
        have hsame : entry.2.combination = c := h _ hrecorded _ hc (hown ▸ hkey)
        refine ⟨entry, List.mem_filter.mpr ⟨hentry, decide_eq_true ?_⟩, hsame⟩
        rw [← hm, ← hsame]
        rfl
  · rw [if_neg hmem]
    exact ⟨List.nodup_nil, fun c => iff_of_false List.not_mem_nil fun hc => hmem hc.1⟩

/-- Of two combinations with one key the one is not notified that was recorded first. -/
theorem keysDiffer_of_callsOnce (subscriber : Strategy)
    (h : ∀ subscribers : Subscribers Metric Strategy, CallsOnce events subscribers profiles
      (notifyForGlobalMetrics subscribers (profiles.foldl (storeProfile events) .empty)).1) :
    KeysDiffer events profiles := by
  intro c hc c' hc' hkey
  -- a strategy that has subscribed to every metric is called for both
  have hstored : ∀ c ∈ recorded events profiles,
      ∃ entry ∈ (profiles.foldl (storeProfile events) .empty).entries,
        entry.1 = c.key events ∧ entry.2.combination = c := by
    intro c hc
    have hcalled := (h ⟨fun _ => [subscriber], fun _ => List.nodup_singleton _⟩ subscriber
      c.metric).2 c
    rw [calledFor_notify, if_pos (List.mem_singleton_self _)] at hcalled
    obtain ⟨entry, hentry, rfl⟩ := List.mem_map.mp
      (hcalled.mpr ⟨List.mem_singleton_self _, hc, rfl⟩)
    have hmem := List.mem_of_mem_filter hentry
    exact ⟨entry, hmem, (of_mem_stored hmem).2, rfl⟩
  obtain ⟨entry, hentry, hown, rfl⟩ := hstored c hc
  obtain ⟨entry', hentry', hown', rfl⟩ := hstored c' hc'
  have hget := OrdMap.get?_eq_some.mpr hentry
  have hget' := OrdMap.get?_eq_some.mpr hentry'
  rw [hown, hkey, ← hown', hget', Option.some.injEq] at hget
  rw [hget]

omit [DecidableEq Strategy] in
/-- Each round begins with an empty list, so that its calls are those of its own profiles. -/
theorem rounds_eq (profiless : List (List (Profile Metric))) :
    rounds events subscribers profiless .empty = profiless.map fun profiles =>
      (notifyForGlobalMetrics subscribers (profiles.foldl (storeProfile events) .empty)).1 := by
  induction profiless with
  | nil => rfl
  | cons profiles later ih =>
    rw [rounds, List.map_cons, ← ih]
    rfl

variable (Strategy) in
/-- In every round the subscribers, whoever they are, are called once for each combination. -/
def NotifiesAll (events : Metrics Metric) (profiless : List (List (Profile Metric))) : Prop :=
  ∀ subscribers : Subscribers Metric Strategy,
    List.Forall₂ (CallsOnce events subscribers) profiless
      (rounds events subscribers profiless .empty)

theorem notifiesAll_rounds (events : Metrics Metric) (profiless : List (List (Profile Metric))) :
    NotifiesAll Strategy events profiless ↔ ∀ profiles ∈ profiless,
      ∀ subscribers : Subscribers Metric Strategy, CallsOnce events subscribers profiles
        (notifyForGlobalMetrics subscribers (profiles.foldl (storeProfile events) .empty)).1 := by
  simp only [NotifiesAll, rounds_eq, List.forall₂_map_right_iff, List.forall₂_same]
  exact ⟨fun h profiles hprofiles subscribers => h subscribers profiles hprofiles,
    fun h subscribers profiles hprofiles => h profiles hprofiles subscribers⟩

/-- All are called just if no two combinations of a round have the same key. -/
theorem notifiesAll_iff [Inhabited Strategy] (events : Metrics Metric)
    (profiless : List (List (Profile Metric))) :
    NotifiesAll Strategy events profiless ↔ ∀ profiles ∈ profiless, KeysDiffer events profiles := by
  rw [notifiesAll_rounds]
  exact forall₂_congr fun profiles _ =>
    ⟨keysDiffer_of_callsOnce default, fun h subscribers => callsOnce_of_keysDiffer h⟩

end Rounds

/-- Some entries of the table of metrics. -/
def someMetrics : Metrics ℕ where
  eventName m := if m = 1 then "execution_time" else if m = 2 then "INSTANCES" else "UNDEFINED"
  implicitBarrierTime := 3
  eventGroup m := if m = 1 then .timeMeasurement else if m = 2 then .other else .undefined
  executionTime := 1
  instances := 2
  tasksExecuted := 4
  tasksCreated := 5
  mpiTimeSpent := 6
  mpiCallCount := 7

/-- The execution time of a region `f`, by the number of its file and its first line. -/
def timeOf (fileId : ℕ) (firstLine : ℤ) : Profile ℕ :=
  ⟨1, ⟨1, .other 2, fileId, firstLine, firstLine, firstLine, "f.cc", "f"⟩, 0, 0, none⟩

/-- Line 11 of file 1 and line 1 of file 11 are both written as `111`. -/
theorem not_notifiesAll :
    (¬ ∀ (events : Metrics ℕ) (profiless : List (List (Profile ℕ))),
      NotifiesAll ℕ events profiless) ∧
    ¬ ∀ (events : Metrics ℕ) (c c' : Combination ℕ), c.key events = c'.key events → c = c' := by
  have hkeys : (Combination.mk 1 "f" 1 11 0 0 none).key someMetrics =
      (Combination.mk 1 "f" 11 1 0 0 none).key someMetrics := by decide +kernel
  constructor
  · intro h
    have hcalls := (notifiesAll_rounds someMetrics [[timeOf 1 11, timeOf 11 1]]).mp (h _ _) _
      (List.mem_singleton_self _)
    have hdiffer := keysDiffer_of_callsOnce 0 hcalls
    exact absurd (hdiffer ⟨1, "f", 1, 11, 0, 0, none⟩ (by decide +kernel)
      ⟨1, "f", 11, 1, 0, 0, none⟩ (by decide +kernel) hkeys) (by decide)
  · intro h
    exact absurd (h _ _ _ hkeys) (by decide)

end ReadexPtf.Agents.Notifications
