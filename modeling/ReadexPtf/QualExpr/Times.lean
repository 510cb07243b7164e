import ReadexPtf.QualExpr.Bandwidth

/-! Which times between events the aggregators take up. -/
namespace ReadexPtf.QualExpr
open Autotune (truncate)

/-- The time of an event in whole nanoseconds. -/
def nanoseconds (event : QualExprEvent) : ℤ := truncate (event.timestamp * 10 ^ 9)

def duration (start stop : QualExprEvent) : ℤ := nanoseconds stop - nanoseconds start

/-- The starts that no stop has matched yet, the start before the events that follow, and the
durations of the matched pairs. -/
structure Matching where
  opened : List QualExprEvent
  last : Option QualExprEvent
  durations : List ℤ

def Matching.new : Matching := ⟨[], none, []⟩

/-- A stop is matched with the start of the same id. -/
def matchEvent (m : Matching) (event : QualExprEvent) : Matching :=
  match event.state with
  | .start => { m with opened := event :: m.opened, last := some event }
  | .stop =>
    match m.opened.find? (·.eid = event.eid) with
    | some start => { m with
        opened := m.opened.eraseP (·.eid = event.eid)
        durations := m.durations ++ [duration start event] }
    | none => m
  | _ => m

def matchedDurations (events : List QualExprEvent) : List ℤ :=
  (events.foldl matchEvent .new).durations

/-- The sum, the mean without its fraction, the maximum and the minimum. -/
def TimesRight (events : List QualExprEvent) : Prop :=
  (∃ s, events.foldlM (TimeAggregator.processEvent timeSum) (.new timeSum) = .ok s ∧
    s.evaluate timeSum = (matchedDurations events).sum) ∧
  (∃ s, events.foldlM (TimeAggregator.processEvent timeAverage) (.new timeAverage) = .ok s ∧
    s.evaluate timeAverage =
      truncate ((matchedDurations events).sum / (matchedDurations events).length : ℚ)) ∧
  (∃ s, events.foldlM (TimeAggregator.processEvent timeMax) (.new timeMax) = .ok s ∧
    (matchedDurations events ≠ [] →
      IsGreatest {d | d ∈ matchedDurations events} (s.evaluate timeMax))) ∧
  (∃ s, events.foldlM (TimeAggregator.processEvent timeMin) (.new timeMin) = .ok s ∧
    (matchedDurations events ≠ [] →
      IsLeast {d | d ∈ matchedDurations events} (s.evaluate timeMin)))

/-- The id of the last start: zero has been stored before the first one. -/
def Matching.lastEid (m : Matching) : ℕ := (m.last.map QualExprEvent.eid).getD 0

/-- The time of the last start: zero has been stored before the first one. -/
def Matching.lastTime (m : Matching) : ℤ := (m.last.map nanoseconds).getD 0

/-- A stop that has a start comes when that start is the last one, and its time, which is not
negative, fits into the sum; a stop that has none does not have the id of the last start. -/
def LastOpen (m : Matching) (event : QualExprEvent) : Prop :=
  match event.state with
  | .start => 0 ≤ event.timestamp ∧ FitsLong (nanoseconds event)
  | .stop =>
    match m.opened.find? (·.eid = event.eid) with
    | some start => m.last = some start ∧ 0 ≤ event.timestamp ∧ 0 ≤ duration start event ∧
        FitsLong (m.durations.sum + duration start event)
    | none => m.lastEid ≠ event.eid
  | _ => True

section Values

/-- However much is added to the measured time, it is cut to so many nanoseconds. -/
def Measures (measured : ℚ) (d : ℤ) : Prop :=
  ∀ value : ℤ, 0 ≤ value → truncate (value + measured) = value + d

theorem measures_duration {start stop : QualExprEvent} (hstop : 0 ≤ stop.timestamp)
    (hduration : 0 ≤ duration start stop) :
    Measures (stop.timestamp * 10 ^ 9 - nanoseconds start) (duration start stop) := by
  intro value hvalue
  rw [duration] at hduration ⊢
  have hcut := truncate_sub_intCast (x := stop.timestamp * 10 ^ 9)
    (z := nanoseconds start - value) (by positivity) (by rw [← nanoseconds]; omega)
  have hsum : (value : ℚ) + (stop.timestamp * 10 ^ 9 - nanoseconds start) =
      stop.timestamp * 10 ^ 9 - (nanoseconds start - value : ℤ) := by
    push_cast
    ring
  rw [hsum, hcut, ← nanoseconds]
  ring

theorem Measures.toLong {measured : ℚ} {d : ℤ} (h : Measures measured d) (hfits : FitsLong d) :
    toLong measured = .ok d := by
  have hcut := h 0 le_rfl
  rw [Int.cast_zero, zero_add, zero_add] at hcut
  exact toLong_eq_ok.mpr ⟨hcut ▸ hfits, hcut⟩

def Summed (durations : List ℤ) (value : ℤ) : Prop := value = durations.sum

def GreatestSoFar (durations : List ℤ) (value : ℤ) : Prop :=
  durations = [] ∧ value = 0 ∨ value ∈ durations ∧ ∀ d ∈ durations, d ≤ value

def LeastSoFarOf (durations : List ℤ) (value : ℤ) : Prop :=
  durations = [] ∧ value = -1 ∨ value ∈ durations ∧ ∀ d ∈ durations, value ≤ d

/-- What the value of an aggregator is of the durations, before the first one and after each. -/
structure Keeps (aggregation : Aggregation) (held : List ℤ → ℤ → Prop) : Prop where
  reset : held [] aggregation.reset
  accumulate : ∀ {durations value measured d}, held durations value →
    (∀ other ∈ durations, 0 ≤ other) → 0 ≤ d → FitsLong d → FitsLong (durations.sum + d) →
    Measures measured d → ∃ value', aggregation.accumulate value measured = .ok value' ∧
      held (durations ++ [d]) value'

theorem sum_append_singleton (durations : List ℤ) (d : ℤ) :
    (durations ++ [d]).sum = durations.sum + d := by
  rw [List.sum_append, List.sum_singleton]

theorem keeps_timeSum : Keeps timeSum Summed where
  reset := rfl
  accumulate := by
    rintro durations value measured d rfl hnonneg hd hfits hsum hmeasures
    refine ⟨durations.sum + d, ?_, (sum_append_singleton durations d).symm⟩
    rw [timeSum]
    simp only [hmeasures.toLong hfits, Outcome.ok_bind, checkedLong_of_fits hsum]

theorem keeps_timeAverage : Keeps timeAverage Summed where
  reset := rfl
  accumulate := by
    rintro durations value measured d rfl hnonneg hd hfits hsum hmeasures
    refine ⟨durations.sum + d, ?_, (sum_append_singleton durations d).symm⟩
    have hcut := hmeasures durations.sum (List.sum_nonneg hnonneg)
    exact toLong_eq_ok.mpr ⟨hcut ▸ hsum, hcut⟩

theorem keeps_timeMax : Keeps timeMax GreatestSoFar where
  reset := .inl ⟨rfl, rfl⟩
  accumulate := by
    intro durations value measured d hheld hnonneg hd hfits hsum hmeasures
    refine ⟨if value < d then d else value, ?_, .inr ?_⟩
    · simp only [timeMax, largest, hmeasures.toLong hfits, Outcome.ok_bind, Outcome.pure_eq]
    · rcases hheld with ⟨rfl, rfl⟩ | ⟨hmem, hle⟩
      · split_ifs with hlt
        · simp
        · simp [show d = 0 by omega]
      · split_ifs with hlt
        · refine ⟨List.mem_append_right _ List.mem_cons_self, fun other hother => ?_⟩
          rw [List.mem_append, List.mem_singleton] at hother
          rcases hother with hother | rfl
          · exact (hle other hother).trans hlt.le
          · exact le_rfl
        · refine ⟨List.mem_append_left _ hmem, fun other hother => ?_⟩
          rw [List.mem_append, List.mem_singleton] at hother
          rcases hother with hother | rfl
          · exact hle other hother
          · exact not_lt.mp hlt

theorem keeps_timeMin : Keeps timeMin LeastSoFarOf where
  reset := .inl ⟨rfl, rfl⟩
  accumulate := by
    intro durations value measured d hheld hnonneg hd hfits hsum hmeasures
    refine ⟨if value < 0 ∨ d < value then d else value, ?_, .inr ?_⟩
    · simp only [timeMin, smallest, hmeasures.toLong hfits, Outcome.ok_bind, Outcome.pure_eq]
    · rcases hheld with ⟨rfl, rfl⟩ | ⟨hmem, hle⟩
      · simp
      · have hvalue := hnonneg value hmem
        split_ifs with hlt
        · have hless : d < value := hlt.resolve_left (not_lt.mpr hvalue)
          refine ⟨List.mem_append_right _ List.mem_cons_self, fun other hother => ?_⟩
          rw [List.mem_append, List.mem_singleton] at hother
          rcases hother with hother | rfl
          · exact hless.le.trans (hle other hother)
          · exact le_rfl
        · refine ⟨List.mem_append_left _ hmem, fun other hother => ?_⟩
          rw [List.mem_append, List.mem_singleton] at hother
          rcases hother with hother | rfl
          · exact hle other hother
          · exact not_lt.mp fun h => hlt (.inr h)

end Values

section Runs
variable {aggregation : Aggregation} {held : List ℤ → ℤ → Prop}

/-- The aggregator and the matching have the same last start and the same durations. -/
structure Agrees (held : List ℤ → ℤ → Prop) (m : Matching) (s : TimeAggregator) : Prop where
  eid : s.previousEid = m.lastEid
  timeStamp : s.previousTimeStamp = m.lastTime
  count : s.count = m.durations.length
  value : held m.durations s.value
  nonneg : ∀ d ∈ m.durations, 0 ≤ d
  fits : FitsLong m.durations.sum

theorem agrees_new (h : Keeps aggregation held) : Agrees held .new (.new aggregation) where
  eid := rfl
  timeStamp := rfl
  count := rfl
  value := h.reset
  nonneg := List.forall_mem_nil _
  fits := by decide

theorem agrees_step (h : Keeps aggregation held) {m : Matching} {s : TimeAggregator}
    (hagrees : Agrees held m s) {event : QualExprEvent} (hcond : LastOpen m event) :
    ∃ s', TimeAggregator.processEvent aggregation s event = .ok s' ∧
      Agrees held (matchEvent m event) s' := by
  rw [LastOpen] at hcond
  rw [TimeAggregator.processEvent, matchEvent]
  cases hstate : event.state with
  | undefined | wait | counter => exact ⟨s, rfl, hagrees⟩
  | start =>
    simp only [hstate] at hcond
    have htime : toLong (event.timestamp * 10 ^ 9) = .ok (nanoseconds event) :=
      toLong_eq_ok.mpr ⟨hcond.2, rfl⟩
    refine ⟨{ s with previousTimeStamp := nanoseconds event, previousEid := event.eid }, ?_,
      rfl, rfl, hagrees.count, hagrees.value, hagrees.nonneg, hagrees.fits⟩
    simp only [htime, Outcome.ok_bind, Outcome.pure_eq]
  | stop =>
    simp only [hstate] at hcond
    cases hfind : m.opened.find? (·.eid = event.eid) with
    | none =>
      simp only [hfind] at hcond
      rw [if_neg (by rw [hagrees.eid]; exact hcond)]
      exact ⟨s, rfl, hagrees⟩
    | some start =>
      simp only [hfind] at hcond
      obtain ⟨hlast, htime, hduration, hsum⟩ := hcond
      have heid : start.eid = event.eid := by simpa using List.find?_some hfind
      have hprevious : s.previousEid = event.eid := by
        rw [hagrees.eid, Matching.lastEid, hlast]
        exact heid
      have hfits : FitsLong (duration start event) := by
        have hnonneg := List.sum_nonneg hagrees.nonneg
        have hlimit := hsum.2
        exact ⟨by omega, by omega⟩
      obtain ⟨value, haccumulate, hheld⟩ := h.accumulate hagrees.value hagrees.nonneg hduration
        hfits hsum (measures_duration htime hduration)
      have htimeStamp : s.previousTimeStamp = nanoseconds start := by
        rw [hagrees.timeStamp, Matching.lastTime, hlast]
        rfl
      rw [if_pos hprevious, htimeStamp]
      simp only [haccumulate, Outcome.ok_bind, Outcome.pure_eq]
      refine ⟨_, rfl, hagrees.eid, htimeStamp.symm.trans hagrees.timeStamp, ?_, hheld, ?_,
        ?_⟩
      · simp only [hagrees.count, List.length_append, List.length_singleton]
      · intro d hd
        rw [List.mem_append, List.mem_singleton] at hd
        rcases hd with hd | rfl
        · exact hagrees.nonneg d hd
        · exact hduration
      · rw [sum_append_singleton]
        exact hsum

theorem agrees_run (h : Keeps aggregation held) {events : List QualExprEvent} :
    ∀ {m : Matching} {s : TimeAggregator}, Agrees held m s →
      Outcome.StepsMeet LastOpen (fun m event => .ok (matchEvent m event)) events m →
      ∃ s', events.foldlM (TimeAggregator.processEvent aggregation) s = .ok s' ∧
        Agrees held (events.foldl matchEvent m) s' := by
  induction events with
  | nil => exact fun {m s} hagrees _ => ⟨s, rfl, hagrees⟩
  | cons event events ih =>
    intro m s hagrees hmeet
    obtain ⟨t, hstep, ht⟩ := agrees_step h hagrees hmeet.1
    obtain ⟨s', hrun, hs'⟩ := ih ht (hmeet.2 _ rfl)
    exact ⟨s', by rw [List.foldlM_cons, hstep, Outcome.ok_bind, hrun], hs'⟩

end Runs

theorem timesRight_of_steps {events : List QualExprEvent}
    (hmeet : Outcome.StepsMeet LastOpen (fun m event => .ok (matchEvent m event)) events .new) :
    ∀ earlier, earlier <+: events → TimesRight earlier := by
  rintro earlier ⟨later, rfl⟩
  have hearlier := hmeet.append.1
  refine ⟨?_, ?_, ?_, ?_⟩
  · obtain ⟨s, hrun, hs⟩ := agrees_run keeps_timeSum (agrees_new keeps_timeSum) hearlier
    exact ⟨s, hrun, hs.value⟩
  · obtain ⟨s, hrun, hs⟩ := agrees_run keeps_timeAverage (agrees_new keeps_timeAverage) hearlier
    refine ⟨s, hrun, ?_⟩
    have hvalue : s.value = (matchedDurations earlier).sum := hs.value
    have hcount : s.count = (matchedDurations earlier).length := hs.count
    rw [TimeAggregator.evaluate, timeAverage, hvalue, hcount]
    exact average_of_nonneg (List.sum_nonneg hs.nonneg) hs.fits
  · obtain ⟨s, hrun, hs⟩ := agrees_run keeps_timeMax (agrees_new keeps_timeMax) hearlier
    refine ⟨s, hrun, fun hne => ?_⟩
    rcases hs.value with ⟨hnil, -⟩ | hgreatest
    · exact absurd hnil hne
    · exact hgreatest
  · obtain ⟨s, hrun, hs⟩ := agrees_run keeps_timeMin (agrees_new keeps_timeMin) hearlier
    refine ⟨s, hrun, fun hne => ?_⟩
    rcases hs.value with ⟨hnil, -⟩ | hleast
    · exact absurd hnil hne
    · exact hleast

section Order

/-- The open starts are not later than the last start. -/
structure Matching.Ordered (m : Matching) : Prop where
  nonneg : 0 ≤ m.lastTime
  opened : ∀ start ∈ m.opened, m.last = some start ∨ nanoseconds start < m.lastTime

theorem ordered_new : Matching.new.Ordered where
  nonneg := le_rfl
  opened := List.forall_mem_nil _

theorem Matching.Ordered.le_lastTime {m : Matching} (h : m.Ordered) {start : QualExprEvent}
    (hstart : start ∈ m.opened) : nanoseconds start ≤ m.lastTime := by
  rcases h.opened start hstart with hlast | hlt
  · rw [Matching.lastTime, hlast]
    rfl
  · exact hlt.le

theorem Matching.Ordered.matchEvent {m : Matching} (h : m.Ordered) {event : QualExprEvent}
    (hlater : m.lastTime < nanoseconds event) : (matchEvent m event).Ordered := by
  rw [QualExpr.matchEvent]
  cases event.state with
  | undefined | wait | counter => exact h
  | start =>
    refine ⟨h.nonneg.trans hlater.le, fun start hstart => ?_⟩
    rcases List.mem_cons.mp hstart with rfl | hstart
    · exact .inl rfl
    · exact .inr ((h.le_lastTime hstart).trans_lt hlater)
  | stop =>
    cases m.opened.find? (·.eid = event.eid) with
    | none => exact h
    | some _ => exact ⟨h.nonneg, fun start hstart => h.opened start (List.mem_of_mem_eraseP hstart)⟩

theorem lastTime_matchEvent (m : Matching) (event : QualExprEvent) :
    (matchEvent m event).lastTime = m.lastTime ∨
      (matchEvent m event).lastTime = nanoseconds event := by
  rw [matchEvent]
  cases event.state with
  | undefined | wait | counter => exact .inl rfl
  | start => exact .inr rfl
  | stop =>
    cases m.opened.find? (·.eid = event.eid) with
    | none => exact .inl rfl
    | some _ => exact .inl rfl

theorem timestamp_pos {event : QualExprEvent} (h : 0 < nanoseconds event) :
    0 < event.timestamp := by
  by_contra hneg
  rw [not_lt] at hneg
  have hle : truncate (event.timestamp * 10 ^ 9) ≤ 0 := by
    by_contra hpos
    have hcut := (natCast_le_truncate (x := event.timestamp * 10 ^ 9) le_rfl).mp (by omega)
    rw [Nat.cast_one] at hcut
    linarith
  rw [nanoseconds] at h
  omega

/-- A stop with the id of the last start adds the time since then, which is not zero. -/
theorem sum_of_processEvent {m : Matching} {s s' : TimeAggregator} (hagrees : Agrees Summed m s)
    {event : QualExprEvent} (hstop : event.state = .stop) (hlater : m.lastTime < nanoseconds event)
    (htime : 0 < event.timestamp)
    (hstep : TimeAggregator.processEvent timeSum s event = .ok s') :
    s'.value = m.durations.sum +
        (if m.lastEid = event.eid then nanoseconds event - m.lastTime else 0) ∧
      FitsLong s'.value := by
  have hvalue : s.value = m.durations.sum := hagrees.value
  rw [TimeAggregator.processEvent, hagrees.eid, hagrees.timeStamp] at hstep
  simp only [hstop] at hstep
  split_ifs at hstep ⊢ with heid
  · obtain ⟨value, haccumulate, hs'⟩ := Outcome.bind_eq_ok.mp hstep
    obtain rfl := Outcome.ok.inj hs'
    obtain ⟨newValue, hnew, hsum⟩ := Outcome.bind_eq_ok.mp haccumulate
    obtain ⟨-, rfl⟩ := toLong_eq_ok.mp hnew
    obtain ⟨hfits, rfl⟩ := checkedLong_eq_ok.mp hsum
    rw [truncate_sub_intCast (by positivity) hlater.le, ← nanoseconds, hvalue] at hfits ⊢
    exact ⟨rfl, hfits⟩
  · obtain rfl := Outcome.ok.inj hstep
    exact ⟨by rw [hvalue, add_zero], hvalue ▸ hagrees.fits⟩

/-- Where the starts are ordered, an event after which the sum is right meets the condition. -/
theorem lastOpen_of_sum {m : Matching} {s s' : TimeAggregator} (hordered : m.Ordered)
    (hagrees : Agrees Summed m s) {event : QualExprEvent}
    (hlater : m.lastTime < nanoseconds event)
    (hstep : TimeAggregator.processEvent timeSum s event = .ok s')
    (hright : s'.value = (matchEvent m event).durations.sum) : LastOpen m event := by
  have htime := timestamp_pos (hordered.nonneg.trans_lt hlater)
  rw [LastOpen]
  cases hstate : event.state with
  | undefined | wait | counter => trivial
  | start =>
    rw [TimeAggregator.processEvent] at hstep
    simp only [hstate] at hstep
    obtain ⟨previous, hprevious, -⟩ := Outcome.bind_eq_ok.mp hstep
    exact ⟨htime.le, (toLong_eq_ok.mp hprevious).1⟩
  | stop =>
    obtain ⟨hvalue, hfits⟩ := sum_of_processEvent hagrees hstate hlater htime hstep
    rw [matchEvent] at hright
    simp only [hstate] at hright ⊢
    cases hfind : m.opened.find? (·.eid = event.eid) with
    | none =>
      intro heid
      simp only [hfind] at hright
      rw [if_pos heid] at hvalue
      omega
    | some start =>
      simp only [hfind, sum_append_singleton] at hright
      have hmem := List.mem_of_find?_eq_some hfind
      have hle := hordered.le_lastTime hmem
      rw [duration] at hright
      have hlast : nanoseconds start = m.lastTime := by
        split_ifs at hvalue with heid
        · omega
        · omega
      refine ⟨(hordered.opened start hmem).resolve_right (by omega), htime.le, ?_, ?_⟩
      · rw [duration]
        omega
      · rw [duration, ← hright]
        exact hfits

theorem stepsMeet_of_sums {events : List QualExprEvent} :
    ∀ {m : Matching} {s : TimeAggregator}, m.Ordered → Agrees Summed m s →
      (m.lastTime :: events.map nanoseconds).Pairwise (· < ·) →
      (∀ earlier, earlier <+: events →
        ∃ s', earlier.foldlM (TimeAggregator.processEvent timeSum) s = .ok s' ∧
          s'.value = (earlier.foldl matchEvent m).durations.sum) →
      Outcome.StepsMeet LastOpen (fun m event => .ok (matchEvent m event)) events m := by
  induction events with
  | nil => exact fun _ _ _ _ => trivial
  | cons event events ih =>
    intro m s hordered hagrees hsorted hright
    rw [List.map_cons, List.pairwise_cons] at hsorted
    have hlater := hsorted.1 _ List.mem_cons_self
    obtain ⟨t, hstep, hsum⟩ := hright [event] ⟨events, rfl⟩
    rw [List.foldlM_cons] at hstep
    obtain ⟨u, hu, hut⟩ := Outcome.bind_eq_ok.mp hstep
    obtain rfl := Outcome.ok.inj hut
    have hmeets := lastOpen_of_sum hordered hagrees hlater hu hsum
    obtain ⟨t, ht, hagrees'⟩ := agrees_step keeps_timeSum hagrees hmeets
    refine ⟨hmeets, fun m' hm' => ?_⟩
    obtain rfl := Outcome.ok.inj hm'
    refine ih (hordered.matchEvent hlater) hagrees' ?_ fun earlier hearlier => ?_
    · rcases lastTime_matchEvent m event with hsame | hnew
      · rw [hsame]
        exact List.pairwise_cons.mpr
          ⟨fun time htime => hsorted.1 time (List.mem_cons_of_mem _ htime), hsorted.2.tail⟩
      · rw [hnew]
        exact hsorted.2
    · obtain ⟨s', hrun, hvalue⟩ :=
        hright (event :: earlier) ((List.prefix_cons_inj event).mpr hearlier)
      rw [List.foldlM_cons, ht, Outcome.ok_bind] at hrun
      exact ⟨s', hrun, hvalue⟩

/-- Each event is later than those before it, by a nanosecond at least, and the first later
than zero. -/
def InOrder (events : List QualExprEvent) : Prop := (0 :: events.map nanoseconds).Pairwise (· < ·)

end Order

/-- Where every stop that has a start follows it before the next one, and no other stop has the
id of the last start, the aggregators are right after each event. Where the events are in order
they are right in no other case. -/
theorem timesRight_lastOpen (events : List QualExprEvent) :
    (Outcome.StepsMeet LastOpen (fun m event => .ok (matchEvent m event)) events .new →
      ∀ earlier, earlier <+: events → TimesRight earlier) ∧
    (InOrder events → (∀ earlier, earlier <+: events → TimesRight earlier) →
      Outcome.StepsMeet LastOpen (fun m event => .ok (matchEvent m event)) events .new) := by
  refine ⟨timesRight_of_steps, fun horder hright => ?_⟩
  refine stepsMeet_of_sums ordered_new (agrees_new keeps_timeSum) horder fun earlier hearlier => ?_
  exact (hright earlier hearlier).1

section Instances

/-- A pair within another one, and a pair behind both. -/
def nested : List QualExprEvent :=
  [⟨0, 0, .start, 1⟩, ⟨1, 0, .start, 2⟩, ⟨2, 0, .stop, 2⟩, ⟨3, 0, .stop, 1⟩]

def oneByOne : List QualExprEvent :=
  [⟨1, 0, .start, 1⟩, ⟨2, 0, .stop, 1⟩, ⟨3, 0, .start, 2⟩, ⟨5, 0, .stop, 2⟩]

theorem stepsMeet_oneByOne :
    Outcome.StepsMeet LastOpen (fun m event => .ok (matchEvent m event)) oneByOne .new := by
  refine ⟨⟨by decide +kernel, by decide +kernel⟩, fun m hm => ?_⟩
  obtain rfl := Outcome.ok.inj hm
  refine ⟨⟨rfl, by decide +kernel, by decide +kernel, by decide +kernel⟩, fun m hm => ?_⟩
  obtain rfl := Outcome.ok.inj hm
  refine ⟨⟨by decide +kernel, by decide +kernel⟩, fun m hm => ?_⟩
  obtain rfl := Outcome.ok.inj hm
  exact ⟨⟨rfl, by decide +kernel, by decide +kernel, by decide +kernel⟩, fun _ _ => trivial⟩

theorem timesRight_oneByOne :
    (∀ earlier, earlier <+: oneByOne → TimesRight earlier) ∧
    Outcome.StepsMeet LastOpen (fun m event => .ok (matchEvent m event)) oneByOne .new := by
  have hright := (timesRight_lastOpen oneByOne).1 stepsMeet_oneByOne
  have horder : InOrder oneByOne := by
    rw [InOrder]
    decide +kernel
  exact ⟨hright, (timesRight_lastOpen oneByOne).2 horder hright⟩

/-- The outer pair is not taken up: its start is not the last one. -/
theorem not_timesRight : ¬ ∀ events, TimesRight events := by
  intro h
  obtain ⟨⟨s, hrun, hresult⟩, -⟩ := h nested
  have hvalue : (nested.foldlM (TimeAggregator.processEvent timeSum) (.new timeSum)).returnsWith
      fun s => s.evaluate timeSum = 10 ^ 9 := by decide +kernel
  rw [hrun] at hvalue
  rw [of_decide_eq_true hvalue] at hresult
  revert hresult
  decide +kernel

end Instances

end ReadexPtf.QualExpr
