import ReadexPtf.Lib.Long

/-! The aggregators of event times and bandwidths. Rational numbers stand for `double`; the
number of events stays below what a `size_t` holds. -/
namespace ReadexPtf.QualExpr

inductive EventState where
  | undefined
  | start
  | wait
  | stop
  | counter
  deriving DecidableEq, Repr

/-- The time is in seconds. -/
structure QualExprEvent where
  timestamp : ℚ
  value : ℤ
  state : EventState
  eid : ℕ
  deriving DecidableEq

/-- An average is the quotient of unsigned numbers. -/
def average (count : ℕ) (value : ℤ) : ℤ :=
  if count = 0 then 0 else (value % 2 ^ 64 / count).bmod (2 ^ 64)

/-- How a measured number is taken up, what the value is before the first one, and what is
made of the value in the end. -/
structure Aggregation where
  accumulate : ℤ → ℚ → Outcome ℤ
  reset : ℤ
  evaluate : ℕ → ℤ → ℤ

def largest : Aggregation where
  accumulate value measured := do
    let newValue ← toLong measured
    return if value < newValue then newValue else value
  reset := 0
  evaluate _ value := value

/-- A value below zero is one that is not there yet. -/
def smallest : Aggregation where
  accumulate value measured := do
    let newValue ← toLong measured
    return if value < 0 ∨ newValue < value then newValue else value
  reset := -1
  evaluate _ value := value

def timeSum : Aggregation where
  accumulate value measured := do
    let newValue ← toLong measured
    checkedLong (value + newValue)
  reset := 0
  evaluate _ value := value

def timeAverage : Aggregation where
  accumulate value measured := toLong (value + measured)
  reset := 0
  evaluate := average

def timeMax : Aggregation := largest
def timeMin : Aggregation := smallest

def bandwidthMax : Aggregation := largest
def bandwidthMin : Aggregation := smallest

section Time

structure TimeAggregator where
  previousEid : ℕ
  previousTimeStamp : ℤ
  count : ℕ
  value : ℤ

variable (aggregation : Aggregation)

def TimeAggregator.new : TimeAggregator := ⟨0, 0, 0, aggregation.reset⟩

/-- The time between the events is in nanoseconds. -/
def TimeAggregator.processEvent (s : TimeAggregator) (event : QualExprEvent) :
    Outcome TimeAggregator :=
  match event.state with
  | .start => do
    let previousTimeStamp ← toLong (event.timestamp * 10 ^ 9)
    return { s with previousTimeStamp, previousEid := event.eid }
  | .stop =>
    if s.previousEid = event.eid then do
      let value ← aggregation.accumulate s.value (event.timestamp * 10 ^ 9 - s.previousTimeStamp)
      return { s with count := s.count + 1, value }
    else .ok s
  | _ => .ok s

def TimeAggregator.evaluate (s : TimeAggregator) : ℤ := aggregation.evaluate s.count s.value

end Time

section Bandwidth

structure PreviousEvent where
  eid : ℕ
  timeStamp : ℤ
  size : ℚ

/-- Nothing is stored before the first event. -/
structure BandwidthAggregator where
  previous : Option PreviousEvent
  count : ℕ
  value : ℤ

variable (aggregation : Aggregation)

def BandwidthAggregator.new : BandwidthAggregator := ⟨none, 0, aggregation.reset⟩

/-- The time of the previous event is kept in whole seconds. -/
def BandwidthAggregator.processEvent (s : BandwidthAggregator) (event : QualExprEvent) :
    Outcome BandwidthAggregator :=
  match event.state with
  | .start => do
    let timeStamp ← toLong event.timestamp
    return { s with previous := some ⟨event.eid, timeStamp, event.value⟩ }
  | .stop => do
    let previous ← Outcome.found s.previous
    if previous.eid = event.eid then
      let time := event.timestamp - previous.timeStamp
      let value ← if time = 0 then .undefined
        else aggregation.accumulate s.value (previous.size / time)
      return { s with count := s.count + 1, value }
    else return s
  | _ => .ok s

def BandwidthAggregator.evaluate (s : BandwidthAggregator) : ℤ :=
  aggregation.evaluate s.count s.value

end Bandwidth

end ReadexPtf.QualExpr
