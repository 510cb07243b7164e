import ReadexPtf.Lib.Outcome
import ReadexPtf.Lib.OrdMap

/-! The manager of the quality expressions: one evaluator for each thread, and the list of
expressions that late threads replay. -/
namespace ReadexPtf.QualExpr

/-- What the parser makes of an expression: the aggregators it asks for, in order, and the
compute node, null for an empty expression. An error is thrown behind the aggregators that
have been built by then. -/
structure Parsed (Agg Node : Type) where
  aggregators : List Agg
  node : Option (Option Node)

structure QualityExpressionEntry (Expr : Type) where
  id : ℕ
  expression : Expr
  deriving DecidableEq

/-- The values that the aggregators measure are left out: only events change them. -/
structure QualExprEvaluator (Agg Node : Type) where
  semAggregatorList : List Agg
  computeNodeDB : OrdMap ℕ (Option Node)

namespace QualExprEvaluator
variable {Expr Agg Node : Type}

def new : QualExprEvaluator Agg Node := ⟨[], .empty⟩

def clearMeasures (_ : QualExprEvaluator Agg Node) : QualExprEvaluator Agg Node := new

/-- The aggregators keep their places, and their values are left out. -/
def resetMeasures (evaluator : QualExprEvaluator Agg Node) : QualExprEvaluator Agg Node := evaluator

variable [DecidableEq Agg]

/-- An aggregator that is there is used again. -/
def pushAggregator (aggregators : List Agg) (aggregator : Agg) : List Agg :=
  if aggregator ∈ aggregators then aggregators else aggregators ++ [aggregator]

variable (parse : Expr → Parsed Agg Node)

/-- The evaluator as the call leaves it, and the number of entries; none for an exception. -/
def pushMeasure (evaluator : QualExprEvaluator Agg Node) (entry : QualityExpressionEntry Expr) :
    QualExprEvaluator Agg Node × Option ℕ :=
  match evaluator.computeNodeDB.get? entry.id with
  | some _ => (evaluator, some 0)
  | none =>
    let parsed := parse entry.expression
    let aggregators := parsed.aggregators.foldl pushAggregator evaluator.semAggregatorList
    match parsed.node with
    | none => ({ evaluator with semAggregatorList := aggregators }, none)
    | some node =>
      (⟨aggregators, evaluator.computeNodeDB.set entry.id node⟩,
        some (if node.isSome then 1 else 0))

/-- The expressions of the list one after another, up to an exception. -/
def pushMeasures (entries : List (QualityExpressionEntry Expr))
    (evaluator : QualExprEvaluator Agg Node) : Option (QualExprEvaluator Agg Node) :=
  entries.foldlM (fun evaluator entry =>
    (evaluator.pushMeasure parse entry).2.map fun _ => (evaluator.pushMeasure parse entry).1)
    evaluator

end QualExprEvaluator

inductive ProfilerState where
  | off
  | registered
  | on
  deriving DecidableEq, Repr

structure QualExprManager (Expr Agg Node : Type) where
  state : ProfilerState
  evaluators : OrdMap ℕ (QualExprEvaluator Agg Node)
  expressionList : List (QualityExpressionEntry Expr)

namespace QualExprManager
variable {Expr Agg Node : Type}

/-- The manager after `init` in the given thread. -/
def init (tid : ℕ) : QualExprManager Expr Agg Node :=
  ⟨.registered, OrdMap.empty.set tid .new, []⟩

def setEvaluator (manager : QualExprManager Expr Agg Node) (tid : ℕ)
    (evaluator : QualExprEvaluator Agg Node) : QualExprManager Expr Agg Node :=
  { manager with evaluators := manager.evaluators.set tid evaluator }

variable [DecidableEq Agg] (parse : Expr → Parsed Agg Node)

/-- An exception of the evaluator is not among those that the function may throw. -/
def getEvaluator (manager : QualExprManager Expr Agg Node) (tid : ℕ) :
    Outcome (QualExprManager Expr Agg Node × QualExprEvaluator Agg Node) :=
  match manager.evaluators.get? tid with
  | some evaluator => .ok (manager, evaluator)
  | none =>
    match QualExprEvaluator.pushMeasures parse manager.expressionList .new with
    | none => .aborts
    | some evaluator => .ok (manager.setEvaluator tid evaluator, evaluator)

/-- The number of entries; none where an exception is thrown. -/
def addCounter (manager : QualExprManager Expr Agg Node) (tid : ℕ)
    (entry : QualityExpressionEntry Expr) :
    Outcome (QualExprManager Expr Agg Node × Option ℕ) :=
  if manager.state = .registered then do
    let (manager, evaluator) ← manager.getEvaluator parse tid
    let (evaluator, count) := evaluator.pushMeasure parse entry
    return (manager.setEvaluator tid evaluator, count)
  else .ok (manager, none)

/-- The loop over the threads, which an exception leaves. -/
def addCounters (entry : QualityExpressionEntry Expr) : List ℕ → ℕ →
    QualExprManager Expr Agg Node → Outcome (QualExprManager Expr Agg Node × Option ℕ)
  | [], rcount, manager => .ok (manager, some rcount)
  | tid :: tids, rcount, manager => do
    match ← manager.addCounter parse tid entry with
    | (manager, none) => return (manager, none)
    | (manager, some count) => addCounters entry tids (rcount + count) manager

def addGlobalCounter (manager : QualExprManager Expr Agg Node)
    (entry : QualityExpressionEntry Expr) :
    Outcome (QualExprManager Expr Agg Node × Option ℕ) :=
  if manager.state = .registered then
    addCounters parse entry manager.evaluators.keys 0
      { manager with expressionList := manager.expressionList ++ [entry] }
  else .ok (manager, none)

def removeCounters (manager : QualExprManager Expr Agg Node) (tid : ℕ) :
    Outcome (QualExprManager Expr Agg Node) := do
  let (manager, evaluator) ← manager.getEvaluator parse tid
  return manager.setEvaluator tid evaluator.clearMeasures

def removeAllCounters (manager : QualExprManager Expr Agg Node) :
    Outcome (QualExprManager Expr Agg Node × Option ℕ) :=
  if manager.state = .registered then do
    let manager ← manager.evaluators.keys.foldlM (removeCounters parse) manager
    return ({ manager with expressionList := [] }, some 0)
  else .ok (manager, none)

def resetCounters (manager : QualExprManager Expr Agg Node) (tid : ℕ) :
    Outcome (QualExprManager Expr Agg Node × Option ℕ) :=
  if manager.state = .registered then do
    let (manager, evaluator) ← manager.getEvaluator parse tid
    return (manager.setEvaluator tid evaluator.resetMeasures, some 0)
  else .ok (manager, none)

end QualExprManager

inductive Call (Expr : Type) where
  | addGlobalCounter (entry : QualityExpressionEntry Expr)
  | getEvaluator (tid : ℕ)
  | removeAllCounters
  | resetCounters (tid : ℕ)

/-- The manager after a call, and whether an exception has been thrown. -/
def QualExprManager.call {Expr Agg Node : Type} [DecidableEq Agg] (parse : Expr → Parsed Agg Node)
    (manager : QualExprManager Expr Agg Node) :
    Call Expr → Outcome (QualExprManager Expr Agg Node × Option ℕ)
  | .addGlobalCounter entry => manager.addGlobalCounter parse entry
  | .getEvaluator tid => do
    let (manager, _) ← manager.getEvaluator parse tid
    return (manager, some 0)
  | .removeAllCounters => manager.removeAllCounters parse
  | .resetCounters tid => manager.resetCounters parse tid

end ReadexPtf.QualExpr
