import ReadexPtf.QualExpr.Manager

/-! Runs of the manager: the evaluators stay what a late thread replays exactly while every
expression that is added parses. -/
namespace ReadexPtf.QualExpr
variable {Expr Agg Node : Type} [DecidableEq Agg] (parse : Expr → Parsed Agg Node)

/-- The evaluator holds the nodes of the entries, and no others. -/
structure Holds (evaluator : QualExprEvaluator Agg Node)
    (entries : List (QualityExpressionEntry Expr)) : Prop where
  parses : ∀ entry ∈ entries, ∃ node, (parse entry.expression).node = some node ∧
    evaluator.computeNodeDB.get? entry.id = some node
  listed : ∀ id node, evaluator.computeNodeDB.get? id = some node →
    ∃ entry ∈ entries, entry.id = id ∧ (parse entry.expression).node = some node

/-- A late thread gets an evaluator for exactly the expressions of the list, and every other
thread has the same. -/
def Consistent (manager : QualExprManager Expr Agg Node) : Prop :=
  ∃ evaluator, QualExprEvaluator.pushMeasures parse manager.expressionList .new = some evaluator ∧
    Holds parse evaluator manager.expressionList ∧
    ∀ tid other, manager.evaluators.get? tid = some other → other = evaluator

/-- A failing call leaves the list and every evaluator as they were. -/
def Unchanged (manager manager' : QualExprManager Expr Agg Node) : Prop :=
  manager'.expressionList = manager.expressionList ∧
    ∀ tid, manager'.evaluators.get? tid = manager.evaluators.get? tid

/-- Every call of the run returns or throws, and the manager is consistent after it. -/
def StaysConsistent : QualExprManager Expr Agg Node → List (Call Expr) → Prop
  | manager, [] => Consistent parse manager
  | manager, call :: calls => Consistent parse manager ∧ ∃ manager' count,
    manager.call parse call = .ok (manager', count) ∧
      (count = none → Unchanged manager manager') ∧ StaysConsistent manager' calls

/-- The expression parses, and to the same node as others of its id. -/
def Meets (manager : QualExprManager Expr Agg Node) : Call Expr → Prop
  | .addGlobalCounter entry => ∃ node, (parse entry.expression).node = some node ∧
    ∀ other ∈ manager.expressionList, other.id = entry.id →
      (parse other.expression).node = some node
  | _ => True

def QualExprManager.next (manager : QualExprManager Expr Agg Node) (call : Call Expr) :
    Outcome (QualExprManager Expr Agg Node) := do
  let (manager, _) ← manager.call parse call
  return manager

section Evaluators
variable {parse}

omit [DecidableEq Agg] in
theorem holds_new : Holds parse (.new : QualExprEvaluator Agg Node) [] where
  parses := by simp
  listed := by simp [QualExprEvaluator.new]

theorem pushMeasures_append {entries : List (QualityExpressionEntry Expr)}
    {entry : QualityExpressionEntry Expr} {evaluator : QualExprEvaluator Agg Node}
    (h : QualExprEvaluator.pushMeasures parse entries .new = some evaluator) :
    QualExprEvaluator.pushMeasures parse (entries ++ [entry]) .new =
      (evaluator.pushMeasure parse entry).2.map fun _ => (evaluator.pushMeasure parse entry).1 := by
  rw [QualExprEvaluator.pushMeasures] at h ⊢
  rw [List.foldlM_append, h]
  simp [List.foldlM_cons]

/-- An expression that meets the condition is pushed, and then held. -/
theorem Holds.push {evaluator : QualExprEvaluator Agg Node}
    {entries : List (QualityExpressionEntry Expr)} (h : Holds parse evaluator entries)
    {entry : QualityExpressionEntry Expr} {node : Option Node}
    (hnode : (parse entry.expression).node = some node)
    (hsame : ∀ other ∈ entries, other.id = entry.id → (parse other.expression).node = some node) :
    ∃ pushed count, evaluator.pushMeasure parse entry = (pushed, some count) ∧
      Holds parse pushed (entries ++ [entry]) := by
  cases hget : evaluator.computeNodeDB.get? entry.id with
  | some held =>
    -- The id is there: an entry of the list has it, with the same node.
    obtain ⟨other, hother, hid, hheld⟩ := h.listed entry.id held hget
    have heq : held = node := Option.some.inj (hheld.symm.trans (hsame other hother hid))
    refine ⟨evaluator, 0, by simp [QualExprEvaluator.pushMeasure, hget], ?_, fun id node' hget' => ?_⟩
    · intro entry' hmem
      cases List.mem_append.mp hmem with
      | inl hold => exact h.parses entry' hold
      | inr hnew =>
        rw [List.mem_singleton.mp hnew]
        exact ⟨node, hnode, heq ▸ hget⟩
    · obtain ⟨entry', hmem, hentry'⟩ := h.listed id node' hget'
      exact ⟨entry', List.mem_append_left [entry] hmem, hentry'⟩
  | none =>
    have hpush : evaluator.pushMeasure parse entry =
        (⟨(parse entry.expression).aggregators.foldl QualExprEvaluator.pushAggregator
          evaluator.semAggregatorList, evaluator.computeNodeDB.set entry.id node⟩,
          some (if node.isSome then 1 else 0)) := by
      simp only [QualExprEvaluator.pushMeasure, hget, hnode]
    refine ⟨_, _, hpush, ?_, fun id node' hget' => ?_⟩
    · intro entry' hmem
      cases List.mem_append.mp hmem with
      | inl hold =>
        obtain ⟨node', hparsed, hheld⟩ := h.parses entry' hold
        refine ⟨node', hparsed, ?_⟩
        have hne : entry'.id ≠ entry.id := fun heq => by simp [← heq, hheld] at hget
        exact (OrdMap.get?_set_ne _ _ hne).trans hheld
      | inr hnew =>
        rw [List.mem_singleton.mp hnew]
        exact ⟨node, hnode, OrdMap.get?_set_self _ _ _⟩
    · rw [OrdMap.get?_set] at hget'
      split_ifs at hget' with hid
      · exact ⟨entry, by simp, hid.symm, hnode.trans hget'⟩
      · obtain ⟨entry', hmem, hentry'⟩ := h.listed id node' hget'
        exact ⟨entry', List.mem_append_left [entry] hmem, hentry'⟩

end Evaluators

/-! The loops over the threads. -/

section Loops
variable {parse} {manager : QualExprManager Expr Agg Node}

/-- A call for a thread that has an evaluator. -/
theorem addCounter_ok {tid count : ℕ} {entry : QualityExpressionEntry Expr}
    {evaluator pushed : QualExprEvaluator Agg Node} (hstate : manager.state = .registered)
    (hget : manager.evaluators.get? tid = some evaluator)
    (hpush : evaluator.pushMeasure parse entry = (pushed, some count)) :
    manager.addCounter parse tid entry = .ok (manager.setEvaluator tid pushed, some count) := by
  rw [QualExprManager.addCounter, if_pos hstate, QualExprManager.getEvaluator, hget]
  simp only [Outcome.ok_bind, hpush]
  rfl

theorem removeCounters_ok {tid : ℕ} {evaluator : QualExprEvaluator Agg Node}
    (hget : manager.evaluators.get? tid = some evaluator) :
    manager.removeCounters parse tid = .ok (manager.setEvaluator tid .new) := by
  rw [QualExprManager.removeCounters, QualExprManager.getEvaluator, hget]
  rfl

/-- The evaluators of some threads are replaced. -/
structure Replaced (pushed : QualExprEvaluator Agg Node) (tids : List ℕ)
    (manager manager' : QualExprManager Expr Agg Node) : Prop where
  state : manager'.state = manager.state
  list : manager'.expressionList = manager.expressionList
  evaluators : ∀ tid, manager'.evaluators.get? tid =
    if tid ∈ tids then some pushed else manager.evaluators.get? tid

omit [DecidableEq Agg] in
theorem Replaced.cons {pushed : QualExprEvaluator Agg Node} {tid : ℕ} {tids : List ℕ}
    {manager' : QualExprManager Expr Agg Node}
    (h : Replaced pushed tids (manager.setEvaluator tid pushed) manager') :
    Replaced pushed (tid :: tids) manager manager' where
  state := h.state
  list := h.list
  evaluators := by
    intro tid'
    rw [h.evaluators, QualExprManager.setEvaluator, OrdMap.get?_set]
    by_cases hself : tid' = tid <;> simp [hself]

theorem addCounters_ok {entry : QualityExpressionEntry Expr}
    {evaluator pushed : QualExprEvaluator Agg Node} {count : ℕ}
    (hpush : evaluator.pushMeasure parse entry = (pushed, some count)) {tids : List ℕ} :
    ∀ {manager : QualExprManager Expr Agg Node} {rcount : ℕ}, manager.state = .registered →
      tids.Nodup → (∀ tid ∈ tids, manager.evaluators.get? tid = some evaluator) →
      ∃ manager' total, QualExprManager.addCounters parse entry tids rcount manager =
        .ok (manager', some total) ∧ Replaced pushed tids manager manager' := by
  induction tids with
  | nil =>
    intro manager rcount _ _ _
    exact ⟨manager, rcount, rfl, rfl, rfl, fun tid => by simp⟩
  | cons tid tids ih =>
    intro manager rcount hstate hnodup hget
    obtain ⟨hself, hothers⟩ := List.forall_mem_cons.mp hget
    obtain ⟨hnew, hnodup'⟩ := List.nodup_cons.mp hnodup
    have hlater : ∀ tid' ∈ tids,
        (manager.setEvaluator tid pushed).evaluators.get? tid' = some evaluator := by
      intro tid' hmem
      rw [QualExprManager.setEvaluator, OrdMap.get?_set_ne _ _ (ne_of_mem_of_not_mem hmem hnew)]
      exact hothers tid' hmem
    have hstate' : (manager.setEvaluator tid pushed).state = .registered := hstate
    obtain ⟨manager', total, hrun, hreplaced⟩ := ih hstate' hnodup' hlater
    refine ⟨manager', total, ?_, hreplaced.cons⟩
    rw [QualExprManager.addCounters, addCounter_ok hstate hself hpush]
    exact hrun

theorem removeCounters_foldlM {tids : List ℕ} : ∀ {manager : QualExprManager Expr Agg Node},
    (∀ tid ∈ tids, ∃ evaluator, manager.evaluators.get? tid = some evaluator) →
    ∃ manager', tids.foldlM (QualExprManager.removeCounters parse) manager = .ok manager' ∧
      Replaced .new tids manager manager' := by
  induction tids with
  | nil =>
    intro manager _
    exact ⟨manager, rfl, rfl, rfl, fun tid => by simp⟩
  | cons tid tids ih =>
    intro manager hget
    obtain ⟨⟨evaluator, hself⟩, hothers⟩ := List.forall_mem_cons.mp hget
    have hlater : ∀ tid' ∈ tids, ∃ other,
        (manager.setEvaluator tid .new).evaluators.get? tid' = some other := by
      intro tid' hmem
      rw [QualExprManager.setEvaluator, OrdMap.get?_set]
      split_ifs
      · exact ⟨_, rfl⟩
      · exact hothers tid' hmem
    obtain ⟨manager', hrun, hreplaced⟩ := ih hlater
    refine ⟨manager', ?_, hreplaced.cons⟩
    rw [List.foldlM_cons, removeCounters_ok hself]
    exact hrun

end Loops

/-! Calls. -/

section Calls
variable {parse} {manager : QualExprManager Expr Agg Node}

/-- Every thread gets the evaluator of the others. -/
theorem Consistent.getEvaluator (h : Consistent parse manager) (tid : ℕ) :
    ∃ manager' evaluator, manager.getEvaluator parse tid = .ok (manager', evaluator) ∧
      Consistent parse manager' ∧ manager'.state = manager.state ∧
      manager'.evaluators.get? tid = some evaluator := by
  obtain ⟨evaluator, hreplay, hholds, hsame⟩ := h
  cases hget : manager.evaluators.get? tid with
  | some other =>
    refine ⟨manager, other, by rw [QualExprManager.getEvaluator, hget], ?_, rfl, hget⟩
    exact ⟨evaluator, hreplay, hholds, hsame⟩
  | none =>
    refine ⟨manager.setEvaluator tid evaluator, evaluator, ?_, ?_, rfl, OrdMap.get?_set_self _ _ _⟩
    · rw [QualExprManager.getEvaluator, hget]
      simp only [hreplay]
    · refine ⟨evaluator, hreplay, hholds, fun tid' other hother => ?_⟩
      rw [QualExprManager.setEvaluator, OrdMap.get?_set] at hother
      split_ifs at hother
      · exact (Option.some.inj hother).symm
      · exact hsame tid' other hother

theorem Consistent.resetCounters (h : Consistent parse manager)
    (hstate : manager.state = .registered) (tid : ℕ) :
    ∃ manager', manager.resetCounters parse tid = .ok (manager', some 0) ∧
      Consistent parse manager' ∧ manager'.state = manager.state := by
  obtain ⟨manager', evaluator, hrun, hconsistent, hstate', hget⟩ := h.getEvaluator tid
  obtain ⟨replayed, hreplay, hholds, hsame⟩ := hconsistent
  refine ⟨manager'.setEvaluator tid evaluator, ?_, ?_, hstate'⟩
  · rw [QualExprManager.resetCounters, if_pos hstate, hrun]
    rfl
  · refine ⟨replayed, hreplay, hholds, fun tid' other hother => ?_⟩
    rw [QualExprManager.setEvaluator, OrdMap.get?_set] at hother
    split_ifs at hother with hself
    · exact hsame tid other (hget.trans hother)
    · exact hsame tid' other hother

theorem removeAllCounters_ok (hstate : manager.state = .registered) :
    ∃ manager', manager.removeAllCounters parse = .ok (manager', some 0) ∧
      Consistent parse manager' ∧ manager'.state = manager.state := by
  have hget : ∀ tid ∈ manager.evaluators.keys, ∃ evaluator,
      manager.evaluators.get? tid = some evaluator := fun tid hmem => OrdMap.mem_keys.mp hmem
  obtain ⟨manager', hrun, hreplaced⟩ : ∃ manager',
      manager.evaluators.keys.foldlM (QualExprManager.removeCounters parse) manager =
        .ok manager' ∧ Replaced .new manager.evaluators.keys manager manager' :=
    removeCounters_foldlM hget
  refine ⟨{ manager' with expressionList := [] }, ?_, ?_, hreplaced.state⟩
  · rw [QualExprManager.removeAllCounters, if_pos hstate, hrun]
    rfl
  · refine ⟨.new, rfl, holds_new, fun tid other hother => ?_⟩
    have hget := (hreplaced.evaluators tid).symm.trans hother
    split_ifs at hget with hmem
    · exact (Option.some.inj hget).symm
    · exact absurd (OrdMap.mem_keys.mpr ⟨other, hget⟩) hmem

theorem Consistent.addGlobalCounter (h : Consistent parse manager)
    (hstate : manager.state = .registered) {entry : QualityExpressionEntry Expr}
    (hmeets : Meets parse manager (.addGlobalCounter entry)) :
    ∃ manager' total, manager.addGlobalCounter parse entry = .ok (manager', some total) ∧
      Consistent parse manager' ∧ manager'.state = manager.state := by
  obtain ⟨evaluator, hreplay, hholds, hsame⟩ := h
  obtain ⟨node, hnode, hother⟩ := hmeets
  obtain ⟨pushed, count, hpush, hheld⟩ := hholds.push hnode hother
  have hget : ∀ tid ∈ manager.evaluators.keys, manager.evaluators.get? tid = some evaluator := by
    intro tid hmem
    obtain ⟨other, hget⟩ := OrdMap.mem_keys.mp hmem
    rw [hget, hsame tid other hget]
  have hlisted : ({ manager with expressionList := manager.expressionList ++ [entry] } :
      QualExprManager Expr Agg Node).state = .registered := hstate
  obtain ⟨manager', total, hrun, hreplaced⟩ :=
    addCounters_ok hpush hlisted manager.evaluators.keys_nodup hget
  refine ⟨manager', total, ?_, ⟨pushed, ?_, ?_, fun tid other hother' => ?_⟩, hreplaced.state⟩
  · rw [QualExprManager.addGlobalCounter, if_pos hstate, hrun]
  · rw [hreplaced.list, pushMeasures_append hreplay, hpush]
    rfl
  · rw [hreplaced.list]
    exact hheld
  · have hget' := (hreplaced.evaluators tid).symm.trans hother'
    split_ifs at hget' with hmem
    · exact (Option.some.inj hget').symm
    · exact absurd (OrdMap.mem_keys.mpr ⟨other, hget'⟩) hmem

/-! A call that adds an expression lists it in any case. -/

theorem getEvaluator_list {manager' : QualExprManager Expr Agg Node} {tid : ℕ}
    {evaluator : QualExprEvaluator Agg Node}
    (h : manager.getEvaluator parse tid = .ok (manager', evaluator)) :
    manager'.expressionList = manager.expressionList := by
  rw [QualExprManager.getEvaluator] at h
  split at h
  · cases h
    rfl
  · split at h
    · cases h
    · cases h
      rfl

theorem addCounter_list {manager' : QualExprManager Expr Agg Node} {tid : ℕ}
    {entry : QualityExpressionEntry Expr} {count : Option ℕ}
    (h : manager.addCounter parse tid entry = .ok (manager', count)) :
    manager'.expressionList = manager.expressionList := by
  rw [QualExprManager.addCounter] at h
  split_ifs at h
  · obtain ⟨⟨other, evaluator⟩, hget, h⟩ := Outcome.bind_eq_ok.mp h
    have hlist := getEvaluator_list hget
    cases h
    exact hlist
  · cases h
    rfl

theorem addCounters_list {entry : QualityExpressionEntry Expr} {tids : List ℕ} :
    ∀ {manager manager' : QualExprManager Expr Agg Node} {rcount : ℕ} {count : Option ℕ},
      QualExprManager.addCounters parse entry tids rcount manager = .ok (manager', count) →
      manager'.expressionList = manager.expressionList := by
  induction tids with
  | nil =>
    intro manager manager' rcount count h
    cases h
    rfl
  | cons tid tids ih =>
    intro manager manager' rcount count h
    rw [QualExprManager.addCounters] at h
    obtain ⟨⟨next, added⟩, hadd, h⟩ := Outcome.bind_eq_ok.mp h
    have hlist := addCounter_list hadd
    cases added with
    | none =>
      cases h
      exact hlist
    | some added => exact (ih h).trans hlist

omit [DecidableEq Agg] in
theorem Holds.meets {evaluator : QualExprEvaluator Agg Node}
    {entry : QualityExpressionEntry Expr}
    (h : Holds parse evaluator (manager.expressionList ++ [entry])) :
    Meets parse manager (.addGlobalCounter entry) := by
  obtain ⟨node, hnode, hheld⟩ := h.parses entry (by simp)
  refine ⟨node, hnode, fun other hother hid => ?_⟩
  obtain ⟨node', hnode', hheld'⟩ := h.parses other (List.mem_append_left [entry] hother)
  rw [hid, hheld] at hheld'
  rw [hnode', Option.some.inj hheld']

/-- A call after which the manager is consistent has met the condition. -/
theorem meets_of_consistent {manager' : QualExprManager Expr Agg Node} {call : Call Expr}
    {count : Option ℕ} (hstate : manager.state = .registered)
    (hrun : manager.call parse call = .ok (manager', count)) (h : Consistent parse manager') :
    Meets parse manager call := by
  cases call with
  | addGlobalCounter entry =>
    rw [QualExprManager.call, QualExprManager.addGlobalCounter, if_pos hstate] at hrun
    obtain ⟨evaluator, _, hholds, _⟩ := h
    rw [addCounters_list hrun] at hholds
    exact hholds.meets
  | getEvaluator tid => trivial
  | removeAllCounters => trivial
  | resetCounters tid => trivial

/-- A call that meets the condition returns, and leaves the manager consistent. -/
theorem Consistent.call (h : Consistent parse manager) (hstate : manager.state = .registered)
    {call : Call Expr} (hmeets : Meets parse manager call) :
    ∃ manager' total, manager.call parse call = .ok (manager', some total) ∧
      Consistent parse manager' ∧ manager'.state = .registered := by
  cases call with
  | addGlobalCounter entry =>
    obtain ⟨manager', total, hrun, hconsistent, hstate'⟩ := h.addGlobalCounter hstate hmeets
    exact ⟨manager', total, hrun, hconsistent, hstate'.trans hstate⟩
  | getEvaluator tid =>
    obtain ⟨manager', evaluator, hrun, hconsistent, hstate', _⟩ := h.getEvaluator tid
    refine ⟨manager', 0, ?_, hconsistent, hstate'.trans hstate⟩
    rw [QualExprManager.call, hrun]
    rfl
  | removeAllCounters =>
    obtain ⟨manager', hrun, hconsistent, hstate'⟩ := removeAllCounters_ok hstate
    exact ⟨manager', 0, hrun, hconsistent, hstate'.trans hstate⟩
  | resetCounters tid =>
    obtain ⟨manager', hrun, hconsistent, hstate'⟩ := h.resetCounters hstate tid
    exact ⟨manager', 0, hrun, hconsistent, hstate'.trans hstate⟩

theorem Consistent.stays_iff {calls : List (Call Expr)} :
    ∀ {manager : QualExprManager Expr Agg Node}, Consistent parse manager →
      manager.state = .registered →
      (StaysConsistent parse manager calls ↔
        Outcome.StepsMeet (Meets parse) (QualExprManager.next parse) calls manager) := by
  induction calls with
  | nil =>
    intro manager h _
    exact iff_of_true h trivial
  | cons call calls ih =>
    intro manager h hstate
    constructor
    · rintro ⟨_, manager', count, hrun, _, hstays⟩
      have hconsistent : Consistent parse manager' := by
        cases calls with
        | nil => exact hstays
        | cons next calls => exact hstays.1
      have hmeets := meets_of_consistent hstate hrun hconsistent
      obtain ⟨other, total, hrun', _, hstate'⟩ := h.call hstate hmeets
      rw [hrun] at hrun'
      cases hrun'
      refine ⟨hmeets, fun next hnext => ?_⟩
      rw [QualExprManager.next, hrun] at hnext
      cases hnext
      exact (ih hconsistent hstate').mp hstays
    · rintro ⟨hmeets, hrest⟩
      obtain ⟨manager', total, hrun, hconsistent, hstate'⟩ := h.call hstate hmeets
      refine ⟨h, manager', some total, hrun, ?_, ?_⟩
      · intro hnone
        cases hnone
      · refine (ih hconsistent hstate').mpr (hrest manager' ?_)
        rw [QualExprManager.next, hrun]
        rfl

end Calls

theorem consistent_init (tid : ℕ) :
    Consistent parse (.init tid : QualExprManager Expr Agg Node) := by
  refine ⟨.new, rfl, holds_new, fun tid' other hother => ?_⟩
  rw [QualExprManager.init, OrdMap.get?_set] at hother
  split_ifs at hother
  · exact (Option.some.inj hother).symm
  · cases hother

/-- A run leaves every evaluator with the expressions of the list exactly when each expression
that is added parses, to the same node as others of its id. -/
theorem manager_staysConsistent_iff (tid : ℕ) (calls : List (Call Expr)) :
    StaysConsistent parse (.init tid) calls ↔
      Outcome.StepsMeet (Meets parse) (QualExprManager.next parse) calls (.init tid) :=
  (consistent_init parse tid).stays_iff rfl

/-- The parser on the empty expression, on a number and on an opened bracket. -/
def sampleParse (expression : String) : Parsed String ℤ :=
  if expression = "" then ⟨[], some none⟩
  else if expression = "1" then ⟨[], some (some 1)⟩
  else ⟨[], none⟩

def EveryRunConsistent : Prop :=
  ∀ (tid : ℕ) (calls : List (Call String)), StaysConsistent sampleParse (.init tid) calls

theorem not_everyRunConsistent : ¬ EveryRunConsistent := by
  intro h
  have hmeets := (((consistent_init sampleParse 0).stays_iff rfl).mp
    (h 0 [.addGlobalCounter ⟨1, "("⟩])).1
  obtain ⟨node, hnode, _⟩ := hmeets
  have hfails : (sampleParse "(").node = none := by decide
  rw [hfails] at hnode
  cases hnode

end ReadexPtf.QualExpr
