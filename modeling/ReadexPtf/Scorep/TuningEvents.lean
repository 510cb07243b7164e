import ReadexPtf.Lib.Views
import ReadexPtf.Scorep.TuningTables

/-! What the events do, and that the exit of a region restores what its enter saved. -/
namespace ReadexPtf.Scorep

/-- What an action acts on. -/
inductive Target where
  | toVariable (pointer : ℕ)
  | toFunction (function : ℕ)
  deriving DecidableEq

def TuningAction.target (action : TuningAction) : Option Target :=
  match action.kind with
  | .tuningVariable => action.enterRegionVariablePtr.map .toVariable
  | .tuningFunction => action.enterRegionFunctionPtr.map .toFunction
  | .tuningUndefined => none

/-- The target that an action restores, and the stack that it uses for it. -/
def TuningAction.restores (action : TuningAction) : Option (Target × ℕ) :=
  if action.restoreValueFlag ≠ 0 then
    action.target.bind fun target => action.restoreValueStack.map fun address => (target, address)
  else none

def Tables.restoresAt (tables : Tables) (i : ℕ) : Option (Target × ℕ) :=
  tables.actions.entries[i]?.bind TuningAction.restores

theorem TuningAction.restores_eq_some {action : TuningAction} {target : Target} {address : ℕ} :
    action.restores = some (target, address) ↔ action.restoreValueFlag ≠ 0 ∧
      action.target = some target ∧ action.restoreValueStack = some address := by
  rw [TuningAction.restores]
  split_ifs with hflag
  · rw [and_iff_right hflag]
    cases action.target <;> cases action.restoreValueStack <;> simp
  · exact iff_of_false (by simp) (fun h => hflag h.1)

namespace Memory

/-- The value of a variable, or the last one that a function was given. -/
def read (memory : Memory) : Target → Word
  | .toVariable pointer => memory.variableAt pointer
  | .toFunction function => memory.functionValue function

def write (memory : Memory) (target : Target) (value : Word) : Memory :=
  match target with
  | .toVariable pointer => memory.setVariable pointer value
  | .toFunction function => (memory.callFunction .c function value).1

@[simp] theorem callFunction_eq (memory : Memory) (language : Language) (function : ℕ)
    (value : Word) : memory.callFunction language function value =
      (memory.write (.toFunction function) value, memory.read (.toFunction function)) := by
  cases language <;> rfl

@[simp] theorem stackAt_write (memory : Memory) (target : Target) (value : Word) :
    (memory.write target value).stackAt = memory.stackAt := by
  cases target <;> rfl

@[simp] theorem nextStack_write (memory : Memory) (target : Target) (value : Word) :
    (memory.write target value).nextStack = memory.nextStack := by
  cases target <;> rfl

theorem read_write (memory : Memory) (target other : Target) (value : Word) :
    (memory.write target value).read other =
      if other = target then value else memory.read other := by
  cases target <;> cases other <;>
    simp [read, write, setVariable, callFunction, Function.update_apply]

@[simp] theorem read_setStack (memory : Memory) (address : ℕ) (stack : TuningStack)
    (target : Target) : (memory.setStack address stack).read target = memory.read target := by
  cases target <;> rfl

theorem stackAt_setStack (memory : Memory) (address other : ℕ) (stack : TuningStack) :
    (memory.setStack address stack).stackAt other =
      if other = address then stack else memory.stackAt other := by
  simp [setStack, Function.update_apply]

@[simp] theorem nextStack_setStack (memory : Memory) (address : ℕ) (stack : TuningStack) :
    (memory.setStack address stack).nextStack = memory.nextStack := rfl

end Memory

/-- The memory after an action has been applied. -/
def TuningAction.apply (action : TuningAction) (value : Word) (memory : Memory) : Memory :=
  match action.target with
  | none => memory
  | some target => (memory.saveValue action (memory.read target)).write target value

/-- The memory after an action has been undone. -/
def TuningAction.undo (action : TuningAction) (memory : Memory) : Outcome Memory :=
  match action.restores with
  | none => .ok memory
  | some (target, address) => do
    let (value, stack) ← (memory.stackAt address).popFromStack
    return (memory.setStack address stack).write target value

section Rounds
variable {tables : Tables} {memory memory' : Memory} {parameter : TuningParameter}
  {action : TuningAction}

theorem Memory.saveValue_write (memory : Memory) (action : TuningAction) (target : Target)
    (value old : Word) : (memory.write target value).saveValue action old =
      (memory.saveValue action old).write target value := by
  rw [Memory.saveValue, Memory.saveValue]
  split_ifs
  · cases action.restoreValueStack with
    | none => rfl
    | some address => cases target <;> rfl
  · rfl

theorem enterAction_eq
    (h : tables.actions.entries[parameter.tuningActionListIndex]? = some action) :
    tables.enterAction memory parameter =
      .ok (action.apply parameter.tuningParameterValue memory) := by
  rw [Tables.enterAction, h, Outcome.found, Outcome.ok_bind, TuningAction.apply,
    TuningAction.target]
  cases action.kind with
  | tuningVariable => cases action.enterRegionVariablePtr <;> rfl
  | tuningUndefined => rfl
  | tuningFunction =>
    cases action.enterRegionFunctionPtr with
    | none => rfl
    | some function =>
      simp only [Memory.callFunction_eq, Memory.saveValue_write]
      rfl

theorem exitAction_eq
    (h : tables.actions.entries[parameter.tuningActionListIndex]? = some action) :
    tables.exitAction memory parameter = action.undo memory := by
  rw [Tables.exitAction, h, Outcome.found, Outcome.ok_bind, TuningAction.undo,
    TuningAction.restores, TuningAction.target, Tables.popValue]
  cases action.kind with
  | tuningVariable =>
    cases action.enterRegionVariablePtr with
    | none => simp
    | some pointer =>
      split_ifs
      · cases action.restoreValueStack with
        | none => rfl
        | some address =>
          simp only [Option.map_some, Option.bind_some, bind_assoc, Outcome.pure_eq,
            Outcome.ok_bind]
          rfl
      · rfl
  | tuningUndefined => simp
  | tuningFunction =>
    cases action.enterRegionFunctionPtr with
    | none => simp
    | some function =>
      split_ifs
      · cases action.restoreValueStack with
        | none => rfl
        | some address =>
          simp only [Option.map_some, Option.bind_some, bind_assoc, Outcome.pure_eq,
            Outcome.ok_bind, Memory.callFunction_eq]
      · rfl

theorem popFromStack_eq_ok {stack stack' : TuningStack} {value : Word} :
    stack.popFromStack = .ok (value, stack') → stack.value = value :: stack'.value := by
  intro h
  rw [TuningStack.popFromStack] at h
  cases hvalue : stack.value with
  | nil =>
    simp [hvalue] at h
  | cons top rest =>
    simp only [hvalue, List.head?_cons, Outcome.ok.injEq, Prod.mk.injEq] at h
    obtain ⟨rfl, rfl⟩ := h
    rfl

theorem popFromStack_of_cons {stack : TuningStack} {value : Word} {values : List Word}
    (h : stack.value = value :: values) :
    ∃ stack', stack.popFromStack = .ok (value, stack') ∧ stack'.value = values := by
  refine ⟨⟨stack.value.tail, stack.maxSize, stack.length_tail_le, stack.positive⟩, ?_, ?_⟩
  · rw [TuningStack.popFromStack]
    split
    · rename_i hnone
      simp [h] at hnone
    · rename_i top htop
      simp only [h, List.head?_cons, Option.some.injEq] at htop
      rw [htop]
  · simp [h]

/-! What a round does to a stack and to a target. -/

theorem apply_nextStack (action : TuningAction) (value : Word) (memory : Memory) :
    (action.apply value memory).nextStack = memory.nextStack := by
  rw [TuningAction.apply]
  cases action.target with
  | none => rfl
  | some target =>
    simp only [Memory.nextStack_write, Memory.saveValue]
    split_ifs
    · cases action.restoreValueStack <;> rfl
    · rfl

theorem apply_stackAt (action : TuningAction) (value : Word) (memory : Memory) (address : ℕ) :
    ((action.apply value memory).stackAt address).value =
      match action.restores with
      | some (target, own) => if address = own then
          memory.read target :: (memory.stackAt address).value else (memory.stackAt address).value
      | none => (memory.stackAt address).value := by
  rw [TuningAction.apply, TuningAction.restores]
  cases action.target with
  | none => simp
  | some target =>
    simp only [Memory.stackAt_write, Memory.saveValue]
    split_ifs with hflag
    · cases action.restoreValueStack with
      | none => rfl
      | some own =>
        simp only [Memory.stackAt_setStack, Option.bind_some, Option.map_some]
        split_ifs with heq
        · rw [heq]
          rfl
        · rfl
    · rfl

theorem saveValue_read (memory : Memory) (action : TuningAction) (value : Word)
    (target : Target) : (memory.saveValue action value).read target = memory.read target := by
  rw [Memory.saveValue]
  split_ifs
  · cases action.restoreValueStack with
    | none => rfl
    | some address => exact memory.read_setStack _ _ _
  · rfl

theorem apply_read (action : TuningAction) (value : Word) (memory : Memory) (target : Target) :
    (action.apply value memory).read target =
      if action.target = some target then value else memory.read target := by
  rw [TuningAction.apply]
  cases action.target with
  | none => simp
  | some own =>
    rw [Memory.read_write, saveValue_read]
    by_cases heq : target = own
    · simp [heq]
    · simp [heq, Ne.symm heq]

/-- An undone action has taken the top of its stack. -/
theorem undo_eq_ok (h : action.undo memory = .ok memory') :
    (action.restores = none ∧ memory' = memory) ∨
    ∃ target address value values, action.restores = some (target, address) ∧
      (memory.stackAt address).value = value :: values ∧ memory'.nextStack = memory.nextStack ∧
      (∀ other, (memory'.stackAt other).value =
        if other = address then values else (memory.stackAt other).value) ∧
      ∀ other, memory'.read other = if other = target then value else memory.read other := by
  rw [TuningAction.undo] at h
  cases hrestores : action.restores with
  | none =>
    rw [hrestores] at h
    cases h
    exact .inl ⟨rfl, rfl⟩
  | some own =>
    obtain ⟨target, address⟩ := own
    rw [hrestores] at h
    obtain ⟨⟨value, stack⟩, hpop, h⟩ := Outcome.bind_eq_ok.mp h
    cases h
    refine .inr ⟨target, address, value, stack.value, rfl, popFromStack_eq_ok hpop, ?_, ?_, ?_⟩
    · simp
    · intro other
      rw [Memory.stackAt_write, Memory.stackAt_setStack]
      split_ifs <;> rfl
    · intro other
      rw [Memory.read_write, Memory.read_setStack]

/-- An action that restores takes the value for its target from its stack. -/
theorem undo_own {target : Target} {address : ℕ}
    (hrestores : action.restores = some (target, address)) (h : action.undo memory = .ok memory') :
    ∃ value values, (memory.stackAt address).value = value :: values ∧
      (∀ other, (memory'.stackAt other).value =
        if other = address then values else (memory.stackAt other).value) ∧
      ∀ other, memory'.read other = if other = target then value else memory.read other := by
  cases undo_eq_ok h with
  | inl hnone =>
    rw [hnone.1] at hrestores
    cases hrestores
  | inr hundo =>
    obtain ⟨own, stack, value, values, hown, hvalue, _, hstacks, hread⟩ := hundo
    rw [hrestores] at hown
    cases hown
    exact ⟨value, values, hvalue, hstacks, hread⟩

theorem undo_returns {target : Target} {address : ℕ} {value : Word} {values : List Word}
    (hrestores : action.restores = some (target, address))
    (hstack : (memory.stackAt address).value = value :: values) :
    ∃ memory', action.undo memory = .ok memory' := by
  obtain ⟨stack, hpop, _⟩ := popFromStack_of_cons hstack
  refine ⟨(memory.setStack address stack).write target value, ?_⟩
  rw [TuningAction.undo, hrestores]
  simp only [hpop, Outcome.ok_bind, Outcome.pure_eq]

end Rounds

/-! What the round of an event does to each stack. -/

/-- The stack that a round saves on or restores from. -/
def Tables.stackOf (tables : Tables) (parameter : TuningParameter) : Option ℕ :=
  (tables.restoresAt parameter.tuningActionListIndex).map Prod.snd

/-- The stacks of a region, in the order of its actions. -/
def Tables.stacksOf (tables : Tables) (regionId : BitVec 32) : List ℕ :=
  match Tables.findRegion tables.regions regionId with
  | none => []
  | some i =>
    match tables.regions.entries[i]? with
    | none => []
    | some region => region.tuningActions.entries.filterMap tables.stackOf

section WellFormed
variable {state : State}

theorem stackOf_eq_some {tables : Tables} {parameter : TuningParameter} {address : ℕ} :
    tables.stackOf parameter = some address ↔ ∃ action target,
      tables.actions.entries[parameter.tuningActionListIndex]? = some action ∧
      action.restores = some (target, address) := by
  rw [Tables.stackOf, Tables.restoresAt]
  cases tables.actions.entries[parameter.tuningActionListIndex]? with
  | none => simp
  | some action => simp

theorem WellFormed.same_action (h : WellFormed state) {i j address : ℕ}
    {action other : TuningAction} {target target' : Target}
    (haction : state.tables.actions.entries[i]? = some action)
    (hother : state.tables.actions.entries[j]? = some other)
    (hrestores : action.restores = some (target, address))
    (hrestores' : other.restores = some (target', address)) : i = j :=
  h.owns i j action other address haction hother
    (TuningAction.restores_eq_some.mp hrestores).2.2
    (TuningAction.restores_eq_some.mp hrestores').2.2

theorem WellFormed.nodup_stacksOf (h : WellFormed state) {region : TuningRegion}
    (hregion : region ∈ state.tables.regions.entries) :
    (region.tuningActions.entries.filterMap state.tables.stackOf).Nodup := by
  have hnodup := (h.listed region hregion).1
  rw [TuningRegion.indices] at hnodup
  generalize region.tuningActions.entries = parameters at hnodup
  induction parameters with
  | nil => exact List.nodup_nil
  | cons parameter parameters ih =>
    rw [List.map_cons, List.nodup_cons] at hnodup
    cases hstack : state.tables.stackOf parameter with
    | none =>
      rw [List.filterMap_cons_none hstack]
      exact ih hnodup.2
    | some address =>
      rw [List.filterMap_cons_some hstack, List.nodup_cons]
      refine ⟨fun hmem => ?_, ih hnodup.2⟩
      obtain ⟨other, hother, hstack'⟩ := List.mem_filterMap.mp hmem
      obtain ⟨action, target, haction, hrestores⟩ := stackOf_eq_some.mp hstack
      obtain ⟨action', target', haction', hrestores'⟩ := stackOf_eq_some.mp hstack'
      have hsame := h.same_action haction haction' hrestores hrestores'
      exact hnodup.1 (List.mem_map.mpr ⟨other, hother, hsame.symm⟩)

/-- The action of a parameter that a region lists. -/
theorem WellFormed.action (h : WellFormed state) {region : TuningRegion}
    (hregion : region ∈ state.tables.regions.entries) {parameter : TuningParameter}
    (hparameter : parameter ∈ region.tuningActions.entries) :
    ∃ action, state.tables.actions.entries[parameter.tuningActionListIndex]? = some action := by
  have hlt := (h.listed region hregion).2 parameter.tuningActionListIndex
    (List.mem_map_of_mem hparameter)
  exact ⟨_, List.getElem?_eq_getElem hlt⟩

/-- The action of a parameter returns if its stack is not empty. -/
theorem WellFormed.exitAction_returns (h : WellFormed state) {region : TuningRegion}
    (hregion : region ∈ state.tables.regions.entries) {parameter : TuningParameter}
    (hparameter : parameter ∈ region.tuningActions.entries)
    (hpushed : ∀ address, state.tables.stackOf parameter = some address →
      (memory.stackAt address).value ≠ []) :
    ∃ memory', state.tables.exitAction memory parameter = .ok memory' := by
  obtain ⟨action, haction⟩ := h.action hregion hparameter
  rw [exitAction_eq haction]
  cases hrestores : action.restores with
  | none => exact ⟨memory, by rw [TuningAction.undo, hrestores]⟩
  | some own =>
    obtain ⟨target, address⟩ := own
    have hne := hpushed address (stackOf_eq_some.mpr ⟨action, target, haction, hrestores⟩)
    obtain ⟨value, values, hvalue⟩ := List.exists_cons_of_ne_nil hne
    exact undo_returns hrestores hvalue

/-- An event finds its region, or does nothing. -/
theorem stacksOf_cases (tables : Tables) (regionId : BitVec 32) :
    (Tables.findRegion tables.regions regionId = none ∧ tables.stacksOf regionId = []) ∨
    ∃ i region, Tables.findRegion tables.regions regionId = some i ∧
      tables.regions.entries[i]? = some region ∧ region ∈ tables.regions.entries ∧
      tables.stacksOf regionId = region.tuningActions.entries.filterMap tables.stackOf := by
  rw [Tables.stacksOf]
  cases hfind : Tables.findRegion tables.regions regionId with
  | none => exact .inl ⟨rfl, rfl⟩
  | some i =>
    obtain ⟨region, hregion, _⟩ := findRegion_eq_some hfind
    exact .inr ⟨i, region, rfl, hregion, List.mem_of_getElem? hregion, by simp only [hregion]⟩

/-! Events make no stacks. -/

theorem undo_nextStack {action : TuningAction} {memory memory' : Memory}
    (h : action.undo memory = .ok memory') : memory'.nextStack = memory.nextStack := by
  cases undo_eq_ok h with
  | inl hnone => rw [hnone.2]
  | inr hundo =>
    obtain ⟨_, _, _, _, _, _, hnext, _⟩ := hundo
    exact hnext

theorem enterAction_nextStack {tables : Tables} {memory memory' : Memory}
    {parameter : TuningParameter} (h : tables.enterAction memory parameter = .ok memory') :
    memory'.nextStack = memory.nextStack := by
  cases haction : tables.actions.entries[parameter.tuningActionListIndex]? with
  | none =>
    rw [Tables.enterAction, haction] at h
    cases h
  | some action =>
    rw [enterAction_eq haction] at h
    cases h
    exact apply_nextStack action _ memory

theorem exitAction_nextStack {tables : Tables} {memory memory' : Memory}
    {parameter : TuningParameter} (h : tables.exitAction memory parameter = .ok memory') :
    memory'.nextStack = memory.nextStack := by
  cases haction : tables.actions.entries[parameter.tuningActionListIndex]? with
  | none =>
    rw [Tables.exitAction, haction] at h
    cases h
  | some action =>
    rw [exitAction_eq haction] at h
    exact undo_nextStack h

/-- The rounds of an event keep what every round keeps. -/
theorem foldlM_nextStack {round : Memory → TuningParameter → Outcome Memory}
    (hround : ∀ memory parameter memory', round memory parameter = .ok memory' →
      memory'.nextStack = memory.nextStack) {parameters : List TuningParameter}
    {memory memory' : Memory} (h : parameters.foldlM round memory = .ok memory') :
    memory'.nextStack = memory.nextStack := by
  apply Outcome.foldlM_invariant (fun later => later.nextStack = memory.nextStack) _
    parameters memory memory' rfl h
  exact fun s parameter s' hs hrun => (hround s parameter s' hrun).trans hs

theorem enterRegion_nextStack {tables : Tables} {regionId : BitVec 32} {memory memory' : Memory}
    (h : tables.enterRegion regionId memory = .ok memory') :
    memory'.nextStack = memory.nextStack := by
  rw [Tables.enterRegion] at h
  split at h
  · cases h
    rfl
  · obtain ⟨region, _, h⟩ := Outcome.bind_eq_ok.mp h
    exact foldlM_nextStack (fun _ _ _ => enterAction_nextStack) h

theorem exitRegion_nextStack {tables : Tables} {regionId : BitVec 32} {memory memory' : Memory}
    (h : tables.exitRegion regionId memory = .ok memory') :
    memory'.nextStack = memory.nextStack := by
  rw [Tables.exitRegion] at h
  split at h
  · cases h
    rfl
  · obtain ⟨region, _, h⟩ := Outcome.bind_eq_ok.mp h
    exact foldlM_nextStack (fun _ _ _ => exitAction_nextStack) h

theorem WellFormed.of_nextStack (h : WellFormed state) {memory : Memory}
    (hnext : memory.nextStack = state.memory.nextStack) :
    WellFormed { state with memory := memory } where
  listed := h.listed
  flags := h.flags
  owns := h.owns
  made := fun action haction address haddress => hnext ▸ h.made action haction address haddress

end WellFormed
end ReadexPtf.Scorep
