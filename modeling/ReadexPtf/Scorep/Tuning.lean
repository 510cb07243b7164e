import ReadexPtf.Lib.Outcome
import ReadexPtf.Lib.Formatted

/-! The tuning substrate: the actions of each region, and the stacks on which an enter event
saves what the exit event restores. Memory does not run out. -/
namespace ReadexPtf.Scorep

/-- `int`; an `unsigned int` variable holds the same bits. -/
abbrev Word := BitVec 32

/-- The values from the top down. -/
structure TuningStack where
  value : List Word
  maxSize : ℕ
  fits : value.length ≤ maxSize
  positive : 0 < maxSize

namespace TuningStack

def initStack : TuningStack := ⟨[], 16, Nat.zero_le 16, Nat.succ_pos 15⟩

def grownSize (stack : TuningStack) : ℕ :=
  if stack.value.length = stack.maxSize then stack.maxSize * 2 else stack.maxSize

theorem length_lt_grownSize (stack : TuningStack) : stack.value.length < stack.grownSize := by
  have hfits := stack.fits
  have hpositive := stack.positive
  rw [grownSize]
  split_ifs <;> omega

def push2Stack (stack : TuningStack) (value : Word) : TuningStack where
  value := value :: stack.value
  maxSize := stack.grownSize
  fits := stack.length_lt_grownSize
  positive := Nat.zero_lt_of_lt stack.length_lt_grownSize

theorem length_tail_le (stack : TuningStack) : stack.value.tail.length ≤ stack.maxSize := by
  rw [List.length_tail]
  exact (Nat.sub_le _ _).trans stack.fits

def popFromStack (stack : TuningStack) : Outcome (Word × TuningStack) :=
  match stack.value.head? with
  | none => .aborts
  | some value => .ok (value, ⟨stack.value.tail, stack.maxSize, stack.length_tail_le, stack.positive⟩)

end TuningStack

inductive TuningActionKind where
  | tuningVariable
  | tuningFunction
  | tuningUndefined
  deriving DecidableEq, Repr

inductive Language where
  | c
  | fortran
  deriving DecidableEq, Repr

/-- A pointer is the number of what it points to. -/
structure TuningAction where
  name : Text
  kind : TuningActionKind
  enterRegionVariablePtr : Option ℕ
  enterRegionFunctionPtr : Option ℕ
  restoreValueFlag : Word
  restoreValueStack : Option ℕ
  languageType : Language
  deriving DecidableEq

structure TuningParameter where
  tuningActionKind : BitVec 8
  tuningParameterValue : Word
  tuningActionListIndex : ℕ
  deriving DecidableEq

/-- A table that doubles its size when it is full; the size is a `uint16_t`. -/
structure Table (α : Type) where
  entries : List α
  maxEntries : ℕ

/-- Memory of size 0 is the null pointer, which the assertion refuses. -/
def Table.append {α : Type} (table : Table α) (entry : α) : Outcome (Table α) :=
  if table.entries.length = table.maxEntries then
    if table.maxEntries * 2 % 2 ^ 16 = 0 then .aborts
    else .ok ⟨table.entries ++ [entry], table.maxEntries * 2 % 2 ^ 16⟩
  else .ok ⟨table.entries ++ [entry], table.maxEntries⟩

theorem Table.append_entries {α : Type} {table table' : Table α} {entry : α}
    (h : table.append entry = .ok table') : table'.entries = table.entries ++ [entry] := by
  rw [Table.append] at h
  split_ifs at h
  · cases h
    rfl
  · cases h
    rfl

structure TuningRegion where
  regionId : BitVec 32
  tuningActions : Table TuningParameter

structure Tables where
  regions : Table TuningRegion
  actions : Table TuningAction

/-- What pointers point to. -/
structure Memory where
  stackAt : ℕ → TuningStack
  /-- The address that the next stack gets. -/
  nextStack : ℕ
  variableAt : ℕ → Word
  /-- The value that each function was last given. -/
  functionValue : ℕ → Word

namespace Memory

def setVariable (memory : Memory) (pointer : ℕ) (value : Word) : Memory :=
  { memory with variableAt := Function.update memory.variableAt pointer value }

/-- The function takes over the value and returns the one it had. A C function is given the
value and a place for the old one, a Fortran function the address of each. -/
def callFunction (memory : Memory) (language : Language) (function : ℕ) (value : Word) :
    Memory × Word :=
  match language with
  | .c | .fortran =>
    ({ memory with functionValue := Function.update memory.functionValue function value },
      memory.functionValue function)

def setStack (memory : Memory) (address : ℕ) (stack : TuningStack) : Memory :=
  { memory with stackAt := Function.update memory.stackAt address stack }

/-- A stack that has no stack to save on is only warned of. -/
def saveValue (memory : Memory) (action : TuningAction) (value : Word) : Memory :=
  if action.restoreValueFlag ≠ 0 then
    match action.restoreValueStack with
    | some address => memory.setStack address ((memory.stackAt address).push2Stack value)
    | none => memory
  else memory

end Memory

namespace Tables

def findRegion (regions : Table TuningRegion) (regionId : BitVec 32) : Option ℕ :=
  regions.entries.findIdx? fun region => region.regionId = regionId

/-- One round of the loop of `enter_region`. -/
def enterAction (tables : Tables) (memory : Memory) (parameter : TuningParameter) :
    Outcome Memory := do
  let action ← Outcome.found tables.actions.entries[parameter.tuningActionListIndex]?
  match action.kind with
  | .tuningVariable =>
    match action.enterRegionVariablePtr with
    | none => return memory
    | some pointer =>
      let memory := memory.saveValue action (memory.variableAt pointer)
      return memory.setVariable pointer parameter.tuningParameterValue
  | .tuningFunction =>
    match action.enterRegionFunctionPtr with
    | none => return memory
    | some function =>
      let (memory, old) :=
        memory.callFunction action.languageType function parameter.tuningParameterValue
      return memory.saveValue action old
  | .tuningUndefined => return memory

def enterRegion (tables : Tables) (regionId : BitVec 32) (memory : Memory) : Outcome Memory :=
  match findRegion tables.regions regionId with
  | none => .ok memory
  | some i => do
    let region ← Outcome.found tables.regions.entries[i]?
    region.tuningActions.entries.foldlM tables.enterAction memory

/-- The value on top of the stack of the action, if it restores one. -/
def popValue (memory : Memory) (action : TuningAction) : Outcome (Option Word × Memory) :=
  if action.restoreValueFlag ≠ 0 then
    match action.restoreValueStack with
    | some address => do
      let (value, stack) ← (memory.stackAt address).popFromStack
      return (some value, memory.setStack address stack)
    | none => .ok (none, memory)
  else .ok (none, memory)

/-- One round of the loop of `exit_region`. -/
def exitAction (tables : Tables) (memory : Memory) (parameter : TuningParameter) :
    Outcome Memory := do
  let action ← Outcome.found tables.actions.entries[parameter.tuningActionListIndex]?
  match action.kind with
  | .tuningVariable =>
    match action.enterRegionVariablePtr with
    | none => return memory
    | some pointer =>
      let (restored, memory) ← popValue memory action
      match restored with
      | some value => return memory.setVariable pointer value
      | none => return memory
  | .tuningFunction =>
    match action.enterRegionFunctionPtr with
    | none => return memory
    | some function =>
      let (restored, memory) ← popValue memory action
      match restored with
      | some value => return (memory.callFunction action.languageType function value).1
      | none => return memory
  | .tuningUndefined => return memory

def exitRegion (tables : Tables) (regionId : BitVec 32) (memory : Memory) : Outcome Memory :=
  match findRegion tables.regions regionId with
  | none => .ok memory
  | some i => do
    let region ← Outcome.found tables.regions.entries[i]?
    region.tuningActions.entries.foldlM tables.exitAction memory

def findRegionOrAdd (regions : Table TuningRegion) (regionId : BitVec 32) :
    Outcome (Table TuningRegion × ℕ) :=
  match findRegion regions regionId with
  | some i => .ok (regions, i)
  | none => do
    let added ← regions.append ⟨regionId, ⟨[], 4⟩⟩
    return (added, regions.entries.length)

def findAction (actions : Table TuningAction) (name : Text) : Outcome (Table TuningAction × ℕ) :=
  match actions.entries.findIdx? fun action => action.name = name with
  | some i => .ok (actions, i)
  | none => do
    let added ← actions.append ⟨name, .tuningVariable, none, none, 0, none, .c⟩
    return (added, actions.entries.length)

def findActionOrAdd (region : TuningRegion) (kind : BitVec 8) (location : ℕ) (value : Word) :
    Outcome TuningRegion :=
  let parameters := region.tuningActions
  match parameters.entries.findIdx? fun parameter => parameter.tuningActionListIndex = location with
  | some i => .ok { region with tuningActions := { parameters with
      entries := parameters.entries.set i ⟨kind, value, location⟩ } }
  | none => do
    let parameters ← parameters.append ⟨kind, value, location⟩
    return { region with tuningActions := parameters }

end Tables

structure State where
  tables : Tables
  memory : Memory

namespace State

/-- The state after `initialize`, with what the application's variables and functions hold. -/
def start (variableAt functionValue : ℕ → Word) : State :=
  ⟨⟨⟨[], 16⟩, ⟨[], 16⟩⟩, ⟨fun _ => .initStack, 0, variableAt, functionValue⟩⟩

def addTuningAction (state : State) (regionId : BitVec 32) (kind : BitVec 8) (name : Text)
    (value : Word) : Outcome State := do
  let (regions, i) ← Tables.findRegionOrAdd state.tables.regions regionId
  let (actions, location) ← Tables.findAction state.tables.actions name
  let region ← Outcome.found regions.entries[i]?
  let region ← Tables.findActionOrAdd region kind location value
  return { state with tables := ⟨{ regions with entries := regions.entries.set i region }, actions⟩ }

/-- The stack of an entry that is filled, which is made if the entry has none yet. -/
def restoreStack (memory : Memory) (action : TuningAction) (restore : Word) :
    Option ℕ × Memory :=
  if restore = 0 then (none, memory)
  else
    match action.restoreValueStack with
    | some address => (some address, memory)
    | none => (some memory.nextStack,
        { memory.setStack memory.nextStack .initStack with nextStack := memory.nextStack + 1 })

/-- Pointers for the exit events are stored too, and never used. -/
def fillEntry (state : State) (name : Text) (kind : TuningActionKind) (restore : Word)
    (enterRegionVar enterRegionFunc validationEndRegionFunction : Option ℕ)
    (languageType : Language) : Outcome State :=
  if validationEndRegionFunction ≠ none then .aborts
  else do
    let (actions, i) ← Tables.findAction state.tables.actions name
    let action ← Outcome.found actions.entries[i]?
    let (stack, memory) := restoreStack state.memory action restore
    let action := ⟨action.name, kind, enterRegionVar, enterRegionFunc, restore, stack, languageType⟩
    return ⟨⟨state.tables.regions, { actions with entries := actions.entries.set i action }⟩, memory⟩

/-- The text between the first character and the first `>`. The loop reads on where there is
none, and never ends where its counter does not reach it. -/
def parseTuningParameterName (parameterName : Text) : Outcome Text :=
  match parameterName.findIdx? (· = '>') with
  | none => .undefined
  | some position =>
    if position = 0 ∨ 2 ^ 16 ≤ position then .undefined
    else if position = 2 ^ 16 - 1 then .aborts
    else .ok ((parameterName.drop 1).take (position - 1))

def mapTuningParameterToVariable (state : State) (tuningParameterName : Text)
    (variantSelector : Option ℕ) (restoreValueFlag : Word) : Outcome State := do
  let name ← parseTuningParameterName tuningParameterName
  state.fillEntry name .tuningVariable restoreValueFlag variantSelector none none .c

def mapTuningParameterToFunction (state : State) (tuningParameterName : Text)
    (variantSelector : Option ℕ) (restoreValueFlag : Word) (languageType : Language) :
    Outcome State := do
  let name ← parseTuningParameterName tuningParameterName
  state.fillEntry name .tuningFunction restoreValueFlag none variantSelector none languageType

end State

/-- What fills the tables: requests, the mappings of the application, and the actions of a
tuning plugin. -/
inductive TableCall where
  | addTuningAction (regionId : BitVec 32) (kind : BitVec 8) (name : Text) (value : Word)
  | mapToVariable (name : Text) (pointer : Option ℕ) (restore : Word)
  | mapToFunction (name : Text) (pointer : Option ℕ) (restore : Word) (language : Language)
  | pluginAction (name : Text) (kind : TuningActionKind) (restore : Word)
      (variablePtr functionPtr validationPtr : Option ℕ)

def State.call (state : State) : TableCall → Outcome State
  | .addTuningAction regionId kind name value => state.addTuningAction regionId kind name value
  | .mapToVariable name pointer restore => state.mapTuningParameterToVariable name pointer restore
  | .mapToFunction name pointer restore language =>
    state.mapTuningParameterToFunction name pointer restore language
  | .pluginAction name kind restore variablePtr functionPtr validationPtr =>
    state.fillEntry name kind restore variablePtr functionPtr validationPtr .c

inductive Event where
  | enterRegion (regionId : BitVec 32)
  | exitRegion (regionId : BitVec 32)
  deriving DecidableEq

def State.handle (state : State) : Event → Outcome State
  | .enterRegion regionId => do
    return { state with memory := ← state.tables.enterRegion regionId state.memory }
  | .exitRegion regionId => do
    return { state with memory := ← state.tables.exitRegion regionId state.memory }

end ReadexPtf.Scorep
