import ReadexPtf.Scorep.Tuning

/-! What holds of the tables however they are filled. -/
namespace ReadexPtf.Scorep

/-- The actions of a region, as positions in the action table. -/
def TuningRegion.indices (region : TuningRegion) : List ℕ :=
  region.tuningActions.entries.map TuningParameter.tuningActionListIndex

/-- A region lists actions of the table, each once. An action has a stack if it restores,
and no two actions have the same stack. -/
structure WellFormed (state : State) : Prop where
  listed : ∀ region ∈ state.tables.regions.entries, region.indices.Nodup ∧
    ∀ i ∈ region.indices, i < state.tables.actions.entries.length
  flags : ∀ action ∈ state.tables.actions.entries,
    action.restoreValueFlag ≠ 0 ↔ action.restoreValueStack.isSome
  owns : ∀ (i j : ℕ) (action other : TuningAction) (address : ℕ),
    state.tables.actions.entries[i]? = some action →
    state.tables.actions.entries[j]? = some other →
    action.restoreValueStack = some address → other.restoreValueStack = some address → i = j
  made : ∀ action ∈ state.tables.actions.entries, ∀ address,
    action.restoreValueStack = some address → address < state.memory.nextStack

theorem wellFormed_start (variableAt functionValue : ℕ → Word) :
    WellFormed (.start variableAt functionValue) where
  listed := fun region hregion => absurd hregion List.not_mem_nil
  flags := fun action haction => absurd haction List.not_mem_nil
  owns := fun i j action other address haction => by cases haction
  made := fun action haction => absurd haction List.not_mem_nil

section Lookups
variable {regions regions' : Table TuningRegion} {actions actions' : Table TuningAction}

theorem findRegion_eq_some {regionId : BitVec 32} {i : ℕ}
    (h : Tables.findRegion regions regionId = some i) :
    ∃ region, regions.entries[i]? = some region ∧ region.regionId = regionId := by
  rw [Tables.findRegion, List.findIdx?_eq_some_iff_getElem] at h
  obtain ⟨hlt, hid, _⟩ := h
  exact ⟨regions.entries[i], List.getElem?_eq_getElem hlt, of_decide_eq_true hid⟩

/-- The regions stay, and one without actions may come behind them. -/
theorem findRegionOrAdd_ok {regionId : BitVec 32} {i : ℕ}
    (h : Tables.findRegionOrAdd regions regionId = .ok (regions', i)) :
    i < regions'.entries.length ∧ (regions'.entries = regions.entries ∨
      regions'.entries = regions.entries ++ [⟨regionId, ⟨[], 4⟩⟩]) := by
  rw [Tables.findRegionOrAdd] at h
  cases hfind : Tables.findRegion regions regionId with
  | some j =>
    rw [hfind] at h
    cases h
    obtain ⟨region, hregion, _⟩ := findRegion_eq_some hfind
    exact ⟨(List.getElem?_eq_some_iff.mp hregion).1, .inl rfl⟩
  | none =>
    rw [hfind] at h
    obtain ⟨added, hadded, h⟩ := Outcome.bind_eq_ok.mp h
    cases h
    have hentries := Table.append_entries hadded
    exact ⟨by simp [hentries], .inr hentries⟩

/-- An entry that has not been filled yet. -/
def emptyAction (name : Text) : TuningAction := ⟨name, .tuningVariable, none, none, 0, none, .c⟩

theorem findAction_ok {name : Text} {i : ℕ}
    (h : Tables.findAction actions name = .ok (actions', i)) :
    i < actions'.entries.length ∧ (actions'.entries = actions.entries ∨
      actions'.entries = actions.entries ++ [emptyAction name]) := by
  rw [Tables.findAction] at h
  split at h
  · rename_i j hfind
    cases h
    rw [List.findIdx?_eq_some_iff_getElem] at hfind
    obtain ⟨hlt, _⟩ := hfind
    exact ⟨hlt, .inl rfl⟩
  · obtain ⟨added, hadded, h⟩ := Outcome.bind_eq_ok.mp h
    cases h
    have hentries := Table.append_entries hadded
    exact ⟨by simp [hentries], .inr hentries⟩

/-- An action that the region has not listed yet comes behind the others. -/
theorem findActionOrAdd_ok {region region' : TuningRegion} {kind : BitVec 8} {location : ℕ}
    {value : Word} (h : Tables.findActionOrAdd region kind location value = .ok region') :
    region'.indices = region.indices ∨
      (location ∉ region.indices ∧ region'.indices = region.indices ++ [location]) := by
  rw [Tables.findActionOrAdd] at h
  split at h
  · rename_i i hfind
    cases h
    rw [List.findIdx?_eq_some_iff_getElem] at hfind
    obtain ⟨hlt, hlocation, _⟩ := hfind
    refine .inl (List.ext_getElem? fun j => ?_)
    rw [TuningRegion.indices, TuningRegion.indices, List.getElem?_map, List.getElem?_map,
      List.getElem?_set]
    split_ifs with heq
    · subst heq
      rw [List.getElem?_eq_getElem hlt, Option.map_some, Option.map_some,
        of_decide_eq_true hlocation]
    · rfl
  · rename_i hnone
    obtain ⟨parameters, hparameters, h⟩ := Outcome.bind_eq_ok.mp h
    cases h
    rw [List.findIdx?_eq_none_iff] at hnone
    refine .inr ⟨fun hmem => ?_, ?_⟩
    · obtain ⟨parameter, hparameter, hlocation⟩ := List.mem_map.mp hmem
      have hne := hnone parameter hparameter
      simp [hlocation] at hne
    · rw [TuningRegion.indices, TuningRegion.indices, Table.append_entries hparameters,
        List.map_append]
      rfl

end Lookups

section Calls
variable {state state' : State}

/-- Entries that have not been filled change nothing. -/
theorem WellFormed.findAction (h : WellFormed state) {name : Text}
    {actions : Table TuningAction} {i : ℕ}
    (hfind : Tables.findAction state.tables.actions name = .ok (actions, i)) :
    WellFormed { state with tables := { state.tables with actions := actions } } := by
  obtain ⟨_, hentries⟩ := findAction_ok hfind
  cases hentries with
  | inl hsame =>
    obtain ⟨listed, flags, owns, made⟩ := h
    constructor <;> simp only [hsame] <;> assumption
  | inr hadded =>
    have hmem : ∀ action ∈ actions.entries,
        action ∈ state.tables.actions.entries ∨ action = emptyAction name := by
      intro action haction
      rw [hadded, List.mem_append, List.mem_singleton] at haction
      exact haction
    have hget : ∀ (j : ℕ) (action : TuningAction) (address : ℕ),
        actions.entries[j]? = some action → action.restoreValueStack = some address →
        state.tables.actions.entries[j]? = some action := by
      intro j action address haction haddress
      rw [hadded] at haction
      by_cases hj : j < state.tables.actions.entries.length
      · rwa [List.getElem?_append_left hj] at haction
      · rw [List.getElem?_append_right (by omega)] at haction
        have hempty := List.mem_of_getElem? haction
        rw [List.mem_singleton.mp hempty] at haddress
        cases haddress
    constructor
    · intro region hregion
      obtain ⟨hnodup, hlt⟩ := h.listed region hregion
      refine ⟨hnodup, fun j hj => ?_⟩
      have hj' := hlt j hj
      simp only [hadded, List.length_append]
      omega
    · intro action haction
      cases hmem action haction with
      | inl hold => exact h.flags action hold
      | inr hnew => simp [hnew, emptyAction]
    · intro j k action other address haction hother haddress haddress'
      exact h.owns j k action other address (hget j action address haction haddress)
        (hget k other address hother haddress') haddress haddress'
    · intro action haction address haddress
      cases hmem action haction with
      | inl hold => exact h.made action hold address haddress
      | inr hnew =>
        rw [hnew] at haddress
        cases haddress

/-- Only the list of actions of one region changes, by one that it does not have. -/
theorem WellFormed.setRegion (h : WellFormed state) {regions : Table TuningRegion} {i location : ℕ}
    {regionId : BitVec 32} {kind : BitVec 8} {value : Word} {region region' : TuningRegion}
    (hregions : Tables.findRegionOrAdd state.tables.regions regionId = .ok (regions, i))
    (hlocation : location < state.tables.actions.entries.length)
    (hregion : regions.entries[i]? = some region)
    (hadd : Tables.findActionOrAdd region kind location value = .ok region') :
    WellFormed { state with tables :=
      ⟨{ regions with entries := regions.entries.set i region' }, state.tables.actions⟩ } := by
  obtain ⟨_, hentries⟩ := findRegionOrAdd_ok hregions
  have hlisted : ∀ other ∈ regions.entries, other.indices.Nodup ∧
      ∀ j ∈ other.indices, j < state.tables.actions.entries.length := by
    intro other hother
    cases hentries with
    | inl hsame => exact h.listed other (hsame ▸ hother)
    | inr hadded =>
      rw [hadded, List.mem_append, List.mem_singleton] at hother
      cases hother with
      | inl hold => exact h.listed other hold
      | inr hnew =>
        rw [hnew]
        exact ⟨List.nodup_nil, fun j hj => absurd hj List.not_mem_nil⟩
  obtain ⟨hnodup, hlt⟩ := hlisted region (List.mem_of_getElem? hregion)
  refine ⟨?_, h.flags, h.owns, h.made⟩
  intro other hother
  cases List.mem_or_eq_of_mem_set hother with
  | inl hold => exact hlisted other hold
  | inr hnew =>
    rw [hnew]
    cases findActionOrAdd_ok hadd with
    | inl hsame =>
      rw [hsame]
      exact ⟨hnodup, hlt⟩
    | inr hadded =>
      obtain ⟨hfresh, hadded⟩ := hadded
      rw [hadded]
      constructor
      · exact List.nodup_append'.mpr ⟨hnodup, List.nodup_singleton location,
          List.disjoint_singleton.mpr hfresh⟩
      · intro j hj
        rw [List.mem_append, List.mem_singleton] at hj
        cases hj with
        | inl hj => exact hlt j hj
        | inr hj => exact hj ▸ hlocation

theorem WellFormed.addTuningAction (h : WellFormed state) {regionId : BitVec 32}
    {kind : BitVec 8} {name : Text} {value : Word}
    (hrun : state.addTuningAction regionId kind name value = .ok state') :
    WellFormed state' ∧ state'.memory = state.memory := by
  rw [State.addTuningAction] at hrun
  obtain ⟨⟨regions, i⟩, hregions, hrun⟩ := Outcome.bind_eq_ok.mp hrun
  obtain ⟨⟨actions, location⟩, hactions, hrun⟩ := Outcome.bind_eq_ok.mp hrun
  obtain ⟨region, hregion, hrun⟩ := Outcome.bind_eq_ok.mp hrun
  obtain ⟨region', hadd, hrun⟩ := Outcome.bind_eq_ok.mp hrun
  cases hrun
  refine ⟨?_, rfl⟩
  have hregion := Outcome.found_eq_ok.mp hregion
  exact (h.findAction hactions).setRegion hregions (findAction_ok hactions).1 hregion hadd

/-- A stack that is there is used again, and a new one is empty. -/
theorem restoreStack_cases (memory : Memory) (action : TuningAction) (restore : Word) :
    (State.restoreStack memory action restore = (none, memory) ∧ restore = 0) ∨
    (∃ address, action.restoreValueStack = some address ∧ restore ≠ 0 ∧
      State.restoreStack memory action restore = (some address, memory)) ∨
    (action.restoreValueStack = none ∧ restore ≠ 0 ∧
      State.restoreStack memory action restore = (some memory.nextStack,
        { memory.setStack memory.nextStack .initStack with nextStack := memory.nextStack + 1 })) := by
  rw [State.restoreStack]
  by_cases hrestore : restore = 0
  · exact .inl ⟨if_pos hrestore, hrestore⟩
  · rw [if_neg hrestore]
    cases hstack : action.restoreValueStack with
    | some address => exact .inr (.inl ⟨address, rfl, hrestore, rfl⟩)
    | none => exact .inr (.inr ⟨rfl, hrestore, rfl⟩)

/-- An action is filled: it has a stack, its own or a new one, if it restores. -/
theorem WellFormed.setAction (h : WellFormed state) {i : ℕ} {action filled : TuningAction}
    (haction : state.tables.actions.entries[i]? = some action) {restore : Word} {memory : Memory}
    {stack : Option ℕ} (hflag : filled.restoreValueFlag = restore)
    (hfilled : filled.restoreValueStack = stack)
    (hstack : State.restoreStack state.memory action restore = (stack, memory)) :
    WellFormed ⟨{ state.tables with actions := { state.tables.actions with
      entries := state.tables.actions.entries.set i filled } }, memory⟩ := by
  have hlt := (List.getElem?_eq_some_iff.mp haction).1
  have hcases := restoreStack_cases state.memory action restore
  rw [hstack] at hcases
  have hnext : state.memory.nextStack ≤ memory.nextStack := by
    rcases hcases with ⟨heq, _⟩ | ⟨_, _, _, heq⟩ | ⟨_, _, heq⟩ <;> cases heq <;> simp
  have hown : ∀ address, filled.restoreValueStack = some address →
      address < memory.nextStack ∧
        (action.restoreValueStack = some address ∨ address = state.memory.nextStack) := by
    intro address haddress
    rw [← hfilled, haddress] at hcases
    rcases hcases with ⟨heq, _⟩ | ⟨own, hown, _, heq⟩ | ⟨_, _, heq⟩
    · cases heq
    · cases heq
      exact ⟨h.made action (List.mem_of_getElem? haction) address hown, .inl hown⟩
    · cases heq
      exact ⟨Nat.lt_succ_self _, .inr rfl⟩
  have hmem : ∀ other ∈ state.tables.actions.entries.set i filled,
      other ∈ state.tables.actions.entries ∨ other = filled := by
    exact fun other hother => List.mem_or_eq_of_mem_set hother
  have hother : ∀ j other address, state.tables.actions.entries[j]? = some other →
      other.restoreValueStack = some address → filled.restoreValueStack = some address → j = i := by
    intro j other address hother haddress hfilled
    cases (hown address hfilled).2 with
    | inl hold => exact h.owns j i other action address hother haction haddress hold
    | inr hnew =>
      have hmade := h.made other (List.mem_of_getElem? hother) address haddress
      omega
  constructor
  · intro region hregion
    obtain ⟨hnodup, hlisted⟩ := h.listed region hregion
    refine ⟨hnodup, fun j hj => ?_⟩
    rw [List.length_set]
    exact hlisted j hj
  · intro other hmember
    cases hmem other hmember with
    | inl hold => exact h.flags other hold
    | inr hnew =>
      rw [hnew, hflag, hfilled]
      rcases hcases with ⟨heq, hzero⟩ | ⟨_, _, hne, heq⟩ | ⟨_, hne, heq⟩ <;>
        rw [(Prod.mk.inj heq).1]
      · exact iff_of_false (not_not_intro hzero) Bool.false_ne_true
      · exact iff_of_true hne rfl
      · exact iff_of_true hne rfl
  · intro j k first second address hfirst hsecond haddress haddress'
    rw [List.getElem?_set] at hfirst hsecond
    split_ifs at hfirst hsecond with hj hk hk
    · exact hj.symm.trans hk
    · cases hfirst
      exact hj.symm.trans (hother k second address hsecond haddress' haddress).symm
    · cases hsecond
      exact (hother j first address hfirst haddress haddress').trans hk
    · exact h.owns j k first second address hfirst hsecond haddress haddress'
  · intro other hmember address haddress
    cases hmem other hmember with
    | inl hold => exact (h.made other hold address haddress).trans_le hnext
    | inr hnew => exact (hown address (hnew ▸ haddress)).1

/-- Filling an entry makes at most one stack, which is empty, and touches no other. -/
structure FillsStacks (memory memory' : Memory) : Prop where
  next : memory.nextStack ≤ memory'.nextStack
  old : ∀ address < memory.nextStack, memory'.stackAt address = memory.stackAt address
  new : ∀ address, memory.nextStack ≤ address →
    memory'.stackAt address = memory.stackAt address ∨ (memory'.stackAt address).value = []

theorem FillsStacks.refl (memory : Memory) : FillsStacks memory memory where
  next := Nat.le_refl _
  old := fun _ _ => rfl
  new := fun _ _ => .inl rfl

theorem fillsStacks_restoreStack {memory memory' : Memory} {action : TuningAction}
    {restore : Word} {stack : Option ℕ}
    (h : State.restoreStack memory action restore = (stack, memory')) :
    FillsStacks memory memory' := by
  have hcases := restoreStack_cases memory action restore
  rw [h] at hcases
  rcases hcases with ⟨heq, _⟩ | ⟨_, _, _, heq⟩ | ⟨_, _, heq⟩
  · cases heq
    exact .refl _
  · cases heq
    exact .refl _
  · cases heq
    refine ⟨Nat.le_succ _, fun address hlt => ?_, fun address _ => ?_⟩
    · exact Function.update_of_ne (Nat.ne_of_lt hlt) _ _
    · by_cases heq : address = memory.nextStack
      · right
        rw [heq]
        simp [Memory.setStack, TuningStack.initStack]
      · exact .inl (Function.update_of_ne heq _ _)

theorem WellFormed.fillEntry (h : WellFormed state) {name : Text} {kind : TuningActionKind}
    {restore : Word} {variablePtr functionPtr validationPtr : Option ℕ} {language : Language}
    (hrun : state.fillEntry name kind restore variablePtr functionPtr validationPtr language =
      .ok state') : WellFormed state' ∧ FillsStacks state.memory state'.memory := by
  rw [State.fillEntry] at hrun
  split_ifs at hrun
  obtain ⟨⟨actions, i⟩, hactions, hrun⟩ := Outcome.bind_eq_ok.mp hrun
  obtain ⟨action, haction, hrun⟩ := Outcome.bind_eq_ok.mp hrun
  cases hrun
  have haction := Outcome.found_eq_ok.mp haction
  exact ⟨(h.findAction hactions).setAction haction rfl rfl rfl, fillsStacks_restoreStack rfl⟩

/-- What every call keeps. -/
theorem WellFormed.call (h : WellFormed state) {call : TableCall}
    (hrun : state.call call = .ok state') :
    WellFormed state' ∧ FillsStacks state.memory state'.memory := by
  cases call with
  | addTuningAction regionId kind name value =>
    obtain ⟨hwell, hmemory⟩ := h.addTuningAction hrun
    exact ⟨hwell, hmemory ▸ .refl _⟩
  | mapToVariable name pointer restore =>
    obtain ⟨parsed, _, hrun⟩ := Outcome.bind_eq_ok.mp hrun
    exact h.fillEntry hrun
  | mapToFunction name pointer restore language =>
    obtain ⟨parsed, _, hrun⟩ := Outcome.bind_eq_ok.mp hrun
    exact h.fillEntry hrun
  | pluginAction name kind restore variablePtr functionPtr validationPtr => exact h.fillEntry hrun

theorem WellFormed.calls {calls : List TableCall} (h : WellFormed state)
    (hrun : calls.foldlM State.call state = .ok state') : WellFormed state' := by
  apply Outcome.foldlM_invariant WellFormed _ calls state state' h hrun
  exact fun _ _ _ h hrun => (h.call hrun).1

end Calls
end ReadexPtf.Scorep
