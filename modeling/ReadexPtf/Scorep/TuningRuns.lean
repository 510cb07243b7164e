import ReadexPtf.Scorep.TuningEvents

/-! Tables that stay as they are: the exit of a region brings back what its enter has found. -/
namespace ReadexPtf.Scorep

/-- Different actions act on different variables or functions. -/
def DistinctTargets (tables : Tables) : Prop :=
  ∀ (i j : ℕ) (action other : TuningAction) (target : Target),
    tables.actions.entries[i]? = some action → tables.actions.entries[j]? = some other →
    action.target = some target → other.target = some target → i = j

/-- Every exit event leaves the region that was entered last. -/
def WellNested : List (BitVec 32) → List Event → Prop
  | _, [] => True
  | entered, .enterRegion regionId :: events => WellNested (regionId :: entered) events
  | [], .exitRegion _ :: _ => False
  | last :: entered, .exitRegion regionId :: events =>
    regionId = last ∧ WellNested entered events

/-- What actions with the flag act on has its value again, and every stack its height. -/
structure Restored (tables : Tables) (before after : Memory) : Prop where
  values : ∀ action ∈ tables.actions.entries, action.restoreValueFlag ≠ 0 →
    ∀ target, action.target = some target → after.read target = before.read target
  heights : ∀ address,
    (after.stackAt address).value.length = (before.stackAt address).value.length

/-- Every event is handled, and every exit event restores what there was before its enter.
The memories are those before the enter events of the open regions. -/
def ExitsRestore : List Event → State → List Memory → Prop
  | [], _, _ => True
  | .enterRegion regionId :: events, state, saved =>
    ∃ state', state.handle (.enterRegion regionId) = .ok state' ∧
      ExitsRestore events state' (state.memory :: saved)
  | .exitRegion regionId :: events, state, saved =>
    ∃ state' before others, saved = before :: others ∧
      state.handle (.exitRegion regionId) = .ok state' ∧
      Restored state.tables before state'.memory ∧ ExitsRestore events state' others

/-- The target that is restored from a stack. -/
def Tables.targetOf (tables : Tables) (address : ℕ) : Option Target :=
  (tables.actions.entries.find? fun action => action.restores.map Prod.snd = some address).bind
    fun action => action.restores.map Prod.fst

/-- A stack, and the value of what is restored from it. -/
def Tables.view (tables : Tables) (address : ℕ) (memory : Memory) : Option Word × List Word :=
  ((tables.targetOf address).map memory.read, (memory.stackAt address).value)

def enterChange (parameter : TuningParameter) (view : Option Word × List Word) :
    Outcome (Option Word × List Word) :=
  .ok (some parameter.tuningParameterValue, view.1.toList ++ view.2)

def exitChange (_ : TuningParameter) (view : Option Word × List Word) :
    Outcome (Option Word × List Word) :=
  match view.2 with
  | [] => .aborts
  | value :: values => .ok (some value, values)

section Rounds
variable {state : State} {memory memory' : Memory} {action : TuningAction} {address : ℕ}

theorem targetOf_eq_some {tables : Tables} {target : Target}
    (h : tables.targetOf address = some target) : ∃ (i : ℕ) (action : TuningAction),
      tables.actions.entries[i]? = some action ∧ action.restores = some (target, address) := by
  obtain ⟨action, hfind, htarget⟩ := Option.bind_eq_some_iff.mp h
  obtain ⟨⟨target', own⟩, hrestores, rfl⟩ := Option.map_eq_some_iff.mp htarget
  have hown : action.restores.map Prod.snd = some address := by
    simpa using List.find?_some hfind
  rw [hrestores, Option.map_some, Option.some.injEq] at hown
  obtain ⟨i, hi⟩ := List.mem_iff_getElem?.mp (List.mem_of_find?_eq_some hfind)
  exact ⟨i, action, hi, hown ▸ hrestores⟩

theorem WellFormed.targetOf (h : WellFormed state) {i : ℕ} {target : Target}
    (haction : state.tables.actions.entries[i]? = some action)
    (hrestores : action.restores = some (target, address)) :
    state.tables.targetOf address = some target := by
  cases hfind : state.tables.targetOf address with
  | some other =>
    obtain ⟨j, action', haction', hrestores'⟩ := targetOf_eq_some hfind
    have hsame := h.same_action haction' haction hrestores' hrestores
    rw [hsame, haction] at haction'
    cases haction'
    rw [hrestores] at hrestores'
    cases hrestores'
    rfl
  | none =>
    rw [Tables.targetOf, Option.bind_eq_none_iff] at hfind
    cases hfirst : state.tables.actions.entries.find? fun action =>
        action.restores.map Prod.snd = some address with
    | none =>
      have hnot := List.find?_eq_none.mp hfirst action (List.mem_of_getElem? haction)
      simp [hrestores] at hnot
    | some first =>
      have hown : first.restores.map Prod.snd = some address := by
        simpa using List.find?_some hfirst
      have hnone := hfind first hfirst
      rw [Option.map_eq_none_iff] at hnone
      rw [hnone] at hown
      cases hown

/-- A round leaves the views of the other stacks. -/
theorem view_other (hdistinct : DistinctTargets state.tables)
    {i : ℕ} (haction : state.tables.actions.entries[i]? = some action)
    (hne : action.restores.map Prod.snd ≠ some address)
    (hstack : (memory'.stackAt address).value = (memory.stackAt address).value)
    (hread : ∀ target, action.target ≠ some target → memory'.read target = memory.read target) :
    state.tables.view address memory' = state.tables.view address memory := by
  refine Prod.ext ?_ hstack
  cases htarget : state.tables.targetOf address with
  | none => simp only [Tables.view, htarget, Option.map_none]
  | some target =>
    obtain ⟨j, other, hother, hrestores⟩ := targetOf_eq_some htarget
    simp only [Tables.view, htarget, Option.map_some, Option.some.injEq]
    apply hread
    intro hsame
    have hij := hdistinct i j action other target haction hother hsame
      (TuningAction.restores_eq_some.mp hrestores).2.1
    rw [hij, hother] at haction
    cases haction
    rw [hrestores] at hne
    exact hne rfl

theorem WellFormed.enter_changesOwn (h : WellFormed state)
    (hdistinct : DistinctTargets state.tables) {region : TuningRegion}
    (hregion : region ∈ state.tables.regions.entries) :
    Outcome.ChangesOwn state.tables.enterAction state.tables.view state.tables.stackOf enterChange
      region.tuningActions.entries where
  own := by
    intro parameter hparameter memory memory' address hrun hstack
    obtain ⟨action, target, haction, hrestores⟩ := stackOf_eq_some.mp hstack
    rw [enterAction_eq haction] at hrun
    cases hrun
    have htarget := (TuningAction.restores_eq_some.mp hrestores).2.1
    simp only [Tables.view, h.targetOf haction hrestores, Option.map_some, enterChange,
      apply_stackAt, apply_read, hrestores, htarget, if_true, Option.toList_some,
      List.singleton_append]
  other := by
    intro parameter hparameter memory memory' address hrun hstack
    obtain ⟨action, haction⟩ := h.action hregion hparameter
    rw [enterAction_eq haction] at hrun
    cases hrun
    have hne : action.restores.map Prod.snd ≠ some address := by
      rw [Tables.stackOf, Tables.restoresAt, haction] at hstack
      exact hstack
    refine view_other hdistinct haction hne ?_ fun target htarget => ?_
    · rw [apply_stackAt]
      split
      · rename_i target own hrestores
        rw [hrestores] at hne
        exact if_neg fun heq => hne (congrArg some heq.symm)
      · rfl
    · rw [apply_read, if_neg htarget]
  returns := by
    intro parameter hparameter memory _
    obtain ⟨action, haction⟩ := h.action hregion hparameter
    exact ⟨_, enterAction_eq haction⟩

theorem WellFormed.exit_changesOwn (h : WellFormed state)
    (hdistinct : DistinctTargets state.tables) {region : TuningRegion}
    (hregion : region ∈ state.tables.regions.entries) :
    Outcome.ChangesOwn state.tables.exitAction state.tables.view state.tables.stackOf exitChange
      region.tuningActions.entries where
  own := by
    intro parameter hparameter memory memory' address hrun hstack
    obtain ⟨action, target, haction, hrestores⟩ := stackOf_eq_some.mp hstack
    rw [exitAction_eq haction] at hrun
    obtain ⟨value, values, hvalue, hstacks, hread⟩ := undo_own hrestores hrun
    simp only [Tables.view, h.targetOf haction hrestores, Option.map_some, exitChange, hvalue,
      hstacks, hread, if_true]
  other := by
    intro parameter hparameter memory memory' address hrun hstack
    obtain ⟨action, haction⟩ := h.action hregion hparameter
    rw [exitAction_eq haction] at hrun
    have hne : action.restores.map Prod.snd ≠ some address := by
      rw [Tables.stackOf, Tables.restoresAt, haction] at hstack
      exact hstack
    cases undo_eq_ok hrun with
    | inl hnone => rw [hnone.2]
    | inr hundo =>
      obtain ⟨target, own, value, values, hrestores, _, _, hstacks, hread⟩ := hundo
      refine view_other hdistinct haction hne ?_ fun other hother => ?_
      · rw [hrestores] at hne
        rw [hstacks, if_neg fun heq => hne (congrArg some heq.symm)]
      · rw [hread, if_neg]
        exact fun heq => hother (heq ▸ (TuningAction.restores_eq_some.mp hrestores).2.1)
  returns := by
    intro parameter hparameter memory hchange
    refine h.exitAction_returns hregion hparameter fun address hstack hempty => ?_
    obtain ⟨view, hview⟩ := hchange address hstack
    rw [exitChange, Tables.view, hempty] at hview
    cases hview

end Rounds

section Events
variable {state : State} {before inside memory : Memory} {regionId : BitVec 32}

theorem WellFormed.enterRegion_returns (h : WellFormed state)
    (hdistinct : DistinctTargets state.tables) (regionId : BitVec 32) (memory : Memory) :
    ∃ memory', state.tables.enterRegion regionId memory = .ok memory' := by
  rw [Tables.enterRegion]
  cases stacksOf_cases state.tables regionId with
  | inl hnone => exact ⟨memory, by rw [hnone.1]⟩
  | inr hsome =>
    obtain ⟨i, region, hfind, hget, hregion, _⟩ := hsome
    simp only [hfind, hget, Outcome.found, Outcome.ok_bind]
    exact (h.enter_changesOwn hdistinct hregion).foldlM_returns (h.nodup_stacksOf hregion)
      fun parameter _ address _ => ⟨_, rfl⟩

/-- An exit event takes back its enter event, whatever has brought the views back between them. -/
theorem WellFormed.exit_restores (h : WellFormed state) (hdistinct : DistinctTargets state.tables)
    (henter : state.tables.enterRegion regionId before = .ok inside)
    (hsame : ∀ address, state.tables.view address memory = state.tables.view address inside) :
    ∃ memory', state.tables.exitRegion regionId memory = .ok memory' ∧
      ∀ address, state.tables.view address memory' = state.tables.view address before := by
  rw [Tables.enterRegion] at henter
  rw [Tables.exitRegion]
  cases stacksOf_cases state.tables regionId with
  | inl hnone =>
    simp only [hnone.1] at henter ⊢
    cases henter
    exact ⟨memory, rfl, hsame⟩
  | inr hsome =>
    obtain ⟨i, region, hfind, hget, hregion, _⟩ := hsome
    simp only [hfind, hget, Outcome.found, Outcome.ok_bind] at henter ⊢
    have hnodup := h.nodup_stacksOf hregion
    have hentered := h.enter_changesOwn hdistinct hregion
    have hexited := h.exit_changesOwn hdistinct hregion
    -- a stack of the region has the old value on top
    have hsaved : ∀ parameter ∈ region.tuningActions.entries, ∀ address,
        state.tables.stackOf parameter = some address →
        exitChange parameter (state.tables.view address memory) =
          .ok (state.tables.view address before) := by
      intro parameter hparameter address hstack
      have hchange := hentered.foldlM_own hnodup henter parameter hparameter address hstack
      obtain ⟨action, target, haction, hrestores⟩ := stackOf_eq_some.mp hstack
      rw [hsame, ← Outcome.ok.inj hchange, exitChange, Tables.view,
        h.targetOf haction hrestores]
      rfl
    obtain ⟨memory', hrun⟩ := hexited.foldlM_returns hnodup
      (fun parameter hparameter address hstack => ⟨_, hsaved parameter hparameter address hstack⟩)
    refine ⟨memory', hrun, fun address => ?_⟩
    by_cases hmem : address ∈ region.tuningActions.entries.filterMap state.tables.stackOf
    · obtain ⟨parameter, hparameter, hstack⟩ := List.mem_filterMap.mp hmem
      have hchange := hexited.foldlM_own hnodup hrun parameter hparameter address hstack
      rw [hsaved parameter hparameter address hstack] at hchange
      exact (Outcome.ok.inj hchange).symm
    · rw [hexited.foldlM_other hmem hrun, hsame, hentered.foldlM_other hmem henter]

/-- Equal views are equal values and equal stacks. -/
theorem WellFormed.restored (h : WellFormed state)
    (hsame : ∀ address, state.tables.view address memory = state.tables.view address before) :
    Restored state.tables before memory where
  values := by
    intro action haction hflag target htarget
    obtain ⟨address, haddress⟩ := Option.isSome_iff_exists.mp ((h.flags action haction).mp hflag)
    have hrestores := TuningAction.restores_eq_some.mpr ⟨hflag, htarget, haddress⟩
    obtain ⟨i, hi⟩ := List.mem_iff_getElem?.mp haction
    have hview := congrArg Prod.fst (hsame address)
    simpa only [Tables.view, h.targetOf hi hrestores, Option.map_some, Option.some.injEq] using hview
  heights := fun address => congrArg (fun view => view.2.length) (hsame address)

/-- The views are those behind the enter event of the innermost open region, and before that
event they were those behind the enter event of the region around it, and so on. -/
def Enclosed (tables : Tables) : List (BitVec 32) → List Memory → Memory → Prop
  | [], [], _ => True
  | regionId :: entered, before :: saved, memory =>
    ∃ inside, tables.enterRegion regionId before = .ok inside ∧
      (∀ address, tables.view address memory = tables.view address inside) ∧
      Enclosed tables entered saved before
  | _, _, _ => False

theorem Enclosed.of_view {tables : Tables} {entered : List (BitVec 32)} {saved : List Memory}
    (h : Enclosed tables entered saved before)
    (hsame : ∀ address, tables.view address memory = tables.view address before) :
    Enclosed tables entered saved memory := by
  cases entered with
  | nil =>
    cases saved with
    | nil => trivial
    | cons => exact h
  | cons regionId entered =>
    cases saved with
    | nil => exact h
    | cons outer saved =>
      obtain ⟨inside, henter, hview, hrest⟩ := h
      exact ⟨inside, henter, fun address => (hsame address).trans (hview address), hrest⟩

theorem WellFormed.exitsRestore {events : List Event} :
    ∀ {state : State} {entered : List (BitVec 32)} {saved : List Memory}, WellFormed state →
      DistinctTargets state.tables → WellNested entered events →
      Enclosed state.tables entered saved state.memory → ExitsRestore events state saved := by
  induction events with
  | nil => exact fun _ _ _ _ => trivial
  | cons event events ih =>
    intro state entered saved h hdistinct hnested henclosed
    cases event with
    | enterRegion regionId =>
      obtain ⟨memory, henter⟩ := h.enterRegion_returns hdistinct regionId state.memory
      refine ⟨{ state with memory := memory }, ?_, ih ?_ hdistinct hnested ?_⟩
      · rw [State.handle, henter]
        rfl
      · exact h.of_nextStack (enterRegion_nextStack henter)
      · exact ⟨memory, henter, fun _ => rfl, henclosed⟩
    | exitRegion regionId =>
      cases entered with
      | nil => exact absurd hnested id
      | cons last entered =>
        cases saved with
        | nil => exact absurd henclosed id
        | cons before saved =>
          obtain ⟨rfl, hnested⟩ := hnested
          obtain ⟨inside, henter, hview, hrest⟩ := henclosed
          obtain ⟨memory, hexit, hsame⟩ := h.exit_restores hdistinct henter hview
          refine ⟨{ state with memory := memory }, before, saved, rfl, ?_, h.restored hsame,
            ih ?_ hdistinct hnested (hrest.of_view hsame)⟩
          · rw [State.handle, hexit]
            rfl
          · exact h.of_nextStack (exitRegion_nextStack hexit)

end Events

/-- Whatever calls have filled the tables, an exit event restores what its enter event found. -/
theorem exitsRestore_of_calls (calls : List TableCall) (variableAt functionValue : ℕ → Word)
    (filled : State) (hfilled : calls.foldlM State.call (.start variableAt functionValue) = .ok filled)
    (hdistinct : DistinctTargets filled.tables) (events : List Event)
    (hnested : WellNested [] events) : ExitsRestore events filled [] :=
  ((wellFormed_start variableAt functionValue).calls hfilled).exitsRestore hdistinct hnested trivial

theorem distinctTargets_of_nodup {tables : Tables}
    (h : (tables.actions.entries.map TuningAction.target).Nodup) : DistinctTargets tables := by
  intro i j action other target haction hother htarget hsame
  have hi : (tables.actions.entries.map TuningAction.target)[i]? = some (some target) := by
    rw [List.getElem?_map, haction, Option.map_some, htarget]
  have hj : (tables.actions.entries.map TuningAction.target)[j]? = some (some target) := by
    rw [List.getElem?_map, hother, Option.map_some, hsame]
  exact (List.getElem?_inj (List.getElem?_eq_some_iff.mp hi).1 h).mp (hi.trans hj.symm)

/-- A variable and a function in a region that calls itself through a region without actions. -/
theorem exitsRestore_recursive :
    ∃ filled, [TableCall.mapToVariable "<a>".toList (some 7) 1,
        .mapToFunction "<b>".toList (some 3) 1 .fortran, .addTuningAction 5 0 "a".toList 42,
        .addTuningAction 5 1 "b".toList 6].foldlM State.call (.start (fun _ => 1) fun _ => 2) =
          .ok filled ∧
      ExitsRestore [.enterRegion 5, .enterRegion 9, .enterRegion 5, .exitRegion 5, .exitRegion 9,
        .exitRegion 5] filled [] := by
  obtain ⟨filled, hrun, htargets⟩ : ∃ filled, [TableCall.mapToVariable "<a>".toList (some 7) 1,
      .mapToFunction "<b>".toList (some 3) 1 .fortran, .addTuningAction 5 0 "a".toList 42,
      .addTuningAction 5 1 "b".toList 6].foldlM State.call (.start (fun _ => 1) fun _ => 2) =
        .ok filled ∧
      filled.tables.actions.entries.map TuningAction.target =
        [some (.toVariable 7), some (.toFunction 3)] := ⟨_, rfl, rfl⟩
  have hdistinct : DistinctTargets filled.tables :=
    distinctTargets_of_nodup (htargets ▸ by decide)
  exact ⟨filled, hrun, exitsRestore_of_calls _ _ _ filled hrun hdistinct _ (by simp [WellNested])⟩

end ReadexPtf.Scorep
