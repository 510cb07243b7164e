import ReadexPtf.Scorep.TuningEvents

/-! Tables that change while regions are open. -/
namespace ReadexPtf.Scorep

inductive Step where
  | event (event : Event)
  | call (call : TableCall)

/-- A state with the regions that are open, the innermost first, and the stacks that the
enter event of each has pushed on. -/
structure Run where
  state : State
  opened : List (BitVec 32 × List ℕ)

namespace Run

def start (variableAt functionValue : ℕ → Word) : Run := ⟨.start variableAt functionValue, []⟩

def next (run : Run) : Step → Outcome Run
  | .event (.enterRegion regionId) => do
    let state ← run.state.handle (.enterRegion regionId)
    return ⟨state, (regionId, run.state.tables.stacksOf regionId) :: run.opened⟩
  | .event (.exitRegion regionId) => do
    let state ← run.state.handle (.exitRegion regionId)
    return ⟨state, run.opened.tail⟩
  | .call call => do
    let state ← run.state.call call
    return ⟨state, run.opened⟩

/-- Each stack is as high as the number of open regions that pushed on it. -/
def HeightsMatch (run : Run) : Prop :=
  ∀ address, (run.state.memory.stackAt address).value.length =
    run.opened.countP fun region => address ∈ region.2

/-- The stacks that an exit event restores from are those that its enter event pushed on. -/
def Meets (run : Run) : Step → Prop
  | .event (.exitRegion regionId) => ∀ region, run.opened.head? = some region →
      ∀ address, address ∈ run.state.tables.stacksOf regionId ↔ address ∈ region.2
  | _ => True

end Run

/-- Every exit event leaves the region that was entered last, whatever calls come between. -/
def NestedSteps : List (BitVec 32) → List Step → Prop
  | _, [] => True
  | entered, .call _ :: steps => NestedSteps entered steps
  | entered, .event (.enterRegion regionId) :: steps => NestedSteps (regionId :: entered) steps
  | [], .event (.exitRegion _) :: _ => False
  | last :: entered, .event (.exitRegion regionId) :: steps =>
    regionId = last ∧ NestedSteps entered steps

/-- No event aborts, and the heights match before and after every step. A call that does not
return ends the run. -/
def StacksRight : List Step → Run → Prop
  | [], run => run.HeightsMatch
  | step :: steps, run => run.HeightsMatch ∧
      (∀ event, step = .event event → ∃ run', run.next step = .ok run') ∧
      ∀ run', run.next step = .ok run' → StacksRight steps run'

/-! What events do to the heights. -/

section Heights
variable {state : State} {regionId : BitVec 32} {memory memory' : Memory}

def heightOf (address : ℕ) (memory : Memory) : ℕ := (memory.stackAt address).value.length

def pushHeight (_ : TuningParameter) (height : ℕ) : Outcome ℕ := .ok (height + 1)

def popHeight (_ : TuningParameter) : ℕ → Outcome ℕ
  | 0 => .aborts
  | height + 1 => .ok height

theorem WellFormed.enter_pushes (h : WellFormed state) {region : TuningRegion}
    (hregion : region ∈ state.tables.regions.entries) :
    Outcome.ChangesOwn state.tables.enterAction heightOf state.tables.stackOf pushHeight
      region.tuningActions.entries where
  own := by
    intro parameter hparameter memory memory' address hrun hstack
    obtain ⟨action, target, haction, hrestores⟩ := stackOf_eq_some.mp hstack
    rw [enterAction_eq haction] at hrun
    cases hrun
    simp only [pushHeight, heightOf, apply_stackAt, hrestores, if_true, List.length_cons]
  other := by
    intro parameter hparameter memory memory' address hrun hstack
    obtain ⟨action, haction⟩ := h.action hregion hparameter
    rw [enterAction_eq haction] at hrun
    cases hrun
    rw [heightOf, heightOf, apply_stackAt]
    split
    · rename_i target own hrestores
      have hne : address ≠ own := fun heq =>
        hstack (stackOf_eq_some.mpr ⟨action, target, haction, heq ▸ hrestores⟩)
      rw [if_neg hne]
    · rfl
  returns := by
    intro parameter hparameter memory _
    obtain ⟨action, haction⟩ := h.action hregion hparameter
    exact ⟨_, enterAction_eq haction⟩

theorem WellFormed.exit_pops (h : WellFormed state) {region : TuningRegion}
    (hregion : region ∈ state.tables.regions.entries) :
    Outcome.ChangesOwn state.tables.exitAction heightOf state.tables.stackOf popHeight
      region.tuningActions.entries where
  own := by
    intro parameter hparameter memory memory' address hrun hstack
    obtain ⟨action, target, haction, hrestores⟩ := stackOf_eq_some.mp hstack
    rw [exitAction_eq haction] at hrun
    obtain ⟨value, values, hvalue, hstacks, _⟩ := undo_own hrestores hrun
    simp only [heightOf, hvalue, hstacks, if_true, List.length_cons, popHeight]
  other := by
    intro parameter hparameter memory memory' address hrun hstack
    obtain ⟨action, haction⟩ := h.action hregion hparameter
    rw [exitAction_eq haction] at hrun
    cases undo_eq_ok hrun with
    | inl hnone => rw [hnone.2]
    | inr hundo =>
      obtain ⟨target, own, value, values, hrestores, _, _, hstacks, _⟩ := hundo
      have hne : address ≠ own := fun heq =>
        hstack (stackOf_eq_some.mpr ⟨action, target, haction, heq ▸ hrestores⟩)
      rw [heightOf, heightOf, hstacks, if_neg hne]
  returns := by
    intro parameter hparameter memory hchange
    refine h.exitAction_returns hregion hparameter fun address hstack hempty => ?_
    obtain ⟨height, hheight⟩ := hchange address hstack
    rw [heightOf, hempty] at hheight
    cases hheight

/-- An enter event returns, and each stack of the region is one higher. -/
theorem WellFormed.enterRegion_heights (h : WellFormed state) (regionId : BitVec 32)
    (memory : Memory) : ∃ memory', state.tables.enterRegion regionId memory = .ok memory' ∧
      ∀ address, heightOf address memory' =
        heightOf address memory + if address ∈ state.tables.stacksOf regionId then 1 else 0 := by
  rw [Tables.enterRegion]
  rcases stacksOf_cases state.tables regionId with
    ⟨hfind, hstacks⟩ | ⟨i, region, hfind, hget, hregion, hstacks⟩
  · exact ⟨memory, by rw [hfind], fun address => by simp [hstacks]⟩
  · simp only [hfind, hget, hstacks, Outcome.found, Outcome.ok_bind]
    have hpushes := h.enter_pushes hregion
    have hnodup := h.nodup_stacksOf hregion
    obtain ⟨memory', hrun⟩ := hpushes.foldlM_returns hnodup (s := memory)
      fun parameter _ address _ => ⟨_, rfl⟩
    refine ⟨memory', hrun, fun address => ?_⟩
    split_ifs with hmem
    · obtain ⟨parameter, hparameter, hstack⟩ := List.mem_filterMap.mp hmem
      have hchange := hpushes.foldlM_own hnodup hrun parameter hparameter address hstack
      exact (Outcome.ok.inj hchange).symm
    · exact hpushes.foldlM_other hmem hrun

/-- An exit event returns if no stack of the region is empty, and makes each one lower. -/
theorem WellFormed.exitRegion_returns (h : WellFormed state)
    (hpushed : ∀ address ∈ state.tables.stacksOf regionId, 0 < heightOf address memory) :
    ∃ memory', state.tables.exitRegion regionId memory = .ok memory' := by
  rw [Tables.exitRegion]
  rcases stacksOf_cases state.tables regionId with
    ⟨hfind, hstacks⟩ | ⟨i, region, hfind, hget, hregion, hstacks⟩
  · exact ⟨memory, by rw [hfind]⟩
  · simp only [hfind, hget, Outcome.found, Outcome.ok_bind]
    apply (h.exit_pops hregion).foldlM_returns (h.nodup_stacksOf hregion)
    intro parameter hparameter address hstack
    have hpos := hpushed address
      (hstacks ▸ List.mem_filterMap.mpr ⟨parameter, hparameter, hstack⟩)
    obtain ⟨height, hheight⟩ := Nat.exists_eq_add_one_of_ne_zero (Nat.ne_of_gt hpos)
    exact ⟨height, by rw [hheight, popHeight]⟩

theorem WellFormed.exitRegion_heights (h : WellFormed state)
    (hrun : state.tables.exitRegion regionId memory = .ok memory') (address : ℕ) :
    heightOf address memory =
      heightOf address memory' + if address ∈ state.tables.stacksOf regionId then 1 else 0 := by
  rw [Tables.exitRegion] at hrun
  rcases stacksOf_cases state.tables regionId with
    ⟨hfind, hstacks⟩ | ⟨i, region, hfind, hget, hregion, hstacks⟩
  · rw [hfind] at hrun
    cases hrun
    simp [hstacks]
  · simp only [hfind, hget, Outcome.found, Outcome.ok_bind] at hrun
    rw [hstacks]
    split_ifs with hmem
    · obtain ⟨parameter, hparameter, hstack⟩ := List.mem_filterMap.mp hmem
      have hchange := (h.exit_pops hregion).foldlM_own (h.nodup_stacksOf hregion) hrun
        parameter hparameter address hstack
      cases hheight : heightOf address memory with
      | zero =>
        rw [hheight] at hchange
        cases hchange
      | succ height =>
        rw [hheight, popHeight] at hchange
        rw [← Outcome.ok.inj hchange]
    · exact ((h.exit_pops hregion).foldlM_other hmem hrun).symm

/-- The stacks of a region have been made. -/
theorem WellFormed.stacksOf_lt (h : WellFormed state) {address : ℕ}
    (hmem : address ∈ state.tables.stacksOf regionId) : address < state.memory.nextStack := by
  rcases stacksOf_cases state.tables regionId with
    ⟨hfind, hstacks⟩ | ⟨i, region, hfind, hget, hregion, hstacks⟩
  · rw [hstacks] at hmem
    exact absurd hmem List.not_mem_nil
  · rw [hstacks] at hmem
    obtain ⟨parameter, hparameter, hstack⟩ := List.mem_filterMap.mp hmem
    obtain ⟨action, target, haction, hrestores⟩ := stackOf_eq_some.mp hstack
    exact h.made action (List.mem_of_getElem? haction) address
      (TuningAction.restores_eq_some.mp hrestores).2.2

end Heights

/-! Steps. -/

/-- What every step keeps, beside the heights. -/
structure Run.Inv (run : Run) (entered : List (BitVec 32)) : Prop where
  wellFormed : WellFormed run.state
  opened : run.opened.map Prod.fst = entered
  made : ∀ region ∈ run.opened, ∀ address ∈ region.2, address < run.state.memory.nextStack

section Steps
variable {run run' : Run} {entered : List (BitVec 32)} {regionId : BitVec 32}

theorem Run.Inv.enter (h : run.Inv entered) (hheights : run.HeightsMatch) (regionId : BitVec 32) :
    ∃ run', run.next (.event (.enterRegion regionId)) = .ok run' ∧
      run'.Inv (regionId :: entered) ∧ run'.HeightsMatch := by
  obtain ⟨memory, hrun, hpushed⟩ :=
    h.wellFormed.enterRegion_heights regionId run.state.memory
  have hnext := enterRegion_nextStack hrun
  refine ⟨⟨{ run.state with memory := memory },
    (regionId, run.state.tables.stacksOf regionId) :: run.opened⟩, ?_, ⟨?_, ?_, ?_⟩, ?_⟩
  · rw [Run.next, State.handle, hrun]
    rfl
  · exact h.wellFormed.of_nextStack hnext
  · rw [List.map_cons, h.opened]
  · intro region hregion address haddress
    rw [hnext]
    cases List.mem_cons.mp hregion with
    | inl hself => exact h.wellFormed.stacksOf_lt (hself ▸ haddress)
    | inr hold => exact h.made region hold address haddress
  · intro address
    rw [List.countP_cons, ← hheights address]
    simp only [decide_eq_true_eq]
    exact hpushed address

/-- The heights match behind an exit event just if the condition is met. -/
theorem Run.Inv.exit (h : run.Inv (regionId :: entered)) (hheights : run.HeightsMatch)
    (hrun : run.next (.event (.exitRegion regionId)) = .ok run') :
    run'.Inv entered ∧ (run'.HeightsMatch ↔ run.Meets (.event (.exitRegion regionId))) := by
  obtain ⟨state, hhandle, heq⟩ := Outcome.bind_eq_ok.mp hrun
  obtain ⟨memory, hexit, hstate⟩ := Outcome.bind_eq_ok.mp hhandle
  cases hstate
  cases heq
  have hnext := exitRegion_nextStack hexit
  have hopened := h.opened
  cases hframes : run.opened with
  | nil =>
    rw [hframes] at hopened
    cases hopened
  | cons region others =>
    have hothers : others.map Prod.fst = entered := by
      rw [hframes, List.map_cons, List.cons.injEq] at hopened
      exact hopened.2
    constructor
    · refine ⟨h.wellFormed.of_nextStack hnext, hothers, fun other hother address haddress => ?_⟩
      rw [hnext]
      exact h.made other (hframes ▸ List.mem_cons_of_mem region hother) address haddress
    · have hcount : ∀ address, heightOf address memory +
          (if address ∈ run.state.tables.stacksOf regionId then 1 else 0) =
            (others.countP fun region => address ∈ region.2) + if address ∈ region.2 then 1 else 0 := by
        intro address
        have hbefore : heightOf address run.state.memory = _ := hheights address
        rw [hframes, List.countP_cons] at hbefore
        rw [← h.wellFormed.exitRegion_heights hexit address]
        simpa only [decide_eq_true_eq] using hbefore
      constructor
      · intro hmatch other hother address
        rw [hframes, List.head?_cons, Option.some.injEq] at hother
        subst hother
        have hsum := hcount address
        have hafter : heightOf address memory = others.countP fun region => address ∈ region.2 :=
          hmatch address
        rw [hafter] at hsum
        split_ifs at hsum with hpopped hpushed hpushed
        · exact iff_of_true hpopped hpushed
        · omega
        · omega
        · exact iff_of_false hpopped hpushed
      · intro hmeets address
        have hsame := hmeets region (by rw [hframes, List.head?_cons]) address
        have hsum := hcount address
        simp only [hsame] at hsum
        exact Nat.add_right_cancel hsum

theorem Run.Inv.exit_returns (h : run.Inv (regionId :: entered)) (hheights : run.HeightsMatch)
    (hmeets : run.Meets (.event (.exitRegion regionId))) :
    ∃ run', run.next (.event (.exitRegion regionId)) = .ok run' := by
  have hopened := h.opened
  cases hframes : run.opened with
  | nil =>
    rw [hframes] at hopened
    cases hopened
  | cons region others =>
    have hpushed : ∀ address ∈ run.state.tables.stacksOf regionId,
        0 < heightOf address run.state.memory := by
      intro address hmem
      have hpushed := (hmeets region (by rw [hframes, List.head?_cons]) address).mp hmem
      rw [heightOf, hheights address, hframes, List.countP_cons]
      simp [hpushed]
    obtain ⟨memory, hexit⟩ := h.wellFormed.exitRegion_returns hpushed
    refine ⟨⟨{ run.state with memory := memory }, run.opened.tail⟩, ?_⟩
    rw [Run.next, State.handle, hexit]
    rfl

theorem Run.Inv.call (h : run.Inv entered) (hheights : run.HeightsMatch) {call : TableCall}
    (hrun : run.next (.call call) = .ok run') : run'.Inv entered ∧ run'.HeightsMatch := by
  obtain ⟨state, hcall, heq⟩ := Outcome.bind_eq_ok.mp hrun
  cases heq
  obtain ⟨hwell, hfills⟩ := h.wellFormed.call hcall
  refine ⟨⟨hwell, h.opened, fun region hregion address haddress => ?_⟩, fun address => ?_⟩
  · exact (h.made region hregion address haddress).trans_le hfills.next
  · by_cases hold : address < run.state.memory.nextStack
    · rw [hfills.old address hold]
      exact hheights address
    · have hnone : (run.opened.countP fun region => address ∈ region.2) = 0 := by
        rw [List.countP_eq_zero]
        intro region hregion hmem
        exact hold (h.made region hregion address (of_decide_eq_true hmem))
      cases hfills.new address (Nat.le_of_not_lt hold) with
      | inl hsame =>
        rw [hsame]
        exact hheights address
      | inr hempty =>
        rw [hempty, hnone]
        rfl

theorem StacksRight.heights {steps : List Step} (h : StacksRight steps run) :
    run.HeightsMatch := by
  cases steps with
  | nil => exact h
  | cons step steps => exact h.1

/-- The run is right just if every exit event restores from the stacks of its enter event. -/
theorem Run.Inv.right_iff_meets {steps : List Step} :
    ∀ {run : Run} {entered : List (BitVec 32)}, run.Inv entered → run.HeightsMatch →
      NestedSteps entered steps →
      (StacksRight steps run ↔ Outcome.StepsMeet Run.Meets Run.next steps run) := by
  induction steps with
  | nil => exact fun _ hheights _ => iff_of_true hheights trivial
  | cons step steps ih =>
    intro run entered h hheights hnested
    rw [StacksRight, Outcome.StepsMeet, and_iff_right hheights]
    cases step with
    | call call =>
      have hrest : ∀ run', run.next (.call call) = .ok run' →
          (StacksRight steps run' ↔ Outcome.StepsMeet Run.Meets Run.next steps run') := by
        intro run' hrun
        obtain ⟨hinv, hheights'⟩ := h.call hheights hrun
        exact ih hinv hheights' hnested
      constructor
      · exact fun hright => ⟨trivial, fun run' hrun => (hrest run' hrun).mp (hright.2 run' hrun)⟩
      · refine fun hmeet => ⟨fun event hevent => ?_, fun run' hrun => ?_⟩
        · cases hevent
        · exact (hrest run' hrun).mpr (hmeet.2 run' hrun)
    | event event =>
      cases event with
      | enterRegion regionId =>
        obtain ⟨run', hrun, hinv, hheights'⟩ := h.enter hheights regionId
        have hrest := ih hinv hheights' hnested
        constructor
        · refine fun hright => ⟨trivial, fun other hother => ?_⟩
          rw [hrun] at hother
          cases hother
          exact hrest.mp (hright.2 run' hrun)
        · refine fun hmeet => ⟨fun _ _ => ⟨run', hrun⟩, fun other hother => ?_⟩
          rw [hrun] at hother
          cases hother
          exact hrest.mpr (hmeet.2 run' hrun)
      | exitRegion regionId =>
        cases entered with
        | nil => exact absurd hnested id
        | cons last entered =>
          obtain ⟨rfl, hnested⟩ := hnested
          constructor
          · rintro ⟨hreturns, hright⟩
            obtain ⟨run', hrun⟩ := hreturns _ rfl
            obtain ⟨hinv, hiff⟩ := h.exit hheights hrun
            have hright' := hright run' hrun
            have hheights' := hright'.heights
            refine ⟨hiff.mp hheights', fun other hother => ?_⟩
            rw [hrun] at hother
            cases hother
            exact (ih hinv hheights' hnested).mp hright'
          · rintro ⟨hmeets, hrest⟩
            obtain ⟨run', hrun⟩ := h.exit_returns hheights hmeets
            obtain ⟨hinv, hiff⟩ := h.exit hheights hrun
            refine ⟨fun _ _ => ⟨run', hrun⟩, fun other hother => ?_⟩
            rw [hrun] at hother
            cases hother
            exact (ih hinv (hiff.mpr hmeets) hnested).mpr (hrest run' hrun)

end Steps

theorem inv_start (variableAt functionValue : ℕ → Word) :
    (Run.start variableAt functionValue).Inv [] where
  wellFormed := wellFormed_start variableAt functionValue
  opened := rfl
  made := fun _ hregion => absurd hregion List.not_mem_nil

theorem StacksRight.append {steps rest : List Step} : ∀ {run run' : Run},
    StacksRight (steps ++ rest) run → steps.foldlM Run.next run = .ok run' →
      StacksRight rest run' := by
  induction steps with
  | nil =>
    intro run run' h hrun
    exact (Outcome.ok.inj hrun) ▸ h
  | cons step steps ih =>
    intro run run' h hrun
    rw [List.foldlM_cons] at hrun
    obtain ⟨next, hnext, hrest⟩ := Outcome.bind_eq_ok.mp hrun
    exact ih (h.2.2 next hnext) hrest

/-- The parameter of a region is mapped to a variable while the region is open. -/
def lateMapping : List Step :=
  [.call (.addTuningAction 5 0 "a".toList 42), .event (.enterRegion 5),
    .call (.mapToVariable "<a>".toList (some 7) 1)] ++ [.event (.exitRegion 5)]

/-- The exit event takes a value from the new stack. -/
theorem lateMapping_not_right :
    ¬ StacksRight lateMapping (.start (fun _ => 0) fun _ => 0) := by
  intro hright
  obtain ⟨run, hrun, haborts⟩ : ∃ run, [Step.call (.addTuningAction 5 0 "a".toList 42),
      .event (.enterRegion 5), .call (.mapToVariable "<a>".toList (some 7) 1)].foldlM Run.next
        (.start (fun _ => 0) fun _ => 0) = .ok run ∧
      run.next (.event (.exitRegion 5)) = .aborts := ⟨_, rfl, rfl⟩
  obtain ⟨run', hrun'⟩ := (hright.append hrun).2.1 _ rfl
  rw [haborts] at hrun'
  cases hrun'

/-- Over every interleaving of events and calls, stacks are right just if each exit event
restores from the stacks that its enter event pushed on. -/
theorem stacksRight_iff (variableAt functionValue : ℕ → Word) (steps : List Step)
    (hnested : NestedSteps [] steps) :
    StacksRight steps (.start variableAt functionValue) ↔
      Outcome.StepsMeet Run.Meets Run.next steps (.start variableAt functionValue) :=
  (inv_start variableAt functionValue).right_iff_meets (fun _ => rfl) hnested

theorem lateMapping_not_meets :
    ¬ Outcome.StepsMeet Run.Meets Run.next lateMapping (.start (fun _ => 0) fun _ => 0) :=
  fun hmeet => lateMapping_not_right
    ((stacksRight_iff _ _ lateMapping (by simp [lateMapping, NestedSteps])).mpr hmeet)

theorem not_stacksRight : ¬ ∀ (variableAt functionValue : ℕ → Word) (steps : List Step),
    NestedSteps [] steps → StacksRight steps (.start variableAt functionValue) :=
  fun h => lateMapping_not_right
    (h (fun _ => 0) (fun _ => 0) lateMapping (by simp [lateMapping, NestedSteps]))

end ReadexPtf.Scorep
