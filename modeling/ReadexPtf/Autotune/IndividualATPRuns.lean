import ReadexPtf.Autotune.IndividualATPSearch
import Mathlib

/-! When the individual search over application tuning parameters restricts the parameters of a
domain to their own values: it writes in the order of a vector what it has read in the order of
the addresses. -/
namespace ReadexPtf.Autotune.IndividualATPSearch
open ReadexPtf
variable {Srp V : Type}

def byAddress (tps : List Nat) : List Nat := tps.insertionSort (· ≤ ·)

/-- The parameter whose value is pushed where `tp` is met: the first one with its name. -/
def named (objects : ParameterObjects) (tps : List Nat) (tp : Nat) : Nat :=
  (getTP objects tps (objects.name tp)).getD tp

/-- Every parameter has a value, and read by address the values come in the order in which they
are written. -/
structure InPlace (objects : ParameterObjects) (tps : List Nat) (values : Variant) : Prop where
  complete : ∀ tp ∈ tps, tp ∈ values.keys
  aligned : (byAddress tps).map (fun tp => values.get? (named objects tps tp)) = tps.map values.get?

section Select
variable {objects : ParameterObjects} {tps : List Nat} {values : Variant}

theorem getTP_of_mem (objects : ParameterObjects) {tp : Nat} (h : tp ∈ tps) :
    ∃ first ∈ tps, getTP objects tps (objects.name tp) = some first := by
  have hfound : (getTP objects tps (objects.name tp)).isSome = true :=
    List.find?_isSome.mpr ⟨tp, h, by simp⟩
  obtain ⟨first, hfirst⟩ := Option.isSome_iff_exists.mp hfound
  exact ⟨first, List.mem_of_find?_eq_some hfirst, hfirst⟩

theorem named_mem {tp : Nat} (h : tp ∈ tps) : named objects tps tp ∈ tps := by
  obtain ⟨first, hmem, hfirst⟩ := getTP_of_mem objects h
  rw [named, hfirst]
  exact hmem

/-- Where every parameter has a value, nothing is inserted while the values are read. -/
theorem selectedFrom_complete (hcomplete : ∀ tp ∈ tps, tp ∈ values.keys) (hkeys : KeysIn tps values)
    {rest : List (Nat × Int)} :
    ∀ (fuel : Nat) (done : List (Nat × Int)) (last : Option Nat), rest.length ≤ fuel →
      values.entries = done ++ rest → (∀ e ∈ done, ∃ a ∈ last, e.1 ≤ a) →
      (∀ e ∈ rest, ∀ a ∈ last, a < e.1) →
      selectedFrom objects tps fuel values last =
        rest.map fun e => (values.get? (named objects tps e.1)).getD 0 := by
  induction rest with
  | nil =>
    intro fuel done last _ hentries hdone _
    cases fuel with
    | zero => rfl
    | succ fuel =>
      have hnone : values.entries.find? (fun e => ∀ a ∈ last, a < e.1) = none := by
        rw [hentries, List.append_nil, List.find?_eq_none]
        intro e he hall
        obtain ⟨a, ha, hle⟩ := hdone e he
        exact absurd (of_decide_eq_true hall a ha) (not_lt.mpr hle)
      rw [selectedFrom, hnone]
      rfl
  | cons e rest ih =>
    intro fuel done last hfuel hentries hdone hrest
    cases fuel with
    | zero => simp at hfuel
    | succ fuel =>
      have hfind : values.entries.find? (fun e => ∀ a ∈ last, a < e.1) = some e := by
        rw [hentries, List.find?_append, List.find?_eq_none.mpr, Option.none_or]
        · exact List.find?_cons_of_pos (by simpa using hrest e List.mem_cons_self)
        · intro e' he' hall
          obtain ⟨a, ha, hle⟩ := hdone e' he'
          exact absurd (of_decide_eq_true hall a ha) (not_lt.mpr hle)
      have hmem : e.1 ∈ tps := hkeys e.1 (by
        rw [OrdMap.keys, hentries]
        simp)
      obtain ⟨first, hfirst, hget⟩ := getTP_of_mem objects hmem
      have hnamed : named objects tps e.1 = first := by rw [named, hget]; rfl
      have hsorted := values.sorted
      rw [hentries, List.pairwise_append, List.pairwise_cons] at hsorted
      rw [selectedFrom, hfind]
      simp only [hget]
      rw [OrdMap.insertNew_of_mem (hcomplete first hfirst), List.map_cons, hnamed,
        ih fuel (done ++ [e]) (some e.1) (by simpa using hfuel) (by rw [hentries]; simp)]
      · intro e' he'
        refine ⟨e.1, rfl, ?_⟩
        cases List.mem_append.mp he' with
        | inl hbefore => exact (hsorted.2.2 e' hbefore e List.mem_cons_self).le
        | inr hself => exact (List.mem_singleton.mp hself) ▸ le_rfl
      · intro e' he' a ha
        exact Option.mem_some.mp ha ▸ hsorted.2.1.1 e' he'

theorem keys_eq_byAddress (hdistinct : tps.Nodup) (hcomplete : ∀ tp ∈ tps, tp ∈ values.keys)
    (hkeys : KeysIn tps values) : values.keys = byAddress tps := by
  have hperm : values.keys.Perm (byAddress tps) := by
    refine List.Perm.trans ?_ (List.perm_insertionSort _ tps).symm
    exact (List.perm_ext_iff_of_nodup values.keys_nodup hdistinct).mpr
      fun a => ⟨hkeys a, hcomplete a⟩
  refine List.Perm.eq_of_pairwise (fun a b _ _ => le_antisymm) ?_
    (List.pairwise_insertionSort _ tps) hperm
  exact (List.pairwise_map.mpr values.sorted).imp le_of_lt

theorem selectedValues_complete (hdistinct : tps.Nodup)
    (hcomplete : ∀ tp ∈ tps, tp ∈ values.keys) (hkeys : KeysIn tps values) :
    selectedValues objects tps values =
      (byAddress tps).map fun tp => (values.get? (named objects tps tp)).getD 0 := by
  rw [selectedValues, selectedFrom_complete hcomplete hkeys _ [] none (Nat.le_add_right _ _) rfl
    (by simp) (by simp), ← keys_eq_byAddress hdistinct hcomplete hkeys, OrdMap.keys, List.map_map]
  rfl

/-- The values are written to their own parameters exactly if they are in place. -/
theorem selectedValues_eq_iff (objects : ParameterObjects) (hdistinct : tps.Nodup) (hkeys : KeysIn tps values) :
    (selectedValues objects tps values).map some = tps.map values.get? ∧
      (∀ tp ∈ tps, tp ∈ values.keys) ↔ InPlace objects tps values := by
  have hsome : (∀ tp ∈ tps, tp ∈ values.keys) →
      (selectedValues objects tps values).map some =
        (byAddress tps).map fun tp => values.get? (named objects tps tp) := by
    intro hcomplete
    rw [selectedValues_complete hdistinct hcomplete hkeys, List.map_map]
    refine List.map_congr_left fun tp htp => ?_
    have hmem : tp ∈ tps := (List.perm_insertionSort _ tps).mem_iff.mp htp
    obtain ⟨v, hv⟩ := OrdMap.mem_keys.mp (hcomplete _ (named_mem hmem))
    rw [Function.comp, hv]
    rfl
  constructor
  · exact fun h => ⟨h.2, (hsome h.2).symm.trans h.1⟩
  · exact fun h => ⟨(hsome h.complete).trans h.aligned, h.complete⟩

end Select

section Selection
variable {objects : ParameterObjects} {tps : List Nat}

/-- The values of a scenario are appended to what was selected under its id. -/
theorem get?_pushValues (id : Nat) (vs : List Int) (selection : OrdMap Nat (List Int)) (id' : Nat) :
    ((vs.foldl (fun (selection : OrdMap Nat (List Int)) v =>
        selection.set id ((selection.get? id).getD [] ++ [v])) selection).get? id').getD [] =
      (selection.get? id').getD [] ++ if id' = id then vs else [] := by
  induction vs generalizing selection with
  | nil => simp
  | cons v vs ih =>
    rw [List.foldl_cons, ih, OrdMap.get?_set]
    split_ifs with hid
    · rw [hid, Option.getD_some, List.append_assoc]
      rfl
    · rfl

/-- One round of `select`. -/
def selectScenario (objects : ParameterObjects) (tps : List Nat)
    (selection : OrdMap Nat (List Int)) (e : Nat × Scenario) : Outcome (OrdMap Nat (List Int)) :=
  match e.2.ts with
  | [] => .undefined
  | spec :: _ => .ok ((selectedValues objects tps spec.variant).foldl
      (fun selection v => selection.set e.2.id ((selection.get? e.2.id).getD [] ++ [v])) selection)

theorem select_eq (pools : ScenarioPools) :
    select objects tps pools = pools.csp.entries.foldlM (selectScenario objects tps) .empty := rfl

/-- Scenarios with ids of their own are selected with their own values. -/
theorem select_get? {pools : ScenarioPools} {selection : OrdMap Nat (List Int)}
    (hdistinct : ((pools.createdSince 0).map Scenario.id).Nodup)
    (h : select objects tps pools = .ok selection) :
    ∀ scenario ∈ pools.createdSince 0, ∀ spec rest, scenario.ts = spec :: rest →
      (selection.get? scenario.id).getD [] = selectedValues objects tps spec.variant := by
  have hfold : ∀ (es : List (Nat × Scenario)) (old new : OrdMap Nat (List Int)),
      es.foldlM (selectScenario objects tps) old = .ok new →
      (es.map fun e => e.2.id).Nodup →
      (∀ id, (∀ e ∈ es, e.2.id ≠ id) → (new.get? id).getD [] = (old.get? id).getD []) ∧
      ∀ e ∈ es, ∀ spec rest, e.2.ts = spec :: rest → (new.get? e.2.id).getD [] =
        (old.get? e.2.id).getD [] ++ selectedValues objects tps spec.variant := by
    intro es
    induction es with
    | nil =>
      intro old new h _
      rw [← Outcome.ok.inj h]
      simp
    | cons e es ih =>
      intro old new h hnodup
      rw [List.map_cons, List.nodup_cons] at hnodup
      rw [List.foldlM_cons, selectScenario] at h
      cases hts : e.2.ts with
      | nil => simp [hts] at h
      | cons spec rest =>
        rw [hts, Outcome.ok_bind] at h
        obtain ⟨hothers, hown⟩ := ih _ _ h hnodup.2
        constructor
        · intro id hid
          obtain ⟨hne, hid⟩ := List.forall_mem_cons.mp hid
          rw [hothers id hid, get?_pushValues, if_neg (Ne.symm hne), List.append_nil]
        · intro e' he' spec' rest' hts'
          cases List.mem_cons.mp he' with
          | inl hself =>
            subst hself
            obtain ⟨rfl, rfl⟩ := List.cons.inj (hts.symm.trans hts')
            have hapart : ∀ e'' ∈ es, e''.2.id ≠ e'.2.id := by
              intro e'' he'' heq
              exact hnodup.1 (List.mem_map.mpr ⟨e'', he'', heq⟩)
            rw [hothers _ hapart, get?_pushValues, if_pos rfl]
          | inr hmem =>
            have hne : e'.2.id ≠ e.2.id := by
              intro heq
              exact hnodup.1 (List.mem_map.mpr ⟨e', hmem, heq⟩)
            rw [hown e' hmem spec' rest' hts', get?_pushValues, if_neg hne, List.append_nil]
  intro scenario hscenario spec rest hts
  rw [ScenarioPools.createdSince_zero] at hdistinct hscenario
  rw [List.map_map] at hdistinct
  obtain ⟨e, he, hscenario⟩ := List.mem_map.mp hscenario
  subst hscenario
  rw [select_eq] at h
  rw [(hfold _ _ _ h hdistinct).2 e he spec rest hts]
  rfl

end Selection

section Restrict
variable {tps : List Nat}

/-- The values that are left are written to the parameters from place `k` on. -/
theorem restrict_run (hdistinct : tps.Nodup) {vs : List Int} :
    ∀ (k : Nat) (st : ParameterObjects × List Nat), k + vs.length ≤ tps.length →
      ∃ objects', (vs.zipIdx k).foldlM (restrict tps) st =
          .ok (objects', st.2 ++ (tps.drop k).take vs.length) ∧
        (∀ tp, tp ∉ (tps.drop k).take vs.length →
          objects'.restriction tp = st.1.restriction tp) ∧
        ((tps.drop k).take vs.length).map objects'.restriction =
          vs.map fun v => some ⟨2, [v]⟩ := by
  induction vs with
  | nil => exact fun k st _ => ⟨st.1, by simp, fun _ _ => rfl, by simp⟩
  | cons v vs ih =>
    intro k st hlen
    rw [List.length_cons] at hlen
    have hk : k < tps.length := by omega
    obtain ⟨objects', hrun, hothers, hown⟩ :=
      ih (k + 1) (st.1.setRestriction tps[k] ⟨2, [v]⟩, st.2 ++ [tps[k]]) (by omega)
    have htake : (tps.drop k).take (vs.length + 1) =
        tps[k] :: (tps.drop (k + 1)).take vs.length := by
      rw [List.drop_eq_getElem_cons hk, List.take_succ_cons]
    have hfresh : tps[k] ∉ (tps.drop (k + 1)).take vs.length := by
      have hdrop : (tps[k] :: tps.drop (k + 1)).Nodup := by
        rw [← List.drop_eq_getElem_cons hk]
        exact hdistinct.drop
      exact fun hmem => (List.nodup_cons.mp hdrop).1 (List.mem_of_mem_take hmem)
    rw [List.length_cons, htake]
    refine ⟨objects', ?_, fun tp htp => ?_, ?_⟩
    · rw [List.zipIdx_cons, List.foldlM_cons, restrict, Outcome.elementAt_natCast hk,
        Outcome.ok_bind, Outcome.ok_bind, hrun, List.append_assoc]
      rfl
    · rw [List.mem_cons, not_or] at htp
      rw [hothers tp htp.2]
      exact if_neg htp.1
    · rw [List.map_cons, List.map_cons, hown, hothers _ hfresh]
      exact congrArg (· :: _) (if_pos rfl)

/-- More values than parameters are not written. -/
theorem length_le_of_restrict {vs : List Int} :
    ∀ (k : Nat) (st st' : ParameterObjects × List Nat), k ≤ tps.length →
      (vs.zipIdx k).foldlM (restrict tps) st = .ok st' → k + vs.length ≤ tps.length := by
  induction vs with
  | nil => exact fun k st st' hk _ => hk
  | cons v vs ih =>
    intro k st st' _ h
    rw [List.zipIdx_cons, List.foldlM_cons] at h
    obtain ⟨t, hstep, hrest⟩ := Outcome.bind_eq_ok.mp h
    obtain ⟨tp, htp, -⟩ := Outcome.bind_eq_ok.mp hstep
    obtain ⟨-, hget⟩ := Outcome.elementAt_eq_ok.mp htp
    obtain ⟨hlt, -⟩ := List.getElem?_eq_some_iff.mp hget
    have hk : k < tps.length := by simpa using hlt
    have hle := ih (k + 1) t st' hk hrest
    rw [List.length_cons]
    omega

end Restrict

/-- What `createScenarios` leaves for `searchFinished`. -/
structure Prepared (objects : ParameterObjects) (s : IndividualATPSearch Srp V)
    (pools : ScenarioPools) : Prop where
  objective : s.searchAlgorithm.evaluation.objectiveFunctions ≠ []
  path : s.searchAlgorithm.evaluation.path = .empty
  queued : s.searchAlgorithm.evaluation.scenarioIds = (pools.createdSince 0).map Scenario.id
  ids : ((pools.createdSince 0).map Scenario.id).Nodup
  front : pools.FrontMeets (KeysIn s.tuningParameters)
  distinct : s.tuningParameters.Nodup
  selected : ∀ scenario ∈ pools.createdSince 0, ∀ spec rest, scenario.ts = spec :: rest →
    (s.selection.get? scenario.id).getD [] =
      selectedValues objects s.tuningParameters spec.variant

theorem foldl_addObjectiveFunction (objs : List (Nat → Srp → V)) :
    ∀ search : ExhaustiveATPSearch Srp V,
      objs.foldl ExhaustiveATPSearch.addObjectiveFunction search =
        ⟨search.searchSpaces, { search.evaluation with
          objectiveFunctions := search.evaluation.objectiveFunctions ++ objs }⟩ := by
  induction objs with
  | nil => simp
  | cons obj objs ih =>
    intro search
    rw [List.foldl_cons, ih]
    simp [ExhaustiveATPSearch.addObjectiveFunction, ExhaustiveSearch.addObjectiveFunction]

theorem foldl_addSearchSpace (spaces : List DomainSpace) :
    ∀ search : ExhaustiveATPSearch Srp V,
      spaces.foldl ExhaustiveATPSearch.addSearchSpace search =
        { search with searchSpaces := search.searchSpaces ++ spaces } := by
  induction spaces with
  | nil => simp
  | cons space spaces ih =>
    intro search
    rw [List.foldl_cons, ih]
    simp [ExhaustiveATPSearch.addSearchSpace]

theorem prepared_createScenarios {rts : Bool} {getValidConfigurations : String → List (List Int)}
    {ptfMinObjective : Nat → Srp → V} {dblMax : V} {objects : ParameterObjects}
    {s s' : IndividualATPSearch Srp V} {pools pools' : ScenarioPools}
    (hidle : s.searchAlgorithm.evaluation.scenarioIds = []) (hempty : pools.createdSince 0 = [])
    (h : s.createScenarios rts getValidConfigurations ptfMinObjective dblMax objects pools =
      .ok (s', pools')) : Prepared objects s' pools' := by
  rw [createScenarios] at h
  obtain ⟨space, -, h⟩ := Outcome.bind_eq_ok.mp h
  obtain ⟨created, hcreate, h⟩ := Outcome.bind_eq_ok.mp h
  obtain ⟨selection, hselect, h⟩ := Outcome.bind_eq_ok.mp h
  obtain ⟨hsearch, hpools⟩ := Prod.mk.inj (Outcome.ok.inj h)
  rw [foldl_addObjectiveFunction, foldl_addSearchSpace] at hcreate
  have hall := ExhaustiveATPSearch.createdAll hcreate rfl rfl hidle hempty
  rw [← hsearch, ← hpools]
  exact ⟨hall.objective, hall.path, hall.queued, hall.distinct, hall.front, space.distinct,
    select_get? hall.distinct hselect⟩

section Step
variable [LT V] [DecidableLT V] (sort : Traversal (Nat × V))

/-- The step explores the domain and restricts each of its parameters to the value that the
parameter has in the best scenario. -/
def RestrictsToBest (objects : ParameterObjects) (s : IndividualATPSearch Srp V)
    (pools : ScenarioPools) (srp : Srp) : Prop :=
  ∃ evaluated finished s' objects' best rest,
    s.searchAlgorithm.searchFinished srp = .ok evaluated ∧
    sort.sort (fun a b => a.2 < b.2) evaluated.evaluation.path.entries = best :: rest ∧
    s.searchFinished sort objects srp = .ok (finished, s', objects') ∧
    s'.exploredTuningParameters = s.exploredTuningParameters ++ s.tuningParameters ∧
    ∀ tp ∈ s.tuningParameters, ∃ scenario ∈ pools.createdSince 0, scenario.id = best.1 ∧
      ∃ v, scenario.HasValue tp v ∧ objects'.restriction tp = some ⟨2, [v]⟩

/-- A scenario was evaluated. If there are parameters, one scenario is to be kept, the best one
improves on the domains before, and its values are in place. -/
def BestInPlace (objects : ParameterObjects) (s : IndividualATPSearch Srp V)
    (pools : ScenarioPools) (srp : Srp) : Prop :=
  ∀ evaluated, s.searchAlgorithm.searchFinished srp = .ok evaluated →
    ∃ best rest, sort.sort (fun a b => a.2 < b.2) evaluated.evaluation.path.entries = best :: rest ∧
      (s.tuningParameters ≠ [] → s.individual_keep = 1 ∧
        (s.bestScenario = none ∨ best.2 < s.bestEnergy) ∧
        ∀ scenario ∈ pools.createdSince 0, scenario.id = best.1 → ∀ spec specs,
          scenario.ts = spec :: specs → InPlace objects s.tuningParameters spec.variant)

/-- The verdict that `settle` gives, on the members that it reads. -/
theorem searchFinished_eq (objects : ParameterObjects) {s : IndividualATPSearch Srp V} {srp : Srp}
    {evaluated : ExhaustiveATPSearch Srp V} {best : Nat × V} {rest : List (Nat × V)}
    (hcall : s.searchAlgorithm.searchFinished srp = .ok evaluated)
    (hresults : sort.sort (fun a b => a.2 < b.2) evaluated.evaluation.path.entries = best :: rest) :
    ∃ merged : IndividualATPSearch Srp V, s.searchFinished sort objects srp =
        (merged.settle objects best >>= fun st => .ok
          (decide (st.1.searchStepCount - st.1.tpEliminated = (st.1.searchSpaces.length : Int)),
            st.1, st.2)) ∧
      merged.tuningParameters = s.tuningParameters ∧ merged.selection = s.selection ∧
      merged.exploredTuningParameters = s.exploredTuningParameters ∧
      merged.individual_keep = s.individual_keep ∧ merged.bestScenario = s.bestScenario ∧
      merged.bestEnergy = s.bestEnergy ∧ merged.searchAlgorithm = evaluated := by
  have hlast : Outcome.elementAt (best :: rest) (((best :: rest).length : Int) - 1) =
      .ok (best :: rest)[rest.length] := by
    rw [List.length_cons, Nat.cast_succ, add_sub_cancel_right]
    exact Outcome.elementAt_natCast (Nat.lt_succ_self _)
  rw [searchFinished, hcall, Outcome.ok_bind]
  simp only [hresults, hlast, Outcome.ok_bind]
  exact ⟨_, rfl, rfl, rfl, rfl, rfl, rfl, rfl, rfl⟩

theorem searchFinished_nil {objects : ParameterObjects} {s : IndividualATPSearch Srp V} {srp : Srp}
    {evaluated : ExhaustiveATPSearch Srp V}
    (hcall : s.searchAlgorithm.searchFinished srp = .ok evaluated)
    (hresults : sort.sort (fun a b => a.2 < b.2) evaluated.evaluation.path.entries = []) :
    s.searchFinished sort objects srp = .undefined := by
  rw [searchFinished, hcall, Outcome.ok_bind]
  simp only [hresults]

omit [LT V] [DecidableLT V] in
theorem Prepared.best {objects : ParameterObjects} {s : IndividualATPSearch Srp V}
    {pools : ScenarioPools} (h : Prepared objects s pools) {id : Nat}
    (hid : id ∈ (pools.createdSince 0).map Scenario.id) :
    ∃ scenario ∈ pools.createdSince 0, scenario.id = id ∧ ∃ spec specs,
      scenario.ts = spec :: specs ∧ KeysIn s.tuningParameters spec.variant ∧
      (s.selection.get? id).getD [] = selectedValues objects s.tuningParameters spec.variant ∧
      ∀ other ∈ pools.createdSince 0, other.id = id → other = scenario := by
  obtain ⟨scenario, hscenario, hsame⟩ := List.mem_map.mp hid
  obtain ⟨spec, specs, hts, hkeys⟩ := h.front scenario hscenario
  refine ⟨scenario, hscenario, hsame, spec, specs, hts, hkeys, ?_, fun other hother heq => ?_⟩
  · exact hsame ▸ h.selected scenario hscenario spec specs hts
  · exact List.inj_on_of_nodup_map h.ids hother hscenario (heq.trans hsame.symm)

/-- An improving step that keeps one scenario writes the selected values. -/
theorem settle_keep {objects objects' : ParameterObjects} {s s' : IndividualATPSearch Srp V}
    {best : Nat × V} (hdistinct : s.tuningParameters.Nodup) (hkeep : s.individual_keep = 1)
    (hbetter : s.bestScenario = none ∨ best.2 < s.bestEnergy)
    (h : s.settle objects best = .ok (s', objects')) :
    let vs := (s.selection.get? best.1).getD []
    s'.exploredTuningParameters =
        s.exploredTuningParameters ++ s.tuningParameters.take vs.length ∧
      (s.tuningParameters.take vs.length).map objects'.restriction = vs.map fun v => some ⟨2, [v]⟩ := by
  intro vs
  rw [settle, if_pos hbetter, if_pos hkeep] at h
  obtain ⟨st, hrun, h⟩ := Outcome.bind_eq_ok.mp h
  have hlen := length_le_of_restrict 0 _ st (Nat.zero_le _) hrun
  obtain ⟨objects'', hrun', -, hown⟩ := restrict_run hdistinct 0
    (objects, s.exploredTuningParameters) hlen
  obtain rfl : st = _ := Outcome.ok.inj (hrun.symm.trans hrun')
  obtain ⟨hs', hobjects⟩ := Prod.mk.inj (Outcome.ok.inj h)
  rw [← hs', ← hobjects]
  exact ⟨rfl, hown⟩

theorem settle_keep_returns (objects : ParameterObjects) {s : IndividualATPSearch Srp V}
    {best : Nat × V} (hdistinct : s.tuningParameters.Nodup)
    (hlen : ((s.selection.get? best.1).getD []).length ≤ s.tuningParameters.length) :
    ∃ s' objects', s.settle objects best = .ok (s', objects') := by
  rw [settle]
  split_ifs
  · obtain ⟨objects', hrun, -⟩ := restrict_run hdistinct 0 (objects, s.exploredTuningParameters)
      (by simpa using hlen)
    rw [hrun, Outcome.ok_bind]
    exact ⟨_, _, rfl⟩
  · exact ⟨_, _, rfl⟩
  · exact ⟨_, _, rfl⟩

/-- Without an improvement, or where more than one scenario is to be kept, nothing is explored. -/
theorem settle_other {objects objects' : ParameterObjects} {s s' : IndividualATPSearch Srp V}
    {best : Nat × V}
    (hother : ¬ (s.individual_keep = 1 ∧ (s.bestScenario = none ∨ best.2 < s.bestEnergy)))
    (h : s.settle objects best = .ok (s', objects')) :
    s'.exploredTuningParameters = s.exploredTuningParameters := by
  rw [settle] at h
  split_ifs at h with hbetter hkeep
  · exact absurd ⟨hkeep, hbetter⟩ hother
  · rw [← (Prod.mk.inj (Outcome.ok.inj h)).1]
  · rw [← (Prod.mk.inj (Outcome.ok.inj h)).1]

/-- The restriction to one value. -/
def single (v : Option Int) : Option Restriction := v.map fun v => ⟨2, [v]⟩

omit [LT V] [DecidableLT V] in
theorem single_injective : Function.Injective single := by
  intro v w h
  cases v <;> cases w <;> simp_all [single]

omit [LT V] [DecidableLT V] in
theorem map_single_some (vs : List Int) :
    (vs.map some).map single = vs.map fun v => some ⟨2, [v]⟩ := by
  rw [List.map_map]
  rfl

theorem restrictsToBest_iff {objects : ParameterObjects} {s : IndividualATPSearch Srp V}
    {pools : ScenarioPools} (h : Prepared objects s pools) (srp : Srp) :
    RestrictsToBest sort objects s pools srp ↔ BestInPlace sort objects s pools srp := by
  obtain ⟨evaluated, hcall, -, hkeys⟩ :=
    ExhaustiveATPSearch.searchFinished_evaluates srp h.objective
  cases hresults : sort.sort (fun a b => a.2 < b.2) evaluated.evaluation.path.entries with
  | nil =>
    constructor
    · rintro ⟨evaluated', -, -, -, best, rest, hcall', hresults', -⟩
      obtain rfl : evaluated = evaluated' := Outcome.ok.inj (hcall.symm.trans hcall')
      exact absurd (hresults.symm.trans hresults') (by simp)
    · intro hplace
      obtain ⟨best, rest, hresults', -⟩ := hplace evaluated hcall
      exact absurd (hresults.symm.trans hresults') (by simp)
  | cons best rest =>
    have hid : best.1 ∈ (pools.createdSince 0).map Scenario.id := by
      have hperm := sort.sort_perm (fun a b => a.2 < b.2) evaluated.evaluation.path.entries
      have hmem : best.1 ∈ evaluated.evaluation.path.keys :=
        List.mem_map_of_mem (hperm.mem_iff.mp (hresults ▸ List.mem_cons_self))
      have hqueued := (hkeys _).mp hmem
      rwa [h.path, h.queued, OrdMap.keys_empty, List.mem_nil_iff, false_or] at hqueued
    obtain ⟨scenario, hscenario, hsame, spec, specs, hts, hin, hselected, honly⟩ := h.best hid
    obtain ⟨merged, heq, htps, hselection, hexplored, hkeep, hbest, henergy, -⟩ :=
      searchFinished_eq sort objects hcall hresults
    have hdistinct : merged.tuningParameters.Nodup := htps ▸ h.distinct
    have hvalues := selectedValues_eq_iff objects h.distinct hin
    constructor
    · rintro ⟨evaluated', finished, s', objects', best', rest', hcall', hresults', hrun, hall,
        hrestricted⟩ evaluated'' hcall''
      obtain rfl : evaluated = evaluated' := Outcome.ok.inj (hcall.symm.trans hcall')
      obtain rfl : evaluated = evaluated'' := Outcome.ok.inj (hcall.symm.trans hcall'')
      obtain ⟨rfl, rfl⟩ := List.cons.inj (hresults.symm.trans hresults')
      refine ⟨best, rest, hresults, fun hne => ?_⟩
      rw [heq] at hrun
      obtain ⟨st, hsettle, hrun⟩ := Outcome.bind_eq_ok.mp hrun
      obtain ⟨-, hstate⟩ := Prod.mk.inj (Outcome.ok.inj hrun)
      obtain ⟨hs', hobjects⟩ := Prod.mk.inj hstate
      by_cases hboth : s.individual_keep = 1 ∧ (s.bestScenario = none ∨ best.2 < s.bestEnergy)
      · refine ⟨hboth.1, hboth.2, fun other hother hotherId spec' specs' hts' => ?_⟩
        obtain rfl := honly other hother hotherId
        obtain ⟨rfl, rfl⟩ := List.cons.inj (hts.symm.trans hts')
        obtain ⟨htaken, hwritten⟩ := settle_keep hdistinct (hkeep.trans hboth.1)
          (hbest ▸ henergy ▸ hboth.2) hsettle
        rw [hselection, hselected, htps] at htaken hwritten
        rw [hs', hall, hexplored] at htaken
        have hwhole := List.append_cancel_left htaken
        rw [← hwhole, hobjects, ← map_single_some] at hwritten
        have hown : ∀ tp ∈ s.tuningParameters, ∃ v, spec.variant.get? tp = some v ∧
            objects'.restriction tp = some ⟨2, [v]⟩ := by
          intro tp htp
          obtain ⟨found, hfound, hfoundId, v, ⟨front, others, hfront, hv⟩, hr⟩ := hrestricted tp htp
          rw [honly found hfound hfoundId] at hfront
          have hspec : spec = front := (List.cons.inj (hts.symm.trans hfront)).1
          exact ⟨v, hspec ▸ hv, hr⟩
        refine hvalues.mp ⟨List.map_injective_iff.mpr single_injective ?_, fun tp htp => ?_⟩
        · rw [← hwritten, List.map_map]
          refine List.map_congr_left fun tp htp => ?_
          obtain ⟨v, hv, hr⟩ := hown tp htp
          rw [hr, Function.comp, hv]
          rfl
        · obtain ⟨v, hv, -⟩ := hown tp htp
          exact OrdMap.mem_keys.mpr ⟨v, hv⟩
      · have hnothing := settle_other (by rw [hkeep, hbest, henergy]; exact hboth) hsettle
        rw [hs', hall, hexplored] at hnothing
        exact absurd (List.self_eq_append_right.mp hnothing.symm) hne
    · intro hplace
      obtain ⟨best', rest', hresults', hcond⟩ := hplace evaluated hcall
      obtain ⟨rfl, rfl⟩ := List.cons.inj (hresults.symm.trans hresults')
      have hplaced : s.tuningParameters ≠ [] →
          (selectedValues objects s.tuningParameters spec.variant).map some =
            s.tuningParameters.map spec.variant.get? ∧
          ∀ tp ∈ s.tuningParameters, tp ∈ spec.variant.keys := by
        intro hne
        exact hvalues.mpr ((hcond hne).2.2 scenario hscenario hsame spec specs hts)
      have hnone : s.tuningParameters = [] →
          selectedValues objects s.tuningParameters spec.variant = [] := by
        intro hnil
        rw [selectedValues_complete h.distinct (by simp [hnil]) hin, hnil]
        rfl
      have hlen : (selectedValues objects s.tuningParameters spec.variant).length =
          s.tuningParameters.length := by
        by_cases hnil : s.tuningParameters = []
        · rw [hnone hnil, hnil]
          rfl
        · have hsame := congrArg List.length (hplaced hnil).1
          rwa [List.length_map, List.length_map] at hsame
      obtain ⟨s', objects', hsettle⟩ := settle_keep_returns objects hdistinct
        (by rw [hselection, hselected, htps, hlen])
      rw [hsettle, Outcome.ok_bind] at heq
      by_cases hboth : s.individual_keep = 1 ∧ (s.bestScenario = none ∨ best.2 < s.bestEnergy)
      · obtain ⟨htaken, hwritten⟩ := settle_keep hdistinct (hkeep.trans hboth.1)
          (hbest ▸ henergy ▸ hboth.2) hsettle
        rw [hselection, hselected, htps, hlen, List.take_length] at htaken hwritten
        refine ⟨evaluated, _, s', objects', best, rest, hcall, hresults, heq, hexplored ▸ htaken,
          fun tp htp => ?_⟩
        obtain ⟨hget, hcomplete⟩ := hplaced (List.ne_nil_of_mem htp)
        rw [← map_single_some, hget, List.map_map] at hwritten
        obtain ⟨v, hv⟩ := OrdMap.mem_keys.mp (hcomplete tp htp)
        have hown := List.map_inj_left.mp hwritten tp htp
        rw [Function.comp, hv] at hown
        exact ⟨scenario, hscenario, hsame, v, ⟨spec, specs, hts, hv⟩, hown⟩
      · have hnil : s.tuningParameters = [] := by
          by_contra hne
          exact hboth ⟨(hcond hne).1, (hcond hne).2.1⟩
        have hnothing := settle_other (by rw [hkeep, hbest, henergy]; exact hboth) hsettle
        refine ⟨evaluated, _, s', objects', best, rest, hcall, hresults, heq, ?_, by simp [hnil]⟩
        rw [hnothing, hexplored, hnil, List.append_nil]

end Step

section Run
variable [LT V] [DecidableLT V] (sort : Traversal (Nat × V))
variable (rts : Bool) (getValidConfigurations : String → List (List Int))
variable (ptfMinObjective : Nat → Srp → V) (dblMax : V)

/-- A search object, the parameters and the pools. -/
abbrev State (Srp V : Type) := IndividualATPSearch Srp V × ParameterObjects × ScenarioPools

/-- One domain. The created pool is handed over to the experiments before the next. -/
def nextStep (st : State Srp V) (r : IndividualSearch.Round Srp) : Outcome (State Srp V) := do
  let (search, pools) ← st.1.createScenarios rts getValidConfigurations ptfMinObjective dblMax
    st.2.1 (st.2.2.elsewhere r.made fun _ => false)
  let (_, search, objects) ← search.searchFinished sort st.2.1 r.srp
  .ok (search, objects, pools)

/-- In every step whose scenarios are created, `p` holds of what `searchFinished` finds. -/
def EveryStep (p : ParameterObjects → IndividualATPSearch Srp V → ScenarioPools → Srp → Prop)
    (rs : List (IndividualSearch.Round Srp)) (st : State Srp V) : Prop :=
  Outcome.StepsMeet (fun st r => ∀ search pools,
    st.1.createScenarios rts getValidConfigurations ptfMinObjective dblMax st.2.1
      (st.2.2.elsewhere r.made fun _ => false) = .ok (search, pools) → p st.2.1 search pools r.srp)
    (nextStep sort rts getValidConfigurations ptfMinObjective dblMax) rs st

/-- A new search over some domains that keeps `k` scenarios. -/
def started (unset : V) (k : Int) (objs : List (Nat → Srp → V)) (spaces : List Domain) :
    IndividualATPSearch Srp V :=
  spaces.foldl addSearchSpace (objs.foldl addObjectiveFunction (initialized dblMax unset k))

variable {rts getValidConfigurations ptfMinObjective dblMax}

theorem searchAlgorithm_settle {objects objects' : ParameterObjects}
    {s s' : IndividualATPSearch Srp V} {best : Nat × V}
    (h : s.settle objects best = .ok (s', objects')) : s'.searchAlgorithm = s.searchAlgorithm := by
  rw [settle] at h
  split_ifs at h
  · obtain ⟨st, -, h⟩ := Outcome.bind_eq_ok.mp h
    rw [← (Prod.mk.inj (Outcome.ok.inj h)).1]
  · rw [← (Prod.mk.inj (Outcome.ok.inj h)).1]
  · rw [← (Prod.mk.inj (Outcome.ok.inj h)).1]

/-- Nothing is waiting after a step. -/
theorem idle_nextStep {st st' : State Srp V} {r : IndividualSearch.Round Srp}
    (hidle : st.1.searchAlgorithm.evaluation.scenarioIds = [])
    (h : nextStep sort rts getValidConfigurations ptfMinObjective dblMax st r = .ok st') :
    st'.1.searchAlgorithm.evaluation.scenarioIds = [] := by
  obtain ⟨⟨search, pools⟩, hcreate, h⟩ := Outcome.bind_eq_ok.mp h
  obtain ⟨⟨finished, search', objects⟩, hfinish, h⟩ := Outcome.bind_eq_ok.mp h
  have hprepared := prepared_createScenarios hidle
    (ScenarioPools.createdSince_elsewhere st.2.2 r.made 0) hcreate
  obtain ⟨evaluated, hcall, hdone, -⟩ :=
    ExhaustiveATPSearch.searchFinished_evaluates r.srp hprepared.objective
  rw [← Outcome.ok.inj h]
  dsimp only at hfinish hcall ⊢
  cases hresults : sort.sort (fun a b => a.2 < b.2) evaluated.evaluation.path.entries with
  | nil =>
    rw [searchFinished_nil sort hcall hresults] at hfinish
    cases hfinish
  | cons best rest =>
    obtain ⟨merged, heq, -, -, -, -, -, -, halgorithm⟩ :=
      searchFinished_eq sort st.2.1 hcall hresults
    rw [heq] at hfinish
    obtain ⟨t, hsettle, hfinish⟩ := Outcome.bind_eq_ok.mp hfinish
    obtain ⟨-, hstate⟩ := Prod.mk.inj (Outcome.ok.inj hfinish)
    rw [← (Prod.mk.inj hstate).1, searchAlgorithm_settle hsettle, halgorithm, hdone]

omit [LT V] [DecidableLT V] in
theorem started_idle (unset : V) (k : Int) (objs : List (Nat → Srp → V)) (spaces : List Domain) :
    (started dblMax unset k objs spaces).searchAlgorithm.evaluation.scenarioIds = [] := by
  have hobjs : ∀ s : IndividualATPSearch Srp V,
      (objs.foldl addObjectiveFunction s).searchAlgorithm = s.searchAlgorithm := by
    induction objs with
    | nil => exact fun s => rfl
    | cons obj objs ih => exact fun s => ih (s.addObjectiveFunction obj)
  have hspaces : ∀ s : IndividualATPSearch Srp V,
      (spaces.foldl addSearchSpace s).searchAlgorithm = s.searchAlgorithm := by
    induction spaces with
    | nil => exact fun s => rfl
    | cons space spaces ih => exact fun s => ih (s.addSearchSpace space)
  rw [started, hspaces, hobjs]
  rfl

/-- Wherever the parameters lie, every step of a search restricts them to the values of its best
scenario exactly if, in every step, these values are in place. -/
theorem everyStep_restrictsToBest_iff (unset : V) (k : Int) (objs : List (Nat → Srp → V))
    (spaces : List Domain) (objects : ParameterObjects) (pools : ScenarioPools)
    (rs : List (IndividualSearch.Round Srp)) :
    EveryStep sort rts getValidConfigurations ptfMinObjective dblMax (RestrictsToBest sort) rs
        (started dblMax unset k objs spaces, objects, pools) ↔
      EveryStep sort rts getValidConfigurations ptfMinObjective dblMax (BestInPlace sort) rs
        (started dblMax unset k objs spaces, objects, pools) := by
  refine Outcome.StepsMeet.congr (fun st => st.1.searchAlgorithm.evaluation.scenarioIds = [])
    (fun st r st' h _ hstep => idle_nextStep sort h hstep) (fun st r h => ?_)
    (started_idle unset k objs spaces)
  refine forall₃_congr fun search pools' hcreate => ?_
  exact restrictsToBest_iff sort (prepared_createScenarios h
    (ScenarioPools.createdSince_elsewhere st.2.2 r.made 0) hcreate) r.srp

/-- Two parameters, the first one at the higher address: each is restricted to the value of the
other one. -/
theorem not_everyStep_restrictsToBest_swapped :
    ¬ EveryStep .inserted false (fun _ => [[10, 20]]) (fun _ (_ : Unit) => (0 : Int)) 0
      (RestrictsToBest .inserted) [⟨0, ()⟩]
      (started 0 0 1 [] [⟨⟨"d", ["main"], [], [1, 0]⟩, by decide⟩],
        ⟨fun tp => if tp = 0 then "a" else "b", fun _ => none⟩, .empty) := by
  intro h
  obtain ⟨evaluated, finished, s', objects', best, rest, -, -, hrun, -, hrestricted⟩ := h.1 _ _ rfl
  obtain ⟨scenario, hscenario, -, v, ⟨spec, specs, hts, hv⟩, hr⟩ := hrestricted 1 (by decide)
  have hobjects : objects'.restriction 1 = some ⟨2, [20]⟩ := by
    rw [← (Prod.mk.inj (Prod.mk.inj (Outcome.ok.inj hrun)).2).2]
    rfl
  obtain rfl : scenario = ⟨0, [listSpecification false (.ofList [(0, 20), (1, 10)]) ["main"]]⟩ :=
    List.mem_singleton.mp hscenario
  have hspec := (List.cons.inj hts).1
  rw [← hspec] at hv
  have hvalue : v = 10 := (Option.some.inj hv).symm
  rw [hobjects, hvalue] at hr
  revert hr
  decide

end Run
end ReadexPtf.Autotune.IndividualATPSearch
