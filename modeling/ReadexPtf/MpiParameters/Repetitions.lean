import ReadexPtf.MpiParameters.Preparation
import Mathlib

/-! Which scenarios are skipped, and whose results they get: a command is known by its check
sum, and the first scenario with a check sum stands for all the later ones. -/
namespace ReadexPtf.MpiParameters
open ReadexPtf.Agents Frontend Autotune
variable {V : Type} {plugin : MPIParametersPlugin (V := V)}
  {result : Scenario → String → MetaProperty V}

section Firsts

def MPIParametersPlugin.commandSum (plugin : MPIParametersPlugin (V := V))
    (scenario : Scenario) : ℤ :=
  checkSum (plugin.launchCommand scenario)

def MPIParametersPlugin.firstWith (plugin : MPIParametersPlugin (V := V)) (seen : List Scenario)
    (auxVal : ℤ) : Option Scenario :=
  seen.find? fun scenario => plugin.commandSum scenario = auxVal

theorem firstWith_append (seen : List Scenario) (scenario : Scenario) (auxVal : ℤ) :
    plugin.firstWith (seen ++ [scenario]) auxVal =
      (plugin.firstWith seen auxVal).or
        (if auxVal = plugin.commandSum scenario then some scenario else none) := by
  rw [MPIParametersPlugin.firstWith, List.find?_append, List.find?_singleton]
  by_cases hsum : plugin.commandSum scenario = auxVal
  · rw [if_pos (decide_eq_true hsum), if_pos hsum.symm]
    rfl
  · rw [if_neg (by simpa using hsum), if_neg (Ne.symm hsum)]
    rfl

theorem firstWith_some {seen : List Scenario} {auxVal : ℤ} {first : Scenario}
    (h : plugin.firstWith seen auxVal = some first) :
    first ∈ seen ∧ plugin.commandSum first = auxVal :=
  ⟨List.mem_of_find?_eq_some h, by simpa using List.find?_some h⟩

/-- A scenario that was seen is the first with its check sum, or another one is. -/
theorem firstWith_of_mem {seen : List Scenario} {scenario : Scenario} (h : scenario ∈ seen) :
    ∃ first, plugin.firstWith seen (plugin.commandSum scenario) = some first := by
  cases hfirst : plugin.firstWith seen (plugin.commandSum scenario) with
  | some first => exact ⟨first, rfl⟩
  | none => exact absurd (List.find?_eq_none.mp hfirst scenario h) (by simp)

/-- Later scenarios do not change which one is the first. -/
theorem firstWith_append_of_mem {seen : List Scenario} {scenario : Scenario}
    (h : scenario ∈ seen) (next : Scenario) :
    plugin.firstWith (seen ++ [next]) (plugin.commandSum scenario) =
      plugin.firstWith seen (plugin.commandSum scenario) := by
  obtain ⟨first, hfirst⟩ : ∃ first, plugin.firstWith seen (plugin.commandSum scenario) =
    some first := firstWith_of_mem h
  rw [firstWith_append, hfirst, Option.some_or]

end Firsts

section Progress

/-- The one result of a scenario. Those of `compared` are skipped unless they are the first. -/
structure HasResult (plugin : MPIParametersPlugin (V := V))
    (result : Scenario → String → MetaProperty V) (compared seen : List Scenario)
    (srp : ScenarioResultsPool V) (scenario : Scenario) : Prop where
  own : scenario ∉ compared ∨
      plugin.firstWith seen (plugin.commandSum scenario) = some scenario →
    srp.get? scenario.id = some [result scenario (plugin.launchCommand scenario)]
  copied : scenario ∈ compared → ∀ first,
    plugin.firstWith seen (plugin.commandSum scenario) = some first → first ≠ scenario →
    ∃ copy, copyResult plugin (result first (plugin.launchCommand first)) scenario = .ok copy ∧
      srp.get? scenario.id = some [copy]

structure Progress (plugin : MPIParametersPlugin (V := V))
    (result : Scenario → String → MetaProperty V) (compared seen : List Scenario)
    (books : Books V) : Prop where
  subset : compared ⊆ seen
  sums : ∀ auxVal, books.checkSumVector.get? auxVal =
    (plugin.firstWith seen auxVal).map Scenario.id
  results : ∀ scenario ∈ seen, HasResult plugin result compared seen books.srp scenario
  fresh : ∀ id : ℤ, (∀ scenario ∈ seen, (scenario.id : ℤ) ≠ id) → books.srp.get? id = none

theorem progress_start : Progress plugin result [] [] Books.start where
  subset := List.Subset.refl _
  sums := fun _ => rfl
  results := fun _ h => absurd h List.not_mem_nil
  fresh := fun _ _ => rfl

theorem Progress.frontResult {compared seen : List Scenario} {books : Books V}
    (h : Progress plugin result compared seen books) {auxVal : ℤ} {first : Scenario}
    (hfirst : plugin.firstWith seen auxVal = some first) :
    frontResult books.srp first.id =
      .ok (result first (plugin.launchCommand first)) := by
  obtain ⟨hmem, hsum⟩ := firstWith_some hfirst
  exact frontResult_eq ((h.results first hmem).own (.inr (by rw [hsum, hfirst])))

/-- A scenario that comes next gets a result, and the others keep theirs. -/
theorem Progress.push {compared seen : List Scenario} {books : Books V}
    (h : Progress plugin result compared seen books) {scenario : Scenario}
    (hnew : ∀ earlier ∈ seen, earlier.id ≠ scenario.id) {fsp : ScenarioPool}
    {checkSumVector : OrdMap ℤ ℕ} {property : MetaProperty V} {compared' : List Scenario}
    (hcompared : compared' = compared ∨ compared' = compared ++ [scenario])
    (hsums : ∀ auxVal, checkSumVector.get? auxVal =
      (plugin.firstWith (seen ++ [scenario]) auxVal).map Scenario.id)
    (hresult : HasResult plugin result compared' (seen ++ [scenario])
      (books.srp.set scenario.id [property]) scenario) :
    Progress plugin result compared' (seen ++ [scenario])
      ⟨fsp, books.srp.set scenario.id [property], checkSumVector⟩ where
  subset := by
    cases hcompared with
    | inl heq => rw [heq]; exact fun _ hs => List.mem_append_left _ (h.subset hs)
    | inr heq =>
      rw [heq]
      exact List.append_subset.mpr ⟨fun _ hs => List.mem_append_left _ (h.subset hs),
        fun _ hs => List.mem_append_right _ hs⟩
  sums := hsums
  results := by
    intro earlier hearlier
    cases List.mem_append.mp hearlier with
    | inr hself =>
      rw [List.mem_singleton.mp hself]
      exact hresult
    | inl hmem =>
      have hid : earlier.id ≠ scenario.id := hnew earlier hmem
      have hne : earlier ≠ scenario := fun heq => hid (congrArg Scenario.id heq)
      have hiff : earlier ∈ compared' ↔ earlier ∈ compared := by
        cases hcompared with
        | inl heq => rw [heq]
        | inr heq => rw [heq, List.mem_append, List.mem_singleton, or_iff_left hne]
      have hsrp : (books.srp.set scenario.id [property]).get? earlier.id =
          books.srp.get? earlier.id :=
        OrdMap.get?_set_ne _ _ (by exact_mod_cast hid)
      have hold := h.results earlier hmem
      constructor
      · rw [hiff, firstWith_append_of_mem hmem, hsrp]
        exact hold.own
      · rw [hiff, firstWith_append_of_mem hmem, hsrp]
        exact hold.copied
  fresh := by
    intro id hid
    obtain ⟨hseen, hself⟩ : (∀ s ∈ seen, (s.id : ℤ) ≠ id) ∧ (scenario.id : ℤ) ≠ id :=
      ⟨fun s hs => hid s (List.mem_append_left _ hs),
        hid scenario (List.mem_append_right _ List.mem_cons_self)⟩
    rw [OrdMap.get?_set_ne _ _ hself.symm]
    exact h.fresh id hseen

end Progress

section Serve

/-- What the search creates: one specification, of values that the plugin knows. -/
structure Specified (plugin : MPIParametersPlugin (V := V)) (scenario : Scenario) : Prop where
  one : ∃ spec, scenario.ts = [spec] ∧ ∀ it ∈ spec.variant.entries, plugin.Valued it

/-- No parameter is dropped from the scenario. -/
def MPIParametersPlugin.Keeps (plugin : MPIParametersPlugin (V := V)) (scenario : Scenario) :
    Prop :=
  ∀ spec ∈ scenario.ts, ¬ plugin.Deletes spec.variant

/-- The command of a scenario is the one it is started with. -/
theorem commandOf_scenario {scenario : Scenario} (h : Specified plugin scenario) :
    ∃ values, frontValues scenario = .ok values ∧ ∀ prepared,
      commandOf plugin values = .ok prepared ↔
        (plugin.Keeps scenario ∧ FitsInt (plugin.commandSum scenario)) ∧
          prepared = (plugin.launchCommand scenario, plugin.commandSum scenario) := by
  obtain ⟨spec, hspec, hvalued⟩ := h.one
  refine ⟨spec.variant, by rw [frontValues, hspec], ?_⟩
  rintro ⟨command, auxVal⟩
  have hlaunch : plugin.launchCommand scenario =
      spec.variant.entries.foldl (fun command it => command ++ plugin.argument it) "" := by
    rw [MPIParametersPlugin.launchCommand, hspec]
  rw [commandOf_eq_ok hvalued, MPIParametersPlugin.Keeps, hspec, List.forall_mem_singleton,
    MPIParametersPlugin.commandSum, hlaunch, Prod.mk.injEq]
  constructor
  · rintro ⟨hkeeps, rfl, hfits, rfl⟩
    exact ⟨⟨hkeeps, hfits⟩, rfl, rfl⟩
  · rintro ⟨⟨hkeeps, hfits⟩, rfl, rfl⟩
    exact ⟨hkeeps, rfl, hfits, rfl⟩

/-- Results of experiments, which may depend on the command the application is started with. -/
structure Experiments (plugin : MPIParametersPlugin (V := V)) where
  result : Scenario → String → MetaProperty V
  measured : ∀ scenario command, Measured plugin scenario (result scenario command)

variable {experiments : Experiments plugin} {compared seen : List Scenario} {books : Books V}
  {scenario : Scenario}

/-- The first result of a scenario is its only one. -/
theorem Progress.pushResult (h : Progress plugin experiments.result compared seen books)
    (hnew : ∀ earlier ∈ seen, earlier.id ≠ scenario.id) {property : MetaProperty V}
    (hnamed : property.addInfo.get? "ScenarioID" = some (idText scenario)) :
    pushResult books.srp property = .ok (books.srp.set scenario.id [property]) := by
  have hnone : books.srp.get? scenario.id = none :=
    h.fresh scenario.id fun earlier hearlier => by exact_mod_cast hnew earlier hearlier
  rw [pushResult_eq hnamed, hnone]
  rfl

theorem execute_eq (hspecified : Specified plugin scenario) (command : String)
    (h : Progress plugin experiments.result compared seen books)
    (hnew : ∀ earlier ∈ seen, earlier.id ≠ scenario.id) (checkSumVector : OrdMap ℤ ℕ) :
    { books with checkSumVector := checkSumVector }.execute experiments.result scenario command =
      .ok ⟨books.fsp.push scenario,
        books.srp.set scenario.id [experiments.result scenario command], checkSumVector⟩ := by
  obtain ⟨spec, hspec, -⟩ := hspecified.one
  rw [Books.execute, hspec, if_neg (by simp)]
  dsimp only
  rw [h.pushResult hnew (experiments.measured scenario command).named]
  rfl

/-- The sums where the command of a scenario was seen before. -/
theorem Progress.sums_seen (h : Progress plugin experiments.result compared seen books)
    {first : Scenario} (hfirst : plugin.firstWith seen (plugin.commandSum scenario) = some first)
    (auxVal : ℤ) : books.checkSumVector.get? auxVal =
      (plugin.firstWith (seen ++ [scenario]) auxVal).map Scenario.id := by
  rw [h.sums, firstWith_append]
  by_cases hsum : auxVal = plugin.commandSum scenario
  · rw [hsum, hfirst, Option.some_or]
  · rw [if_neg hsum, Option.or_none]

theorem serve_ok (hspecified : Specified plugin scenario)
    (hkeeps : plugin.Keeps scenario ∧ FitsInt (plugin.commandSum scenario))
    (h : Progress plugin experiments.result compared seen books)
    (hnew : ∀ earlier ∈ seen, earlier.id ≠ scenario.id) (last : Bool) :
    ∃ books', books.serve plugin experiments.result scenario last = .ok books' ∧
      Progress plugin experiments.result (if last then compared else compared ++ [scenario])
        (seen ++ [scenario]) books' := by
  obtain ⟨values, hvalues, hcommand⟩ := commandOf_scenario hspecified
  rw [Books.serve, hvalues, Outcome.ok_bind, (hcommand _).mpr ⟨hkeeps, rfl⟩, Outcome.ok_bind,
    Books.serveCommand, h.sums]
  dsimp only
  have hnotin : scenario ∉ compared := fun hmem => hnew scenario (h.subset hmem) rfl
  have hcompared : (if last then compared else compared ++ [scenario]) = compared ∨
      (if last then compared else compared ++ [scenario]) = compared ++ [scenario] := by
    cases last
    · exact .inr rfl
    · exact .inl rfl
  cases hfirst : plugin.firstWith seen (plugin.commandSum scenario) with
  | none =>
    have hself : plugin.firstWith (seen ++ [scenario]) (plugin.commandSum scenario) =
        some scenario := by
      rw [firstWith_append, hfirst, Option.none_or, if_pos rfl]
    refine ⟨_, execute_eq hspecified _ h hnew _, h.push hnew hcompared ?_ ⟨?_, ?_⟩⟩
    · intro auxVal
      rw [OrdMap.get?_insertNew, h.sums, firstWith_append, Option.map_or]
      split_ifs <;> rfl
    · exact fun _ => OrdMap.get?_set_self _ _ _
    · intro _ first hfirst' hne
      exact absurd (Option.some.inj (hfirst'.symm.trans hself)) hne
  | some first =>
    have hstill : plugin.firstWith (seen ++ [scenario]) (plugin.commandSum scenario) =
        some first := by
      rw [firstWith_append, hfirst, Option.some_or]
    have hne : first ≠ scenario := fun heq =>
      hnew first (firstWith_some hfirst).1 (congrArg Scenario.id heq)
    cases last with
    | true =>
      refine ⟨_, execute_eq hspecified _ h hnew books.checkSumVector,
        h.push hnew hcompared (h.sums_seen hfirst) ⟨?_, ?_⟩⟩
      · exact fun _ => OrdMap.get?_set_self _ _ _
      · exact fun hmem => absurd hmem hnotin
    | false =>
      obtain ⟨copy, hcopy, -, hnamed⟩ := copyResult_returns
        (experiments.measured first (plugin.launchCommand first)) scenario
      refine ⟨⟨books.fsp.push scenario, books.srp.set scenario.id [copy], books.checkSumVector⟩,
        ?_, h.push hnew hcompared (h.sums_seen hfirst) ⟨?_, ?_⟩⟩
      · simp only [Option.map_some, Bool.false_eq_true, if_false]
        rw [Books.copy, h.frontResult hfirst, Outcome.ok_bind, hcopy, Outcome.ok_bind,
          h.pushResult hnew hnamed]
        rfl
      · intro hown
        exfalso
        cases hown with
        | inl hnot => exact hnot (List.mem_append_right _ List.mem_cons_self)
        | inr hself => exact hne (Option.some.inj (hstill.symm.trans hself))
      · intro _ first' hfirst' _
        have heq : first = first' := Option.some.inj (hstill.symm.trans hfirst')
        exact ⟨copy, heq ▸ hcopy, OrdMap.get?_set_self _ _ _⟩

end Serve

section Search

/-- What the search creates, round by round; a scenario gets an id of its own. -/
structure Created (plugin : MPIParametersPlugin (V := V)) where
  rounds : List ScenarioPool
  ids_nodup : ((rounds.flatMap ScenarioPool.contents).map Scenario.id).Nodup
  specified : ∀ scenario ∈ rounds.flatMap ScenarioPool.contents, Specified plugin scenario

def Created.scenarios (created : Created plugin) : List Scenario :=
  created.rounds.flatMap ScenarioPool.contents

/-- The last scenario of a round is run in any case. -/
def Created.compared (created : Created plugin) : List Scenario :=
  created.rounds.flatMap fun round => round.contents.dropLast

/-- The command of the scenario is built, and its check sum is an `int`. -/
def MPIParametersPlugin.Sums (plugin : MPIParametersPlugin (V := V)) (scenario : Scenario) :
    Prop :=
  plugin.Keeps scenario ∧ FitsInt (plugin.commandSum scenario)

variable {experiments : Experiments plugin}

theorem serve_sums {books books' : Books V} {scenario : Scenario} {last : Bool}
    (hspecified : Specified plugin scenario)
    (h : books.serve plugin result scenario last = .ok books') : plugin.Sums scenario := by
  obtain ⟨values, hvalues, hcommand⟩ := commandOf_scenario hspecified
  rw [Books.serve, hvalues, Outcome.ok_bind] at h
  obtain ⟨prepared, hprepared, -⟩ := Outcome.bind_eq_ok.mp h
  exact ((hcommand prepared).mp hprepared).1

theorem serveAll_sums {rest : List Scenario} (hspecified : ∀ s ∈ rest, Specified plugin s)
    {books books' : Books V} (h : books.serveAll plugin result rest = .ok books') :
    ∀ scenario ∈ rest, plugin.Sums scenario := by
  induction rest generalizing books with
  | nil => exact fun _ hs => absurd hs List.not_mem_nil
  | cons scenario rest ih =>
    rw [List.forall_mem_cons] at hspecified
    obtain ⟨books₁, hserve, hrest⟩ := Outcome.bind_eq_ok.mp h
    exact List.forall_mem_cons.mpr ⟨serve_sums hspecified.1 hserve, ih hspecified.2 hrest⟩

theorem serveAll_ok {rest : List Scenario} (hspecified : ∀ s ∈ rest, Specified plugin s)
    (hsums : ∀ s ∈ rest, plugin.Sums s) {compared seen : List Scenario} {books : Books V}
    (hids : ((seen ++ rest).map Scenario.id).Nodup)
    (h : Progress plugin experiments.result compared seen books) :
    ∃ books', books.serveAll plugin experiments.result rest = .ok books' ∧
      Progress plugin experiments.result (compared ++ rest.dropLast) (seen ++ rest) books' := by
  induction rest generalizing compared seen books with
  | nil => exact ⟨books, rfl, by simpa using h⟩
  | cons scenario rest ih =>
    rw [List.forall_mem_cons] at hspecified hsums
    have hnew : ∀ earlier ∈ seen, earlier.id ≠ scenario.id := by
      intro earlier hearlier heq
      rw [List.map_append, List.nodup_append] at hids
      exact hids.2.2 _ (List.mem_map_of_mem hearlier) _ (List.mem_map_of_mem List.mem_cons_self) heq
    obtain ⟨books₁, hserve, hprogress⟩ := serve_ok hspecified.1 hsums.1 h hnew rest.isEmpty
    have hsplit : seen ++ scenario :: rest = seen ++ [scenario] ++ rest := by simp
    rw [hsplit] at hids ⊢
    obtain ⟨books', hrest, hdone⟩ := ih hspecified.2 hsums.2 hids hprogress
    refine ⟨books', ?_, ?_⟩
    · rw [Books.serveAll, hserve, Outcome.ok_bind, hrest]
    · cases rest with
      | nil => simpa using hdone
      | cons next others => simpa using hdone

theorem rounds_sums {rounds : List ScenarioPool}
    (hspecified : ∀ s ∈ rounds.flatMap ScenarioPool.contents, Specified plugin s)
    {books books' : Books V}
    (h : rounds.foldlM (fun books created => Books.serveAll plugin result books created.contents)
      books = .ok books') :
    ∀ scenario ∈ rounds.flatMap ScenarioPool.contents, plugin.Sums scenario := by
  induction rounds generalizing books with
  | nil => exact fun _ hs => absurd hs List.not_mem_nil
  | cons round rounds ih =>
    rw [List.flatMap_cons, List.forall_mem_append] at hspecified ⊢
    rw [List.foldlM_cons] at h
    obtain ⟨books₁, hround, hrounds⟩ := Outcome.bind_eq_ok.mp h
    exact ⟨serveAll_sums hspecified.1 hround, ih hspecified.2 hrounds⟩

theorem rounds_ok {rounds : List ScenarioPool}
    (hspecified : ∀ s ∈ rounds.flatMap ScenarioPool.contents, Specified plugin s)
    (hsums : ∀ s ∈ rounds.flatMap ScenarioPool.contents, plugin.Sums s)
    {compared seen : List Scenario} {books : Books V}
    (hids : ((seen ++ rounds.flatMap ScenarioPool.contents).map Scenario.id).Nodup)
    (h : Progress plugin experiments.result compared seen books) :
    ∃ books', rounds.foldlM (fun books created =>
        Books.serveAll plugin experiments.result books created.contents) books = .ok books' ∧
      Progress plugin experiments.result
        (compared ++ rounds.flatMap fun round => round.contents.dropLast)
        (seen ++ rounds.flatMap ScenarioPool.contents) books' := by
  induction rounds generalizing compared seen books with
  | nil => exact ⟨books, rfl, by simpa using h⟩
  | cons round rounds ih =>
    rw [List.flatMap_cons, List.forall_mem_append] at hspecified hsums
    rw [List.flatMap_cons, ← List.append_assoc] at hids
    have hfirst : ((seen ++ round.contents).map Scenario.id).Nodup := by
      rw [List.map_append] at hids
      exact (List.nodup_append.mp hids).1
    obtain ⟨books₁, hround, hprogress⟩ := serveAll_ok hspecified.1 hsums.1 hfirst h
    obtain ⟨books', hrounds, hdone⟩ := ih hspecified.2 hsums.2 hids hprogress
    refine ⟨books', ?_, ?_⟩
    · rw [List.foldlM_cons, hround, Outcome.ok_bind, hrounds]
    · rw [List.flatMap_cons, List.flatMap_cons, ← List.append_assoc, ← List.append_assoc]
      exact hdone

/-- A search whose commands are all built ends, and the results are those of the first scenarios
with the same check sum. -/
theorem search_ok (created : Created plugin) (hsums : ∀ s ∈ created.scenarios, plugin.Sums s) :
    ∃ state, search plugin experiments.result created.rounds = .ok state ∧
      ∀ scenario ∈ created.scenarios,
        HasResult plugin experiments.result created.compared created.scenarios state.srp
          scenario := by
  have hstart : Progress plugin experiments.result [] [] Books.start := progress_start
  obtain ⟨books, hrounds, hdone⟩ := rounds_ok created.specified hsums created.ids_nodup hstart
  refine ⟨books.state .clear, ?_, hdone.results⟩
  rw [search_eq, hrounds, Outcome.ok_bind]

theorem search_sums (created : Created plugin) {state : State V}
    (h : search plugin result created.rounds = .ok state) :
    ∀ scenario ∈ created.scenarios, plugin.Sums scenario := by
  rw [search_eq] at h
  obtain ⟨books, hrounds, -⟩ := Outcome.bind_eq_ok.mp h
  exact rounds_sums created.specified hrounds

end Search

section SkipsRepetitions

/-- The scenario has one result: its own, or the copy of that of another scenario with the same
command. -/
def Served (created : Created plugin) (experiments : Experiments plugin)
    (srp : ScenarioResultsPool V) (scenario : Scenario) : Prop :=
  srp.get? scenario.id =
      some [experiments.result scenario (plugin.launchCommand scenario)] ∨
    ∃ other ∈ created.scenarios, other ≠ scenario ∧
      plugin.launchCommand other = plugin.launchCommand scenario ∧
      ∃ copy, copyResult plugin (experiments.result other (plugin.launchCommand other)) scenario =
          .ok copy ∧ srp.get? scenario.id = some [copy]

/-- Whatever the experiments yield, the search ends with one result for every scenario. -/
def SkipsRepetitions (created : Created plugin) : Prop :=
  ∀ experiments : Experiments plugin, ∃ state,
    search plugin experiments.result created.rounds = .ok state ∧
    ∀ scenario ∈ created.scenarios, Served created experiments state.srp scenario

/-- No parameter has to be dropped, the check sums are `int`s, and a scenario that is not the last
of its round has the command of the first one with its check sum. -/
structure TellsApart (created : Created plugin) : Prop where
  keeps : ∀ scenario ∈ created.scenarios, plugin.Keeps scenario
  fits : ∀ scenario ∈ created.scenarios, FitsInt (plugin.commandSum scenario)
  same : ∀ scenario ∈ created.compared, ∀ first,
    plugin.firstWith created.scenarios (plugin.commandSum scenario) = some first →
    plugin.launchCommand first = plugin.launchCommand scenario

theorem Created.compared_subset (created : Created plugin) :
    created.compared ⊆ created.scenarios := by
  intro scenario hscenario
  obtain ⟨round, hround, hmem⟩ := List.mem_flatMap.mp hscenario
  exact List.mem_flatMap.mpr ⟨round, hround, List.mem_of_mem_dropLast hmem⟩

theorem Created.eq_of_id (created : Created plugin) {s t : Scenario} (hs : s ∈ created.scenarios)
    (ht : t ∈ created.scenarios) (hid : s.id = t.id) : s = t :=
  List.inj_on_of_nodup_map created.ids_nodup hs ht hid

/-- Results in which the scenario of the experiment can be read. -/
def Experiments.numbered (plugin : MPIParametersPlugin (V := V)) : Experiments plugin where
  result := fun scenario _ => { MetaProperty.emptyProp plugin.zero with
    startLine := scenario.id
    addInfo := OrdMap.empty.set "ScenarioID" (idText scenario)
    execObjs := [⟨0, 0⟩] }
  measured := fun _ _ => ⟨OrdMap.get?_set_self _ _ _, fun _ => List.cons_ne_nil _ _⟩

/-- The copy of a numbered result has the number of the other scenario. -/
theorem Experiments.numbered_copy {first scenario : Scenario} {command : String}
    {copy : MetaProperty V}
    (h : copyResult plugin ((Experiments.numbered plugin).result first command) scenario =
      .ok copy) : copy.startLine = first.id := by
  obtain ⟨copy', hcopy', hline, -⟩ :=
    copyResult_returns ((Experiments.numbered plugin).measured first command) scenario
  rw [Outcome.ok.inj (h.symm.trans hcopy'), hline]
  rfl

theorem SkipsRepetitions.tellsApart {created : Created plugin} (h : SkipsRepetitions created) :
    TellsApart created := by
  obtain ⟨state, hsearch, hserved⟩ := h (Experiments.numbered plugin)
  have hsums := search_sums created hsearch
  refine ⟨fun s hs => (hsums s hs).1, fun s hs => (hsums s hs).2, ?_⟩
  intro scenario hcompared first hfirst
  by_cases heq : first = scenario
  · rw [heq]
  have hscenario := created.compared_subset hcompared
  obtain ⟨state', hsearch', hresults⟩ :=
    @search_ok V plugin (Experiments.numbered plugin) created hsums
  rw [← Outcome.ok.inj (hsearch.symm.trans hsearch')] at hresults
  obtain ⟨copy, hcopy, hcopied⟩ :=
    (hresults scenario hscenario).copied hcompared first hfirst heq
  have hline := Experiments.numbered_copy hcopy
  cases hserved scenario hscenario with
  | inl hown =>
    rw [hcopied, Option.some.injEq, List.singleton_inj] at hown
    have hid : (first.id : ℤ) = scenario.id := hline.symm.trans (congrArg _ hown)
    exact absurd (created.eq_of_id (firstWith_some hfirst).1 hscenario (by exact_mod_cast hid)) heq
  | inr hother =>
    obtain ⟨other, hother, -, hcommand, copy', hcopy', hcopied'⟩ := hother
    rw [hcopied, Option.some.injEq, List.singleton_inj] at hcopied'
    have hid : (first.id : ℤ) = other.id := by
      rw [← hline, hcopied', Experiments.numbered_copy hcopy']
    rw [created.eq_of_id (firstWith_some hfirst).1 hother (by exact_mod_cast hid), hcommand]

theorem TellsApart.skipsRepetitions {created : Created plugin} (h : TellsApart created) :
    SkipsRepetitions created := by
  intro experiments
  obtain ⟨state, hsearch, hresults⟩ := @search_ok V plugin experiments created
    fun s hs => ⟨h.keeps s hs, h.fits s hs⟩
  refine ⟨state, hsearch, ?_⟩
  intro scenario hscenario
  have hresult := hresults scenario hscenario
  by_cases hcompared : scenario ∈ created.compared
  · obtain ⟨first, hfirst⟩ : ∃ first, plugin.firstWith created.scenarios
      (plugin.commandSum scenario) = some first := firstWith_of_mem hscenario
    by_cases heq : first = scenario
    · exact .inl (hresult.own (.inr (heq ▸ hfirst)))
    · exact .inr ⟨first, (firstWith_some hfirst).1, heq, h.same scenario hcompared first hfirst,
        hresult.copied hcompared first hfirst heq⟩
  · exact .inl (hresult.own (.inl hcompared))

theorem skipsRepetitions_iff (created : Created plugin) :
    SkipsRepetitions created ↔ TellsApart created :=
  ⟨SkipsRepetitions.tellsApart, TellsApart.skipsRepetitions⟩

/-- One parameter, whose values are numbers. -/
def eagerLimit : MPIParametersPlugin (V := Unit) where
  tuningParameter := fun _ => ⟨0, "eager_limit"⟩
  valuesMap := OrdMap.empty.set 0 []
  applUninstrumented := true
  indeterminate := 0
  zero := ()

def eagerLimitScenario (id : ℕ) (value : ℤ) : Scenario :=
  ⟨id, [⟨OrdMap.empty.set 1 value, .regionList, []⟩]⟩

theorem specified_eagerLimit (id : ℕ) (value : ℤ) :
    Specified eagerLimit (eagerLimitScenario id value) := by
  refine ⟨⟨⟨OrdMap.empty.set 1 value, .regionList, []⟩, rfl, ?_⟩⟩
  exact fun _ _ => ⟨[], rfl, fun h => absurd rfl h⟩

/-- The range from 12 to 30 in steps of 9. -/
def threeLimits : Created eagerLimit where
  rounds := [((ScenarioPool.clear.push (eagerLimitScenario 0 12)).push
    (eagerLimitScenario 1 21)).push (eagerLimitScenario 2 30)]
  ids_nodup := by decide
  specified := by
    intro scenario hscenario
    have hthree : scenario ∈ [eagerLimitScenario 0 12, eagerLimitScenario 1 21,
      eagerLimitScenario 2 30] := hscenario
    simp only [List.mem_cons, List.not_mem_nil, or_false] at hthree
    rcases hthree with rfl | rfl | rfl <;> exact specified_eagerLimit _ _

/-- The digits of 12 and of 21 have one sum. -/
theorem not_skipsRepetitions : ¬ SkipsRepetitions threeLimits := by
  intro h
  have hcompared : eagerLimitScenario 1 21 ∈ threeLimits.compared := by decide +kernel
  have hfirst : eagerLimit.firstWith threeLimits.scenarios
      (eagerLimit.commandSum (eagerLimitScenario 1 21)) = some (eagerLimitScenario 0 12) := by
    decide +kernel
  have hsame := h.tellsApart.same _ hcompared _ hfirst
  have hdiffer : eagerLimit.launchCommand (eagerLimitScenario 0 12) ≠
      eagerLimit.launchCommand (eagerLimitScenario 1 21) := by decide +kernel
  exact hdiffer hsame

end SkipsRepetitions

end ReadexPtf.MpiParameters
