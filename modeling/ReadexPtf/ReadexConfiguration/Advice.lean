import ReadexPtf.ReadexConfiguration.Parameters

/-! The commands that set the application parameters for a scenario, and the advice: what the
plugin reports of the optimum, and when that is what was set for it. -/
namespace ReadexPtf.ReadexConfiguration
open ReadexPtf Autotune

inductive Command where
  | copyTemplate (templateFilename inputFilename : String)
  | setParameter (filePath name value : String)
  deriving DecidableEq

section Commands
variable (system : List Command → Command → ℤ)

/-- What `system` returns may depend on the commands that were run before. -/
def runCommand (log : List Command) (cmd : Command) : Outcome (List Command) :=
  if system log cmd ≠ 0 then .aborts else .ok (log ++ [cmd])

def copyTemplateFilesToInputFiles (p : TuningPlugin) (log : List Command) :
    Outcome (List Command) :=
  p.inputFile.entries.foldlM (fun log input =>
    runCommand system log (.copyTemplate input.1 input.2)) log

def setParameter (tp : AppConfigParameter) (value : Option String) (log : List Command) :
    Outcome (List Command) := do
  let value ← Outcome.found value
  runCommand system log (.setParameter tp.filePath tp.name value)

/-- For the scenario that is taken from the pool of the created ones. -/
def prepareScenarios (p : TuningPlugin) (scenario : Scenario) (log : List Command) :
    Outcome (List Command) := do
  let log ← copyTemplateFilesToInputFiles system p log
  let front ← Outcome.found scenario.ts.head?
  p.eachParameter (fun log tp i => setParameter system tp (tp.getValueString i) log)
    (fun log tp _ => setParameter system tp (tp.getValueString 1) log) front.variant log

/-- What is reported of a parameter, and what is set. -/
def advise (tp : AppConfigParameter) (reported value : Option String)
    (state : List (String × String) × List Command) :
    Outcome (List (String × String) × List Command) := do
  let v ← Outcome.found reported
  let log ← setParameter system tp value state.2
  return (state.1 ++ [(tp.name, v)], log)

/-- The settings that get into the results file, by the names of the parameters. -/
def getAdvice (p : TuningPlugin) (optimum : Scenario) (log : List Command) :
    Outcome (List (String × String) × List Command) := do
  let log ← copyTemplateFilesToInputFiles system p log
  let front ← Outcome.found optimum.ts.head?
  p.eachParameter
    (fun state tp i => advise system tp (tp.getValueString i) (tp.getValueString i) state)
    (fun state tp i => advise system tp (tp.getValueString i) (tp.getValueString 1) state)
    front.variant ([], log)

end Commands

/-- The commands succeed, one after the other. -/
def Runs (system : List Command → Command → ℤ) : List Command → List Command → Prop
  | _, [] => True
  | log, cmd :: cmds => system log cmd = 0 ∧ Runs system (log ++ [cmd]) cmds

/-- The command that sets a parameter. -/
def command (written : AppConfigParameter × String) : Command :=
  .setParameter written.1.filePath written.1.name written.2

namespace TuningPlugin

/-- The values that a scenario has for the parameters. Those that it leaves out get the first. -/
def settings (p : TuningPlugin) (values : Variant) : List (AppConfigParameter × Option String) :=
  (p.given values).map (fun x => (x.1, x.1.getValueString x.2)) ++
    (p.leftOut values).map fun tp => (tp, tp.getValueString 1)

/-- The templates are copied, and then the parameters are set. -/
def commands (p : TuningPlugin) (written : List (AppConfigParameter × String)) : List Command :=
  p.inputFile.entries.map (fun input => .copyTemplate input.1 input.2) ++ written.map command

end TuningPlugin

section Commands
variable {system : List Command → Command → ℤ} {log log' : List Command}

theorem runCommand_eq_ok {cmd : Command} :
    runCommand system log cmd = .ok log' ↔ system log cmd = 0 ∧ log' = log ++ [cmd] := by
  rw [runCommand]
  split_ifs with h
  · simp [h]
  · simp only [ne_eq, not_not] at h
    simp [h, eq_comm]

theorem runs_append {cmds cmds' : List Command} :
    Runs system log (cmds ++ cmds') ↔ Runs system log cmds ∧ Runs system (log ++ cmds) cmds' := by
  induction cmds generalizing log with
  | nil => simp [Runs]
  | cons cmd cmds ih => simp [Runs, ih, and_assoc]

theorem foldlM_runCommand {ι : Type} (cmd : ι → Command) (xs : List ι) :
    xs.foldlM (fun log x => runCommand system log (cmd x)) log = .ok log' ↔
      Runs system log (xs.map cmd) ∧ log' = log ++ xs.map cmd := by
  induction xs generalizing log with
  | nil => simp [Runs, eq_comm]
  | cons x xs ih =>
    rw [List.foldlM_cons, Outcome.bind_eq_ok, List.map_cons, Runs]
    constructor
    · rintro ⟨next, hrun, hrest⟩
      obtain ⟨hzero, rfl⟩ := runCommand_eq_ok.mp hrun
      obtain ⟨hruns, rfl⟩ := ih.mp hrest
      exact ⟨⟨hzero, hruns⟩, by simp⟩
    · rintro ⟨⟨hzero, hruns⟩, rfl⟩
      exact ⟨_, runCommand_eq_ok.mpr ⟨hzero, rfl⟩, ih.mpr ⟨hruns, by simp⟩⟩

theorem copyTemplateFilesToInputFiles_eq_ok {p : TuningPlugin} :
    copyTemplateFilesToInputFiles system p log = .ok log' ↔
      Runs system log (p.commands []) ∧ log' = log ++ p.commands [] := by
  rw [copyTemplateFilesToInputFiles, foldlM_runCommand, TuningPlugin.commands, List.map_nil,
    List.append_nil]

theorem setParameter_eq_ok {tp : AppConfigParameter} {value : Option String} :
    setParameter system tp value log = .ok log' ↔ ∃ text, value = some text ∧
      system log (command (tp, text)) = 0 ∧ log' = log ++ [command (tp, text)] := by
  rw [setParameter, Outcome.bind_eq_ok]
  simp only [Outcome.found_eq_ok, runCommand_eq_ok, command]

/-- The parameters are set just if none of the values is missing. -/
theorem foldlM_setParameter {settings : List (AppConfigParameter × Option String)} :
    settings.foldlM (fun log x => setParameter system x.1 x.2 log) log = .ok log' ↔
      ∃ written : List (AppConfigParameter × String),
        settings = written.map (fun w => (w.1, some w.2)) ∧
          Runs system log (written.map command) ∧ log' = log ++ written.map command := by
  induction settings generalizing log with
  | nil =>
    rw [List.foldlM_nil, Outcome.pure_eq, Outcome.ok.injEq]
    constructor
    · rintro rfl
      exact ⟨[], rfl, trivial, by simp⟩
    · rintro ⟨written, hwritten, -, rfl⟩
      obtain rfl := List.map_eq_nil_iff.mp hwritten.symm
      simp
  | cons x settings ih =>
    rw [List.foldlM_cons, Outcome.bind_eq_ok]
    constructor
    · rintro ⟨next, hset, hrest⟩
      obtain ⟨text, hvalue, hzero, rfl⟩ := setParameter_eq_ok.mp hset
      obtain ⟨written, rfl, hruns, rfl⟩ := ih.mp hrest
      exact ⟨(x.1, text) :: written, by simp [← hvalue], ⟨hzero, hruns⟩, by simp⟩
    · rintro ⟨written, hwritten, hruns, rfl⟩
      obtain ⟨w, written, rfl, rfl, rfl⟩ := List.map_eq_cons_iff.mp hwritten.symm
      exact ⟨log ++ [command w], setParameter_eq_ok.mpr ⟨w.2, rfl, hruns.1, rfl⟩,
        ih.mpr ⟨written, rfl, hruns.2, by simp⟩⟩

theorem advise_eq_ok {tp : AppConfigParameter} {reported value : Option String}
    {report report' : List (String × String)} :
    advise system tp reported value (report, log) = .ok (report', log') ↔
      ∃ v text, reported = some v ∧ value = some text ∧ system log (command (tp, text)) = 0 ∧
        report' = report ++ [(tp.name, v)] ∧ log' = log ++ [command (tp, text)] := by
  simp only [advise, Outcome.bind_eq_ok, Outcome.found_eq_ok, setParameter_eq_ok, Outcome.pure_eq,
    Outcome.ok.injEq, Prod.mk.injEq]
  constructor
  · rintro ⟨v, hv, next, ⟨text, htext, hzero, rfl⟩, rfl, rfl⟩
    exact ⟨v, text, hv, htext, hzero, rfl, rfl⟩
  · rintro ⟨v, text, hv, htext, hzero, rfl, rfl⟩
    exact ⟨v, hv, _, ⟨text, htext, hzero, rfl⟩, rfl, rfl⟩

/-- An item of the advice: a parameter, what is reported of it, and what it is set to. -/
theorem foldlM_advise {jobs : List (AppConfigParameter × Option String × Option String)}
    {report report' : List (String × String)} :
    jobs.foldlM (fun state x => advise system x.1 x.2.1 x.2.2 state) (report, log) =
        .ok (report', log') ↔
      ∃ items : List (AppConfigParameter × String × String),
        jobs = items.map (fun x => (x.1, some x.2.1, some x.2.2)) ∧
          Runs system log (items.map fun x => command (x.1, x.2.2)) ∧
          report' = report ++ items.map (fun x => (x.1.name, x.2.1)) ∧
          log' = log ++ items.map fun x => command (x.1, x.2.2) := by
  induction jobs generalizing log report with
  | nil =>
    rw [List.foldlM_nil, Outcome.pure_eq, Outcome.ok.injEq, Prod.mk.injEq]
    constructor
    · rintro ⟨rfl, rfl⟩
      exact ⟨[], rfl, trivial, by simp, by simp⟩
    · rintro ⟨items, hitems, -, rfl, rfl⟩
      obtain rfl := List.map_eq_nil_iff.mp hitems.symm
      simp
  | cons x jobs ih =>
    rw [List.foldlM_cons, Outcome.bind_eq_ok]
    constructor
    · rintro ⟨⟨next, nextLog⟩, hadvise, hrest⟩
      obtain ⟨v, text, hv, htext, hzero, rfl, rfl⟩ := advise_eq_ok.mp hadvise
      obtain ⟨items, rfl, hruns, rfl, rfl⟩ := ih.mp hrest
      exact ⟨(x.1, v, text) :: items, by simp [← hv, ← htext], ⟨hzero, hruns⟩, by simp, by simp⟩
    · rintro ⟨items, hitems, hruns, rfl, rfl⟩
      obtain ⟨item, items, rfl, rfl, rfl⟩ := List.map_eq_cons_iff.mp hitems.symm
      exact ⟨(report ++ [(item.1.name, item.2.1)], log ++ [command (item.1, item.2.2)]),
        advise_eq_ok.mpr ⟨item.2.1, item.2.2, rfl, rfl, hruns.1, rfl, rfl⟩,
        ih.mpr ⟨items, rfl, hruns.2, by simp, by simp⟩⟩

end Commands

section Calls
variable {system : List Command → Command → ℤ} {log log' : List Command} {new : ℕ ↪ ℕ}
  {kept : TpRange → List String} {declared : List ParameterSpecification} {p : TuningPlugin}
  {scenario : Scenario} {front : TuningSpecification}

/-- What `getAdvice` takes of the parameters: a value to report and a value to set. -/
def TuningPlugin.advices (p : TuningPlugin) (values : Variant) :
    List (AppConfigParameter × Option String × Option String) :=
  (p.given values).map
      (fun x => (x.1, x.1.getValueString x.2, x.1.getValueString x.2)) ++
    (p.leftOut values).map fun tp => (tp, tp.getValueString tp.id, tp.getValueString 1)

theorem prepareScenarios_eq_ok (h : p.Follows new kept declared)
    (hfront : scenario.ts.head? = some front) :
    prepareScenarios system p scenario log = .ok log' ↔
      ∃ written : List (AppConfigParameter × String),
        p.settings front.variant = written.map (fun w => (w.1, some w.2)) ∧
          Runs system log (p.commands written) ∧ log' = log ++ p.commands written := by
  have hcommands : ∀ written, p.commands written = p.commands [] ++ written.map command :=
    fun written => by simp [TuningPlugin.commands]
  rw [prepareScenarios, Outcome.bind_eq_ok]
  simp only [hfront, Outcome.found, Outcome.ok_bind, h.eachParameter_eq,
    copyTemplateFilesToInputFiles_eq_ok]
  have hfold : ∀ log : List Command, ((p.given front.variant).foldlM (fun log x =>
      setParameter system x.1 (x.1.getValueString x.2) log) log >>= fun log =>
        (p.leftOut front.variant).foldlM (fun log tp =>
          setParameter system tp (tp.getValueString 1) log) log) =
      (p.settings front.variant).foldlM (fun log x => setParameter system x.1 x.2 log) log := by
    intro log
    rw [TuningPlugin.settings, List.foldlM_append, List.foldlM_map]
    simp only [List.foldlM_map]
  simp only [hfold, foldlM_setParameter]
  constructor
  · rintro ⟨next, ⟨hcopied, rfl⟩, written, hsettings, hruns, rfl⟩
    refine ⟨written, hsettings, ?_, ?_⟩
    · rw [hcommands, runs_append]
      exact ⟨hcopied, hruns⟩
    · rw [hcommands written, List.append_assoc]
  · rintro ⟨written, hsettings, hruns, rfl⟩
    rw [hcommands, runs_append] at hruns
    refine ⟨_, ⟨hruns.1, rfl⟩, written, hsettings, hruns.2, ?_⟩
    rw [hcommands written, List.append_assoc]

theorem getAdvice_eq_ok (h : p.Follows new kept declared)
    (hfront : scenario.ts.head? = some front) {report : List (String × String)} :
    getAdvice system p scenario log = .ok (report, log') ↔
      ∃ items : List (AppConfigParameter × String × String),
        p.advices front.variant = items.map (fun x => (x.1, some x.2.1, some x.2.2)) ∧
          Runs system log (p.commands (items.map fun x => (x.1, x.2.2))) ∧
          report = items.map (fun x => (x.1.name, x.2.1)) ∧
          log' = log ++ p.commands (items.map fun x => (x.1, x.2.2)) := by
  have hcommands : ∀ items : List (AppConfigParameter × String × String),
      p.commands (items.map fun x => (x.1, x.2.2)) =
        p.commands [] ++ items.map fun x => command (x.1, x.2.2) :=
    fun items => by simp [TuningPlugin.commands, Function.comp_def]
  rw [getAdvice, Outcome.bind_eq_ok]
  simp only [hfront, Outcome.found, Outcome.ok_bind, h.eachParameter_eq,
    copyTemplateFilesToInputFiles_eq_ok]
  have hfold : ∀ state : List (String × String) × List Command,
      ((p.given front.variant).foldlM (fun state x => advise system x.1 (x.1.getValueString x.2)
        (x.1.getValueString x.2) state) state >>= fun state =>
          (p.leftOut front.variant).foldlM (fun state tp =>
            advise system tp (tp.getValueString tp.id) (tp.getValueString 1) state) state) =
      (p.advices front.variant).foldlM
        (fun state x => advise system x.1 x.2.1 x.2.2 state) state := by
    intro state
    rw [TuningPlugin.advices, List.foldlM_append, List.foldlM_map]
    simp only [List.foldlM_map]
  simp only [hfold, foldlM_advise, List.nil_append]
  constructor
  · rintro ⟨next, ⟨hcopied, rfl⟩, items, hitems, hruns, rfl, rfl⟩
    refine ⟨items, hitems, ?_, rfl, ?_⟩
    · rw [hcommands, runs_append]
      exact ⟨hcopied, hruns⟩
    · rw [hcommands items, List.append_assoc]
  · rintro ⟨items, hitems, hruns, rfl, rfl⟩
    rw [hcommands, runs_append] at hruns
    refine ⟨_, ⟨hruns.1, rfl⟩, items, hitems, hruns.2, rfl, ?_⟩
    rw [hcommands items, List.append_assoc]

end Calls

/-- The scenarios that a search has created, and its optimum. -/
structure Search (p : TuningPlugin) where
  created : List Scenario
  feasible : ∀ scenario ∈ created, Feasible p scenario
  optimum : Scenario
  evaluated : optimum ∈ created

/-- `prepareScenarios` sets every parameter of the scenario to a value of its declared set. -/
structure Writes (system : List Command → Command → ℤ) (spec : Specification) (p : TuningPlugin)
    (scenario : Scenario) (written : List (AppConfigParameter × String)) : Prop where
  returns : ∀ log, prepareScenarios system p scenario log = .ok (log ++ p.commands written)
  covers : ∀ value ∈ (frontVariant scenario).entries, ∃ w ∈ written, w.1.addr = value.1
  declared : ∀ w ∈ written, ∃ declared, spec.parameters[w.1.id]? = some declared ∧
    declared.values.Declares w.2

/-- All scenarios can be prepared, and the advice reports what was written for the optimum. -/
def Agrees (system : List Command → Command → ℤ) (spec : Specification) {p : TuningPlugin}
    (search : Search p) : Prop :=
  ∀ scenario ∈ search.created, ∃ written, Writes system spec p scenario written ∧
    (scenario = search.optimum → ∀ log, ∃ log',
      getAdvice system p scenario log = .ok (written.map fun w => (w.1.name, w.2), log'))

/-- The commands for a scenario whose values are not missing. -/
def TuningPlugin.intended (p : TuningPlugin) (values : Variant) : List Command :=
  p.commands ((p.settings values).filterMap fun x => x.2.map fun text => (x.1, text))

/-- Every parameter of the file is given by a list of values, `getAdvice` reports the first value
of those that the optimum leaves out, and the commands succeed. -/
structure Listed (system : List Command → Command → ℤ) (spec : Specification) {p : TuningPlugin}
    (search : Search p) : Prop where
  strings : ∀ declared ∈ spec.parameters, spec.keptStrings declared.values ≠ []
  leftOut : ∀ tp ∈ p.leftOut (frontVariant search.optimum),
    tp.getValueString tp.id = tp.getValueString 1
  runs : ∀ scenario ∈ search.created, ∀ log, Runs system log (p.intended (frontVariant scenario))

namespace AppConfigParameter
variable {tp : AppConfigParameter} {str : String} {i : ℤ}

theorem mem_of_getValueString (h : tp.getValueString i = some str) : str ∈ tp.valueStrings := by
  rw [getValueString] at h
  split_ifs at h
  exact List.mem_of_getElem? h

theorem getValueString_of_le (h : 1 ≤ i ∧ i ≤ tp.valueStrings.length) :
    ∃ str, tp.getValueString i = some str := by
  have hlt : (i - 1).toNat < tp.valueStrings.length := by omega
  exact ⟨_, by rw [getValueString, if_pos (by omega), List.getElem?_eq_getElem hlt]⟩

theorem getValueString_one (h : tp.valueStrings ≠ []) : ∃ str, tp.getValueString 1 = some str := by
  have hpos := List.length_pos_iff.mpr h
  exact getValueString_of_le ⟨le_refl 1, by omega⟩

theorem mem_gridValues_one {last : ℕ} (h : i ∈ gridValues 1 last 1) : 1 ≤ i ∧ i ≤ last := by
  rw [gridValues, List.mem_map] at h
  obtain ⟨k, hk, rfl⟩ := h
  have hlt := List.mem_range.mp hk
  rw [gridCount] at hlt
  omega

end AppConfigParameter

/-- Values none of which is missing. -/
theorem exists_written {α : Type} {settings : List (α × Option String)}
    (h : ∀ x ∈ settings, ∃ text, x.2 = some text) :
    ∃ written : List (α × String), settings = written.map fun w => (w.1, some w.2) := by
  induction settings with
  | nil => exact ⟨[], rfl⟩
  | cons x settings ih =>
    obtain ⟨⟨text, htext⟩, hrest⟩ := List.forall_mem_cons.mp h
    obtain ⟨written, hwritten⟩ := ih hrest
    exact ⟨(x.1, text) :: written, by rw [List.map_cons, ← hwritten, ← htext]⟩

theorem filterMap_written {α : Type} (written : List (α × String)) :
    (written.map fun w => (w.1, some w.2)).filterMap (fun x => x.2.map fun text => (x.1, text)) =
      written := by
  rw [List.filterMap_map]
  exact List.filterMap_some

section Agreement
variable {new : ℕ ↪ ℕ} {spec : Specification} {kept : TpRange → List String}
  {declared : List ParameterSpecification} {p : TuningPlugin} {scenario : Scenario}
  {values : Variant} {x : AppConfigParameter × Option String}

namespace TuningPlugin

/-- The parameters have value strings just if those of the file have some that are kept. -/
theorem Follows.forall_strings (h : p.Follows new kept declared) :
    (∀ tp ∈ p.tuningParameters, tp.valueStrings ≠ []) ↔ ∀ d ∈ declared, kept d.values ≠ [] := by
  constructor
  · intro hstrings d hd
    obtain ⟨i, hi, rfl⟩ := List.getElem_of_mem hd
    rw [← (h.follows i hi).strings]
    exact hstrings _ (List.getElem_mem (h.length ▸ hi))
  · intro hkept tp htp
    obtain ⟨i, hi, rfl⟩ := List.getElem_of_mem htp
    have hi' : i < declared.length := h.length ▸ hi
    rw [(h.follows i hi').strings]
    exact hkept _ (List.getElem_mem hi')

theorem Follows.strings_declared (h : p.Follows new spec.keptStrings spec.parameters)
    {tp : AppConfigParameter} (htp : tp ∈ p.tuningParameters) {str : String}
    (hstr : str ∈ tp.valueStrings) :
    ∃ d, spec.parameters[tp.id]? = some d ∧ d.values.Declares str := by
  obtain ⟨i, hi, rfl⟩ := List.getElem_of_mem htp
  have hi' : i < spec.parameters.length := h.length ▸ hi
  have hfollows := h.follows i hi'
  rw [hfollows.id]
  refine ⟨_, List.getElem?_eq_getElem hi', ?_⟩
  have hstrings : str ∈ spec.parameters[i].values.strings := by
    rw [hfollows.strings, Specification.keptStrings] at hstr
    split_ifs at hstr
    · exact List.mem_of_mem_filter hstr
    · exact hstr
  cases hvalues : spec.parameters[i].values with
  | intRange first last step =>
    rw [hvalues] at hstrings
    cases hstrings
  | stringRange first rest =>
    rw [hvalues] at hstrings
    exact hstrings

theorem mem_given {y : AppConfigParameter × ℤ} (h : y ∈ p.given values) :
    y.1 ∈ p.tuningParameters ∧ (y.1.addr, y.2) ∈ values.entries := by
  obtain ⟨value, hvalue, hy⟩ := List.mem_filterMap.mp h
  obtain ⟨tp, htp, rfl⟩ := Option.map_eq_some_iff.mp hy
  obtain ⟨hmem, haddr⟩ := mem_of_parameter htp
  exact ⟨hmem, by rw [haddr]; exact hvalue⟩

theorem mem_settings (h : x ∈ p.settings values) :
    x.1 ∈ p.tuningParameters ∧ ∃ i, x.2 = x.1.getValueString i := by
  rcases List.mem_append.mp h with hgiven | hleft
  · obtain ⟨y, hy, rfl⟩ := List.mem_map.mp hgiven
    exact ⟨(mem_given hy).1, y.2, rfl⟩
  · obtain ⟨tp, htp, rfl⟩ := List.mem_map.mp hleft
    exact ⟨List.mem_of_mem_filter htp, 1, rfl⟩

/-- Every value of the variant is set. -/
theorem Follows.covers (h : p.Follows new kept declared) {tp : AppConfigParameter}
    (htp : tp ∈ p.tuningParameters) {i : ℤ} (hvalue : (tp.addr, i) ∈ values.entries) :
    (tp, tp.getValueString i) ∈ p.settings values := by
  refine List.mem_append_left _ (List.mem_map.mpr ⟨(tp, i), ?_, rfl⟩)
  exact List.mem_filterMap.mpr ⟨_, hvalue, by rw [h.parameter_addr htp]; rfl⟩

/-- All parameters are set. -/
theorem Follows.mem_settings_fst (h : p.Follows new kept declared) {tp : AppConfigParameter}
    (htp : tp ∈ p.tuningParameters) : ∃ i, (tp, tp.getValueString i) ∈ p.settings values := by
  by_cases hkey : tp.addr ∈ values.keys
  · obtain ⟨⟨addr, i⟩, hvalue, rfl⟩ := List.mem_map.mp hkey
    exact ⟨i, h.covers htp hvalue⟩
  · exact ⟨1, List.mem_append_right _ (List.mem_map.mpr
      ⟨tp, List.mem_filter.mpr ⟨htp, by simpa using hkey⟩, rfl⟩)⟩

/-- A value list has a value string for each value of its range. -/
theorem Follows.settings_some (h : p.Follows new kept declared)
    (hstrings : ∀ tp ∈ p.tuningParameters, tp.valueStrings ≠ []) (hfeasible : Feasible p scenario) :
    ∀ x ∈ p.settings (frontVariant scenario), ∃ text, x.2 = some text := by
  intro x hx
  rcases List.mem_append.mp hx with hgiven | hleft
  · obtain ⟨y, hy, rfl⟩ := List.mem_map.mp hgiven
    obtain ⟨hmem, hvalue⟩ := mem_given hy
    obtain ⟨tp, htp, haddr, hrange⟩ := hfeasible.inRange _ hvalue
    have hself : tp = y.1 := by
      have hfound := h.parameter_addr htp
      rw [haddr, h.parameter_addr hmem] at hfound
      exact (Option.some.inj hfound).symm
    subst hself
    obtain ⟨i, hi, heq⟩ := List.getElem_of_mem htp
    obtain ⟨hfrom, hto, hstep⟩ := (h.follows i (h.length ▸ hi)).range (heq ▸ hstrings _ htp)
    rw [heq] at hfrom hto hstep
    rw [hfrom, hto, hstep] at hrange
    exact AppConfigParameter.getValueString_of_le (AppConfigParameter.mem_gridValues_one hrange)
  · obtain ⟨tp, htp, rfl⟩ := List.mem_map.mp hleft
    exact AppConfigParameter.getValueString_one (hstrings tp (List.mem_of_mem_filter htp))

/-- A preparation for which no value is missing. -/
theorem Follows.strings_of_settings (h : p.Follows new kept declared)
    {written : List (AppConfigParameter × String)}
    (hsettings : p.settings values = written.map fun w => (w.1, some w.2)) :
    ∀ tp ∈ p.tuningParameters, tp.valueStrings ≠ [] := by
  intro tp htp
  obtain ⟨i, hmem⟩ := h.mem_settings_fst htp
  rw [hsettings] at hmem
  obtain ⟨w, -, hw⟩ := List.mem_map.mp hmem
  exact List.ne_nil_of_mem (AppConfigParameter.mem_of_getValueString (Prod.mk.inj hw).2.symm)

end TuningPlugin

theorem map_command_snd {written written' : List (AppConfigParameter × String)}
    (h : written.map command = written'.map command) :
    written.map Prod.snd = written'.map Prod.snd := by
  have hvalue : ∀ w : List (AppConfigParameter × String), w.map Prod.snd =
      (w.map command).map fun cmd => match cmd with
        | .copyTemplate _ _ => ""
        | .setParameter _ _ value => value := fun w => by simp [command, Function.comp_def]
  rw [hvalue, h, ← hvalue]

namespace TuningPlugin

theorem commands_inj {written written' : List (AppConfigParameter × String)}
    (h : p.commands written = p.commands written') :
    written.map command = written'.map command :=
  List.append_cancel_left h

theorem intended_eq {written : List (AppConfigParameter × String)}
    (h : p.settings values = written.map fun w => (w.1, some w.2)) :
    p.intended values = p.commands written := by
  rw [intended, h, filterMap_written]

/-- `getAdvice` reports what is set, but for the parameters that the variant leaves out. -/
theorem advices_eq (h : ∀ tp ∈ p.leftOut values, tp.getValueString tp.id = tp.getValueString 1) :
    p.advices values = (p.settings values).map fun x => (x.1, x.2, x.2) := by
  rw [advices, settings, List.map_append, List.map_map, List.map_map]
  refine congrArg _ (List.map_congr_left fun tp htp => ?_)
  rw [h tp htp]
  rfl

/-- Where the reported values are those that are set, the parameters left out have them too. -/
theorem leftOut_of_advices (h : (p.advices values).map (fun x => x.2.1) =
    (p.settings values).map Prod.snd) :
    ∀ tp ∈ p.leftOut values, tp.getValueString tp.id = tp.getValueString 1 := by
  rw [advices, settings, List.map_append, List.map_append, List.map_map, List.map_map,
    List.map_map, List.map_map] at h
  exact List.map_inj_left.mp (List.append_cancel_left h)

end TuningPlugin

/-- A preparation that returns whatever was run before. -/
theorem Writes.settings {system : List Command → Command → ℤ}
    {written : List (AppConfigParameter × String)} (hp : p.Follows new kept declared)
    (hfeasible : Feasible p scenario) (h : Writes system spec p scenario written)
    (log : List Command) : ∃ w : List (AppConfigParameter × String),
      p.settings (frontVariant scenario) = w.map (fun w => (w.1, some w.2)) ∧
        Runs system log (p.commands w) ∧ w.map Prod.snd = written.map Prod.snd := by
  obtain ⟨front, hfront, hvariant⟩ := hfeasible.front
  obtain ⟨w, hsettings, hruns, hlog⟩ := (prepareScenarios_eq_ok hp hfront).mp (h.returns log)
  refine ⟨w, by rw [hvariant, hsettings], hruns, ?_⟩
  exact map_command_snd (TuningPlugin.commands_inj (List.append_cancel_left hlog)).symm

/-- Values that are there are set, and they are the declared ones. -/
theorem writes_of_settings {system : List Command → Command → ℤ}
    {written : List (AppConfigParameter × String)}
    (hp : p.Follows new spec.keptStrings spec.parameters) (hfeasible : Feasible p scenario)
    (hsettings : p.settings (frontVariant scenario) = written.map fun w => (w.1, some w.2))
    (hruns : ∀ log, Runs system log (p.commands written)) :
    Writes system spec p scenario written := by
  obtain ⟨front, hfront, hvariant⟩ := hfeasible.front
  refine ⟨fun log => ?_, fun value hvalue => ?_, fun w hw => ?_⟩
  · exact (prepareScenarios_eq_ok hp hfront).mpr ⟨written, hvariant ▸ hsettings, hruns log, rfl⟩
  · obtain ⟨tp, htp, haddr, -⟩ := hfeasible.inRange value hvalue
    have hset : (tp, tp.getValueString value.2) ∈ p.settings (frontVariant scenario) :=
      hp.covers htp (by rw [haddr]; exact hvalue)
    rw [hsettings] at hset
    obtain ⟨w, hw, heq⟩ := List.mem_map.mp hset
    exact ⟨w, hw, by rw [(Prod.mk.inj heq).1, haddr]⟩
  · have hmem : (w.1, some w.2) ∈ p.settings (frontVariant scenario) := by
      rw [hsettings]
      exact List.mem_map_of_mem hw
    obtain ⟨htp, i, hi⟩ := TuningPlugin.mem_settings hmem
    exact hp.strings_declared htp (AppConfigParameter.mem_of_getValueString hi.symm)

end Agreement

/-- Every scenario can be prepared and the advice for the optimum is what was written for it just
if the file gives every parameter a list of values and the list of a parameter that the optimum
leaves out has its first value again where the advice reads it. -/
theorem agrees_iff (system : List Command → Command → ℤ) (spec : Specification) (new : ℕ ↪ ℕ)
    (search : Search (.initialized new spec)) :
    Agrees system spec search ↔ Listed system spec search := by
  have hp := @TuningPlugin.follows_initialized new spec
  constructor
  · intro h
    obtain ⟨written, hwrites, hadvice⟩ := h search.optimum search.evaluated
    have hfeasible := search.feasible _ search.evaluated
    obtain ⟨w, hsettings, -, hvalues⟩ := hwrites.settings hp hfeasible []
    refine ⟨hp.forall_strings.mp (hp.strings_of_settings hsettings), ?_, ?_⟩
    · obtain ⟨front, hfront, hvariant⟩ := hfeasible.front
      obtain ⟨log', hrun⟩ := hadvice rfl []
      obtain ⟨items, hitems, -, hreport, -⟩ := (getAdvice_eq_ok hp hfront).mp hrun
      have hreported : items.map (fun x => x.2.1) = w.map Prod.snd := by
        rw [hvalues]
        have hsnd := congrArg (List.map Prod.snd) hreport
        simpa [Function.comp_def] using hsnd.symm
      refine TuningPlugin.leftOut_of_advices ?_
      rw [hsettings, hvariant, hitems, List.map_map, List.map_map]
      have hsome := congrArg (List.map some) hreported
      simpa [Function.comp_def] using hsome
    · intro scenario hscenario log
      obtain ⟨written', hwrites', -⟩ := h scenario hscenario
      obtain ⟨w', hsettings', hruns, -⟩ :=
        hwrites'.settings hp (search.feasible scenario hscenario) log
      rw [TuningPlugin.intended_eq hsettings']
      exact hruns
  · intro h scenario hscenario
    have hfeasible := search.feasible scenario hscenario
    obtain ⟨written, hsettings⟩ := exists_written
      (hp.settings_some (hp.forall_strings.mpr h.strings) hfeasible)
    have hruns : ∀ log, Runs system log ((TuningPlugin.initialized new spec).commands written) := by
      intro log
      rw [← TuningPlugin.intended_eq hsettings]
      exact h.runs scenario hscenario log
    refine ⟨written, writes_of_settings hp hfeasible hsettings hruns, ?_⟩
    rintro rfl log
    obtain ⟨front, hfront, hvariant⟩ := hfeasible.front
    have hleft := TuningPlugin.advices_eq h.leftOut
    refine ⟨_, (getAdvice_eq_ok hp hfront).mpr
      ⟨written.map fun w => (w.1, w.2, w.2), ?_, ?_, ?_, rfl⟩⟩
    · rw [← hvariant, hleft, hsettings, List.map_map, List.map_map]
      rfl
    · rw [List.map_map]
      simpa [Function.comp_def] using hruns log
    · rw [List.map_map]
      rfl

def exampleFile (searchAlgorithms : List String) (parameters : List ParameterSpecification)
    (nonempty : parameters ≠ []) : Specification :=
  ⟨searchAlgorithms, [⟨"info.txt", "info.template", parameters, nonempty⟩], List.cons_ne_nil _ _⟩

/-- A scenario with a value for the first parameter. -/
def exampleScenario (value : ℤ) : Scenario :=
  ⟨0, [⟨OrdMap.empty.set 0 value, .rtsList, ["/main"]⟩]⟩

/-- A search over the first parameter alone. -/
def exampleSearch (p : TuningPlugin) (value : ℤ)
    (h : ∃ tp ∈ p.tuningParameters, tp.addr = 0 ∧
      value ∈ gridValues tp.rangeFrom tp.rangeTo tp.rangeStep) : Search p where
  created := [exampleScenario value]
  feasible := by
    intro scenario hscenario
    obtain rfl := List.mem_singleton.mp hscenario
    refine ⟨List.cons_ne_nil _ _, fun v hv => ?_⟩
    obtain rfl := List.mem_singleton.mp hv
    exact h
  optimum := exampleScenario value
  evaluated := List.mem_singleton.mpr rfl

/-- A range has no value strings: the preparation follows a missing one. Of three lists, with an
optimum of the individual search that leaves out two, the advice reports the second value of the
last one, whose first was written. -/
theorem not_agrees :
    ¬ Agrees (fun _ _ => 0) (exampleFile [] [⟨"P1", .intRange 2 8 (some 2)⟩] (by decide))
      (exampleSearch (.initialized (.refl ℕ)
        (exampleFile [] [⟨"P1", .intRange 2 8 (some 2)⟩] (by decide))) 4 (by decide)) ∧
    ¬ Agrees (fun _ _ => 0) (exampleFile ["individual"] [⟨"P1", .stringRange "1" ["2"]⟩,
        ⟨"P2", .stringRange "z7" ["x8"]⟩, ⟨"P3", .stringRange "a" ["b"]⟩] (by decide))
      (exampleSearch (.initialized (.refl ℕ) (exampleFile ["individual"]
        [⟨"P1", .stringRange "1" ["2"]⟩, ⟨"P2", .stringRange "z7" ["x8"]⟩,
          ⟨"P3", .stringRange "a" ["b"]⟩] (by decide))) 2 (by decide)) := by
  constructor
  · intro h
    obtain ⟨written, hwrites, -⟩ := h _ (List.mem_singleton.mpr rfl)
    have hreturns := hwrites.returns []
    cases hreturns
  · intro h
    obtain ⟨written, hwrites, hadvice⟩ := h _ (List.mem_singleton.mpr rfl)
    have hreturns := Outcome.ok.inj (hwrites.returns [])
    obtain ⟨log', hrun⟩ := hadvice rfl []
    have hreport := (Prod.mk.inj (Outcome.ok.inj hrun)).1
    have hwritten : (written.map command)[2]? = some (.setParameter "info.txt" "P3" "a") :=
      congrArg (fun log => log[3]?) hreturns.symm
    have hreported : (written.map fun w => (w.1.name, w.2))[2]? = some ("P3", "b") :=
      congrArg (fun report => report[2]?) hreport.symm
    rw [List.getElem?_map] at hwritten hreported
    obtain ⟨w, hw, hcommand⟩ := Option.map_eq_some_iff.mp hwritten
    rw [hw, Option.map_some, Option.some.injEq] at hreported
    have hvalue : "a" = "b" := by
      rw [← (Command.setParameter.inj hcommand).2.2, ← (Prod.mk.inj hreported).2]
    exact absurd hvalue (by decide)

end ReadexPtf.ReadexConfiguration
