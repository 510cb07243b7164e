import ReadexPtf.TuningModel.Archive
import Mathlib

/-! `deserialize`: the tables it builds from an archive, its validation, and exactly when
it throws. -/
namespace ReadexPtf.TuningModel
open ReadexPtf

/-- What the constructor needs: a step that `abs` and `%` accept, and a range that fits. -/
def Constructible (start step end_ : CInt) : Prop :=
  step.val ≠ 0 ∧ step.val ≠ intMin ∧ FitsInt (max start.val end_.val - min start.val end_.val)

instance (start step end_ : CInt) : Decidable (Constructible start step end_) :=
  inferInstanceAs (Decidable (_ ∧ _ ∧ _))

/-- What the constructor makes of its arguments satisfies the invariants. -/
theorem Constructible.normalized {start step end_ : CInt} (h : Constructible start step end_) :
    let lo := min start.val end_.val
    let hi := max start.val end_.val - (max start.val end_.val - lo).tmod step.val
    lo ≤ hi ∧ 0 < |step.val| ∧ |step.val| ∣ hi - lo ∧ FitsInt lo ∧ FitsInt |step.val| ∧
      FitsInt hi ∧ FitsInt (hi - lo) := by
  intro lo hi
  obtain ⟨hzero, hmin, hrange⟩ := h
  have hlo : lo = min start.val end_.val := rfl
  have hhi : hi = max start.val end_.val - (max start.val end_.val - lo).tmod step.val := rfl
  have hnonneg : 0 ≤ max start.val end_.val - lo := by omega
  have hcut : 0 ≤ (max start.val end_.val - lo).tmod step.val := Int.tmod_nonneg _ hnonneg
  have hle : ((max start.val end_.val - lo).tmod step.val).natAbs ≤
      (max start.val end_.val - lo).natAbs := by
    rw [Int.natAbs_tmod]
    exact Nat.mod_le _ _
  have hdvd : |step.val| ∣ max start.val end_.val - lo - (max start.val end_.val - lo).tmod step.val :=
    (abs_dvd _ _).mpr Int.dvd_self_sub_tmod
  generalize (max start.val end_.val - lo).tmod step.val = cut at *
  have hstart := start.2
  have hstep := step.2
  have hend := end_.2
  rw [← hlo] at hrange
  simp only [FitsInt, intMin, intMax] at *
  refine ⟨by omega, abs_pos.mpr hzero, ?_, by omega, ?_, by omega, by omega⟩
  · rwa [hhi, sub_right_comm]
  · obtain habs | habs := abs_choice step.val
    · omega
    · omega

/-- The constructor of `tuning_parameter`. -/
def tuning_parameter (name : String) (start step end_ : CInt) : Outcome TuningParameter :=
  if h : Constructible start step end_ then
    have hnormal := h.normalized
    .ok {
      name
      start := min start.val end_.val
      step := |step.val|
      end_ := max start.val end_.val -
        (max start.val end_.val - min start.val end_.val).tmod step.val
      ordered := hnormal.1
      step_pos := hnormal.2.1
      aligned := hnormal.2.2.1
      start_fits := hnormal.2.2.2.1
      step_fits := hnormal.2.2.2.2.1
      end_fits := hnormal.2.2.2.2.2.1
      range_fits := hnormal.2.2.2.2.2.2 }
  else .undefined

/-- A parameter is what its constructor makes of its own fields. -/
theorem tuning_parameter_self (p : TuningParameter) :
    tuning_parameter p.name ⟨p.start, p.start_fits⟩ ⟨p.step, p.step_fits⟩ ⟨p.end_, p.end_fits⟩ =
      .ok p := by
  have hmin : min p.start p.end_ = p.start := min_eq_left p.ordered
  have hmax : max p.start p.end_ = p.end_ := max_eq_right p.ordered
  have hcut : (p.end_ - p.start).tmod p.step = 0 := Int.tmod_eq_zero_of_dvd p.aligned
  have hstep : |p.step| = p.step := abs_of_pos p.step_pos
  have hconstructible : Constructible ⟨p.start, p.start_fits⟩ ⟨p.step, p.step_fits⟩
      ⟨p.end_, p.end_fits⟩ := by
    refine ⟨p.step_pos.ne', ?_, ?_⟩
    · have hpos := p.step_pos
      simp only [intMin]
      omega
    · simpa only [hmin, hmax] using p.range_fits
  rw [tuning_parameter, dif_pos hconstructible]
  simp only [hmin, hmax, hcut, hstep, sub_zero]

/-- The constructor of `tuning_value`, which reports a value off the grid and goes on. -/
def tuning_value (p : TuningParameter) (value : CInt) : Outcome TuningValue :=
  if h : FitsInt (value.val - p.start) then .ok ⟨p, value.val, value.2, h⟩ else .undefined

/-- `tvs_[ name ] = tv`. -/
def Configuration.add_tuning_value (π : Iteration) (c : Configuration) (tv : TuningValue) :
    Configuration where
  tvs := (π _).order (c.tvs.filter (fun it => it.parameter.name ≠ tv.parameter.name) ++ [tv])
  nodup := by
    refine (((π _).perm _).map _).nodup_iff.mpr ?_
    rw [List.map_append]
    refine List.Nodup.append (c.nodup.sublist (List.filter_sublist.map _)) (by simp) ?_
    simp [List.disjoint_singleton]

/-- A runtime situation with the objects that its pointers lead to. -/
structure Rts where
  callpath : Callpath
  region : RegionId
  iid : Identifiers
  configuration : Configuration
  exectime : Dbl Rat

instance : Inhabited Rts := ⟨⟨[], ⟨0, "", ""⟩, .empty, ⟨[], Configuration.distinct_nil⟩, .nan⟩⟩

structure Scenario where
  configuration : Configuration
  rtss : List Rts

/-- `cereal::rts`: a runtime situation whose ids are not resolved yet. -/
structure LoadedRts where
  iid : Address
  region : Address
  exectime : Dbl Rat
  scenario : Address
  callpath : Callpath

section Deserialize
variable (π : Iteration)

def loadRts (record : RtsRecord) : Outcome LoadedRts := do
  let callpath ← loadCallpath π record.callpath
  .ok ⟨record.iid, record.region, record.exectime, record.scenario, callpath⟩

/-- The first entry of an id stays. -/
def loadIids (records : List IidRecord) : Outcome (OrdMap Address Identifiers) :=
  records.foldlM (fun map record => do
    let ids ← loadIdentifiers π record.identifiers
    .ok (map.insertNew record.id ids)) .empty

def loadRegions (records : List RegionRecord) : OrdMap Address RegionId :=
  records.foldl (fun map record => map.insertNew record.id record.region) .empty

def loadScenarios (records : List ScenarioRecord) : OrdMap Address (List ValueRecord) :=
  records.foldl (fun map record => map.insertNew record.id record.configuration) .empty

/-- One tuning value of `create_tuning_parameters`. -/
def addTuningParameter (tps : OrdMap String TuningParameter) (tv : ValueRecord) :
    Outcome (OrdMap String TuningParameter) := do
  match tps.get? tv.id with
  | some tp =>
    if tp.start ≠ tv.start.val ∨ tp.step ≠ tv.step.val ∨ tp.end_ ≠ tv.end_.val then
      -- the exception object is made and dropped: there is no `throw`
      .ok ()
    else .ok ()
  | none => .ok ()
  let tp ← tuning_parameter tv.id tv.start tv.step tv.end_
  .ok (tps.set tv.id tp)

def create_tuning_parameters (scenarios : OrdMap Address (List ValueRecord)) :
    Outcome (OrdMap String TuningParameter) :=
  ((π _).order scenarios.entries).foldlM (fun tps pair =>
    ((π _).order pair.2).foldlM addTuningParameter tps) .empty

def convert_tuning_value (tv : ValueRecord) (tps : OrdMap String TuningParameter) :
    Outcome TuningValue := do
  let tp ← Outcome.found (tps.get? tv.id)
  tuning_value tp tv.value

def convert_configuration (srcconfig : List ValueRecord) (tps : OrdMap String TuningParameter) :
    Outcome Configuration :=
  ((π _).order srcconfig).foldlM (fun dstconfig tv => do
    let value ← convert_tuning_value tv tps
    .ok (dstconfig.add_tuning_value π value)) ⟨[], Configuration.distinct_nil⟩

/-- The checks of one runtime situation. -/
def validate (iids : OrdMap Address Identifiers) (scenarios : OrdMap Address (List ValueRecord))
    (regions : OrdMap Address RegionId) (rts : LoadedRts) : Outcome Unit :=
  if rts.iid ∉ iids.keys then .throws ("No input identifier found for id " ++ toString rts.iid)
  else if rts.scenario ∉ scenarios.keys then
    .throws ("No scenario found for id " ++ toString rts.scenario)
  else if rts.region ∉ regions.keys then
    .throws ("No region found for id " ++ toString rts.region)
  else .ok ()

/-- `dstrts`. -/
def convertRts (iids : OrdMap Address Identifiers) (scenarios : OrdMap Address (List ValueRecord))
    (regions : OrdMap Address RegionId) (tps : OrdMap String TuningParameter)
    (srcrts : LoadedRts) : Outcome Rts := do
  let region ← Outcome.found (regions.get? srcrts.region)
  let iid ← Outcome.found (iids.get? srcrts.iid)
  let srcconfig ← Outcome.found (scenarios.get? srcrts.scenario)
  let configuration ← convert_configuration π srcconfig tps
  .ok ⟨srcrts.callpath, region, iid, configuration, srcrts.exectime⟩

/-- Adds a converted runtime situation to those of its scenario. -/
def addRts (iids : OrdMap Address Identifiers) (scenarios : OrdMap Address (List ValueRecord))
    (regions : OrdMap Address RegionId) (tps : OrdMap String TuningParameter)
    (rtsmap : OrdMap Address (List Rts)) (srcrts : LoadedRts) :
    Outcome (OrdMap Address (List Rts)) := do
  let dstrts ← convertRts π iids scenarios regions tps srcrts
  .ok (rtsmap.set srcrts.scenario ((rtsmap.get? srcrts.scenario).getD [] ++ [dstrts]))

/-- The constructor of `scenario`. -/
def scenario (selector : List Configuration → Configuration) (rtss : List Rts) : Scenario :=
  ⟨selector ((π _).order (rtss.map Rts.configuration)), rtss⟩

def deserialize (selector : List Configuration → Configuration) (archive : Archive) :
    Outcome (List Scenario) := do
  let iids ← loadIids π archive.iids
  let regions := loadRegions archive.regions
  let rtss ← archive.rtss.mapM (loadRts π)
  let scenarios := loadScenarios archive.scenarios
  let tps ← create_tuning_parameters π scenarios
  ((π _).order rtss).foldlM (fun _ rts => validate iids scenarios regions rts) ()
  let rtsmap ← ((π _).order rtss).foldlM (addRts π iids scenarios regions tps) .empty
  .ok (((π _).order rtsmap.entries).map fun pair => scenario π selector pair.2)

end Deserialize

/-- The type of the identifier is known and its value is a number where it must be. -/
def IdentifierRecord.Loadable (record : IdentifierRecord) : Prop :=
  (record.type = "int" ∧ ∃ v, stoll record.value = .ok v) ∨
    (record.type = "uint" ∧ ∃ v, stoull record.value = .ok v) ∨ record.type = "string"

/-- The identifiers of an archive, those of the input ids and those in call paths. -/
def Archive.identifiers (archive : Archive) : List IdentifierRecord :=
  archive.iids.flatMap IidRecord.identifiers ++
    archive.rtss.flatMap fun record => record.callpath.flatMap ElementRecord.identifiers

section Throws
variable {π : Iteration}

theorem loadIdentifier_returnsIff (ids : Identifiers) (record : IdentifierRecord) :
    Outcome.ReturnsIff record.Loadable (loadIdentifier π ids record) := by
  rw [loadIdentifier, IdentifierRecord.Loadable]
  split_ifs with hint huint hstring
  · simpa [hint] using (stoll_returnsIff record.value).bind _
  · simpa [huint] using (stoull_returnsIff record.value).bind _
  · simp [hstring, Outcome.ReturnsIff]
  · simp [hint, huint, hstring, Outcome.ReturnsIff, Outcome.Throws]

theorem loadIdentifiers_returnsIff (records : List IdentifierRecord) :
    Outcome.ReturnsIff (∀ r ∈ records, r.Loadable) (loadIdentifiers π records) :=
  .foldlM loadIdentifier_returnsIff records _

theorem loadRts_returnsIff (record : RtsRecord) :
    Outcome.ReturnsIff (∀ e ∈ record.callpath, ∀ r ∈ e.identifiers, r.Loadable)
      (loadRts π record) := by
  have hcallpath : Outcome.ReturnsIff (∀ e ∈ record.callpath, ∀ r ∈ e.identifiers, r.Loadable)
      (loadCallpath π record.callpath) :=
    .mapM (fun e => (loadIdentifiers_returnsIff e.identifiers).bind _) record.callpath
  exact hcallpath.bind _

theorem loadIids_returnsIff (records : List IidRecord) :
    Outcome.ReturnsIff (∀ iid ∈ records, ∀ r ∈ iid.identifiers, r.Loadable)
      (loadIids π records) :=
  .foldlM (fun _ iid => (loadIdentifiers_returnsIff iid.identifiers).bind _) records _

/-- The table of the input identifiers: the first record of an id counts. -/
theorem loadIids_spec {records : List IidRecord}
    (hgood : ∀ iid ∈ records, ∀ r ∈ iid.identifiers, r.Loadable) :
    ∃ iids, loadIids π records = .ok iids ∧
      (∀ k, k ∈ iids.keys ↔ k ∈ records.map IidRecord.id) ∧
      ∀ r, records.find? (fun r' => r'.id = r.id) = some r →
        ∃ v, loadIdentifiers π r.identifiers = .ok v ∧ iids.get? r.id = some v := by
  have hloads : ∀ r ∈ records, ∃ ids, loadIdentifiers π r.identifiers = .ok ids := fun r hr =>
    (loadIdentifiers_returnsIff (π := π) r.identifiers).1 (hgood r hr)
  have hnonempty : Nonempty Identifiers := ⟨.empty⟩
  choose! load hload using hloads
  have hrun : loadIids π records =
      .ok (records.foldl (fun map r => map.insertNew r.id (load r)) .empty) := by
    apply Outcome.foldlM_eq_foldl
    intro map r hr
    rw [hload r hr]
    rfl
  refine ⟨_, hrun, fun k => OrdMap.mem_keys_foldl_insertNew IidRecord.id load records, ?_⟩
  intro r hfind
  refine ⟨load r, hload r (List.mem_of_find?_eq_some hfind), ?_⟩
  rw [OrdMap.get?_foldl_insertNew, hfind, OrdMap.get?_empty]
  rfl

theorem keep_loadRts {record : RtsRecord} {rts : LoadedRts} (h : loadRts π record = .ok rts) :
    (rts.iid, rts.scenario, rts.region) = (record.iid, record.scenario, record.region) := by
  obtain ⟨cp, -, heq⟩ := Outcome.bind_eq_ok.mp h
  rw [← Outcome.ok.inj heq]

/-- A parameter is replaced without a check: the exception of the check goes nowhere. -/
theorem addTuningParameter_eq (tps : OrdMap String TuningParameter) (tv : ValueRecord) :
    addTuningParameter tps tv = (do
      let tp ← tuning_parameter tv.id tv.start tv.step tv.end_
      .ok (tps.set tv.id tp)) := by
  rw [addTuningParameter]
  cases tps.get? tv.id with
  | none => rfl
  | some tp =>
    dsimp only
    rw [ite_self]
    rfl

/-- The parameter of the tuning value can be constructed. -/
def ValueRecord.Constructible (tv : ValueRecord) : Prop :=
  TuningModel.Constructible tv.start tv.step tv.end_

theorem addTuningParameter_returns {tv : ValueRecord} (h : tv.Constructible)
    (tps : OrdMap String TuningParameter) : ∃ tps', addTuningParameter tps tv = .ok tps' := by
  rw [ValueRecord.Constructible] at h
  rw [addTuningParameter_eq, tuning_parameter, dif_pos h]
  exact ⟨_, rfl⟩

theorem addTuningParameter_undefined {tv : ValueRecord} (h : ¬ tv.Constructible)
    (tps : OrdMap String TuningParameter) : addTuningParameter tps tv = .undefined := by
  rw [ValueRecord.Constructible] at h
  rw [addTuningParameter_eq, tuning_parameter, dif_neg h]
  rfl

theorem create_tuning_parameters_returns {scenarios : OrdMap Address (List ValueRecord)}
    (h : ∀ pair ∈ scenarios.entries, ∀ tv ∈ pair.2, tv.Constructible) :
    ∃ tps, create_tuning_parameters π scenarios = .ok tps := by
  apply Outcome.foldlM_returns
  intro tps pair hpair
  apply Outcome.foldlM_returns
  intro tps tv htv
  exact addTuningParameter_returns (h pair (by simpa using hpair) tv (by simpa using htv)) tps

theorem create_tuning_parameters_undefined {scenarios : OrdMap Address (List ValueRecord)}
    (h : ¬ ∀ pair ∈ scenarios.entries, ∀ tv ∈ pair.2, tv.Constructible) :
    create_tuning_parameters π scenarios = .undefined := by
  have hbind : ∀ (x : Outcome (OrdMap String TuningParameter))
      (g : OrdMap String TuningParameter → Outcome (OrdMap String TuningParameter)),
      x = .undefined → (x >>= g) = .undefined := fun x g hx => by rw [hx, Outcome.undefined_bind]
  have hpair : ∃ pair ∈ (π _).order scenarios.entries,
      ¬ ∀ tv ∈ (π _).order pair.2, tv.Constructible := by simpa using h
  refine Outcome.foldlM_stops (fun pair => ∀ tv ∈ (π _).order pair.2, tv.Constructible)
    hbind ?_ ?_ hpair _
  · intro tps pair hgood
    apply Outcome.foldlM_returns
    exact fun tps tv htv => addTuningParameter_returns (hgood tv htv) tps
  · intro tps pair hbad
    have htv : ∃ tv ∈ (π _).order pair.2, ¬ tv.Constructible := by simpa using hbad
    exact Outcome.foldlM_stops ValueRecord.Constructible hbind
      (fun tps tv h => addTuningParameter_returns h tps)
      (fun tps tv h => addTuningParameter_undefined h tps) htv tps

theorem validate_returnsIff (iids : OrdMap Address Identifiers)
    (scenarios : OrdMap Address (List ValueRecord)) (regions : OrdMap Address RegionId)
    (rts : LoadedRts) :
    Outcome.ReturnsIff
      (rts.iid ∈ iids.keys ∧ rts.scenario ∈ scenarios.keys ∧ rts.region ∈ regions.keys)
      (validate iids scenarios regions rts) := by
  rw [validate, Outcome.ReturnsIff, Outcome.Throws]
  by_cases hiid : rts.iid ∈ iids.keys
  · by_cases hscenario : rts.scenario ∈ scenarios.keys
    · by_cases hregion : rts.region ∈ regions.keys
      · simp [hiid, hscenario, hregion]
      · simp [hiid, hscenario, hregion]
    · simp [hiid, hscenario]
  · simp [hiid]

theorem addRts_not_throws {iids : OrdMap Address Identifiers}
    {scenarios : OrdMap Address (List ValueRecord)} {regions : OrdMap Address RegionId}
    {tps : OrdMap String TuningParameter} (rtsmap : OrdMap Address (List Rts))
    (srcrts : LoadedRts) :
    ¬ Outcome.Throws (addRts π iids scenarios regions tps rtsmap srcrts) := by
  apply Outcome.not_throws_bind _ fun _ => Outcome.not_throws_ok _
  apply Outcome.not_throws_bind (Outcome.not_throws_found _)
  intro region
  apply Outcome.not_throws_bind (Outcome.not_throws_found _)
  intro iid
  apply Outcome.not_throws_bind (Outcome.not_throws_found _)
  intro srcconfig
  apply Outcome.not_throws_bind _ fun _ => Outcome.not_throws_ok _
  apply Outcome.foldlM_not_throws
  intro c tv
  apply Outcome.not_throws_bind _ fun _ => Outcome.not_throws_ok _
  apply Outcome.not_throws_bind (Outcome.not_throws_found _)
  intro tp
  rw [tuning_value]
  split_ifs
  · exact Outcome.not_throws_ok _
  · exact Outcome.not_throws_undefined

/-- A runtime situation refers to an id that the archive does not define. -/
def Archive.Dangling (archive : Archive) : Prop :=
  ∃ rts ∈ archive.rtss, rts.iid ∉ archive.iids.map IidRecord.id ∨
    rts.scenario ∉ archive.scenarios.map ScenarioRecord.id ∨
    rts.region ∉ archive.regions.map RegionRecord.id

/-- The parameters of the scenarios that are kept can be constructed. -/
def Archive.ParametersConstructible (archive : Archive) : Prop :=
  ∀ pair ∈ (loadScenarios archive.scenarios).entries, ∀ tv ∈ pair.2, tv.Constructible

theorem Archive.all_loadable (archive : Archive) :
    (∀ r ∈ archive.identifiers, r.Loadable) ↔
      (∀ iid ∈ archive.iids, ∀ r ∈ iid.identifiers, r.Loadable) ∧
        ∀ rts ∈ archive.rtss, ∀ e ∈ rts.callpath, ∀ r ∈ e.identifiers, r.Loadable := by
  simp only [Archive.identifiers, List.forall_mem_append, List.forall_mem_flatMap]

/-- The checks on the loaded runtime situations see the dangling references. -/
theorem Archive.dangling_iff (archive : Archive) {iids : OrdMap Address Identifiers}
    (hkeys : ∀ k, k ∈ iids.keys ↔ k ∈ archive.iids.map IidRecord.id) {rtss : List LoadedRts}
    (hrun : archive.rtss.mapM (loadRts π) = .ok rtss) :
    archive.Dangling ↔ ¬ ∀ rts ∈ rtss, rts.iid ∈ iids.keys ∧
      rts.scenario ∈ (loadScenarios archive.scenarios).keys ∧
      rts.region ∈ (loadRegions archive.regions).keys := by
  have hsame := Outcome.map_of_mapM (fun _ _ h => keep_loadRts h) hrun
  have hvalid : (∀ rts ∈ rtss, rts.iid ∈ iids.keys ∧
      rts.scenario ∈ (loadScenarios archive.scenarios).keys ∧
      rts.region ∈ (loadRegions archive.regions).keys) ↔
      ∀ rts ∈ archive.rtss, rts.iid ∈ archive.iids.map IidRecord.id ∧
        rts.scenario ∈ archive.scenarios.map ScenarioRecord.id ∧
        rts.region ∈ archive.regions.map RegionRecord.id := by
    let refers : Address × Address × Address → Prop := fun ids =>
      ids.1 ∈ archive.iids.map IidRecord.id ∧ ids.2.1 ∈ archive.scenarios.map ScenarioRecord.id ∧
        ids.2.2 ∈ archive.regions.map RegionRecord.id
    calc (∀ rts ∈ rtss, _) ↔ ∀ ids ∈ rtss.map fun rts => (rts.iid, rts.scenario, rts.region),
          refers ids := by
          rw [List.forall_mem_map]
          refine forall₂_congr fun rts _ => ?_
          rw [hkeys, loadScenarios, OrdMap.mem_keys_foldl_insertNew, loadRegions,
            OrdMap.mem_keys_foldl_insertNew]
      _ ↔ _ := by rw [hsame, List.forall_mem_map]
  rw [hvalid, Archive.Dangling]
  constructor
  · intro ⟨rts, hrts, hbad⟩ hall
    obtain ⟨hiid, hscenario, hregion⟩ := hall rts hrts
    exact hbad.elim (fun h => h hiid) fun h => h.elim (fun h => h hscenario) fun h => h hregion
  · intro hnot
    by_contra hnone
    apply hnot
    intro rts hrts
    refine ⟨?_, ?_, ?_⟩
    · exact not_not.mp fun h => hnone ⟨rts, hrts, .inl h⟩
    · exact not_not.mp fun h => hnone ⟨rts, hrts, .inr (.inl h)⟩
    · exact not_not.mp fun h => hnone ⟨rts, hrts, .inr (.inr h)⟩

/-- An archive is rejected for an identifier that cannot be loaded, and else, if all its
parameters can be constructed, for a reference to an id it does not define. -/
theorem deserialize_throws_iff (selector : List Configuration → Configuration)
    (archive : Archive) :
    Outcome.Throws (deserialize π selector archive) ↔
      (∃ r ∈ archive.identifiers, ¬ r.Loadable) ∨
        archive.ParametersConstructible ∧ archive.Dangling := by
  have hidentifiers : (∃ r ∈ archive.identifiers, ¬ r.Loadable) ↔
      ¬ ((∀ iid ∈ archive.iids, ∀ r ∈ iid.identifiers, r.Loadable) ∧
        ∀ rts ∈ archive.rtss, ∀ e ∈ rts.callpath, ∀ r ∈ e.identifiers, r.Loadable) := by
    rw [← archive.all_loadable]
    simp
  rw [hidentifiers]
  by_cases hiids : ∀ iid ∈ archive.iids, ∀ r ∈ iid.identifiers, r.Loadable
  · obtain ⟨iids, hload, hkeys, -⟩ := loadIids_spec (π := π) hiids
    rw [deserialize, hload, Outcome.ok_bind]
    by_cases hrtss : ∀ rts ∈ archive.rtss, ∀ e ∈ rts.callpath, ∀ r ∈ e.identifiers, r.Loadable
    · obtain ⟨rtss, hrun⟩ := (Outcome.ReturnsIff.mapM loadRts_returnsIff archive.rtss).1 hrtss
      rw [hrun, Outcome.ok_bind]
      by_cases hparams : archive.ParametersConstructible
      · obtain ⟨tps, htps⟩ := create_tuning_parameters_returns (π := π) hparams
        have hvalid := Outcome.ReturnsIff.foldlM (fun (_ : Unit) rts =>
          validate_returnsIff iids (loadScenarios archive.scenarios) (loadRegions archive.regions)
            rts) ((π _).order rtss) ()
        have hdangling := archive.dangling_iff hkeys hrun
        simp only [Traversal.mem_order] at hvalid
        simp only [htps, Outcome.ok_bind]
        by_cases hdefined : archive.Dangling
        · have hthrows := hvalid.2 (hdangling.mp hdefined)
          exact iff_of_true (hthrows.bind _) (.inr ⟨hparams, hdefined⟩)
        · obtain ⟨u, hu⟩ := hvalid.1 (not_not.mp fun hnot => hdefined (hdangling.mpr hnot))
          rw [hu, Outcome.ok_bind]
          refine iff_of_false ?_ ?_
          · apply Outcome.not_throws_bind _ fun _ => Outcome.not_throws_ok _
            exact Outcome.foldlM_not_throws addRts_not_throws _ _
          · exact fun h => h.elim (fun hnot => hnot ⟨hiids, hrtss⟩) fun hboth => hdefined hboth.2
      · have hundefined := create_tuning_parameters_undefined (π := π) hparams
        simp only [hundefined, Outcome.undefined_bind]
        refine iff_of_false Outcome.not_throws_undefined ?_
        exact fun h => h.elim (fun hnot => hnot ⟨hiids, hrtss⟩) fun hboth => hparams hboth.1
    · have hthrows := (Outcome.ReturnsIff.mapM (loadRts_returnsIff (π := π)) archive.rtss).2 hrtss
      exact iff_of_true (hthrows.bind _) (.inl fun h => hrtss h.2)
  · have hthrows := (loadIids_returnsIff (π := π) archive.iids).2 hiids
    exact iff_of_true (hthrows.bind _) (.inl fun h => hiids h.1)

end Throws

/-- Two tuning values give one parameter name different starts, steps or ends. -/
def Archive.Conflict (archive : Archive) : Prop :=
  ∃ a ∈ archive.scenarios.flatMap ScenarioRecord.configuration,
    ∃ b ∈ archive.scenarios.flatMap ScenarioRecord.configuration,
      a.id = b.id ∧ ¬ (a.start = b.start ∧ a.step = b.step ∧ a.end_ = b.end_)

/-- Conflicting definitions are rejected exactly where the archive is rejected anyway. -/
theorem rejects_conflict_iff (π : Iteration) (selector : List Configuration → Configuration)
    (archive : Archive) :
    (archive.Conflict → Outcome.Throws (deserialize π selector archive)) ↔
      ¬ archive.Conflict ∨ (∃ r ∈ archive.identifiers, ¬ r.Loadable) ∨
        archive.ParametersConstructible ∧ archive.Dangling := by
  rw [deserialize_throws_iff, imp_iff_not_or]

/-- The first configuration, as the random selector chooses. -/
def random_selector (cs : List Configuration) : Configuration :=
  cs.headD ⟨[], Configuration.distinct_nil⟩

/-- A parameter `p` that ends at 10 in one scenario and at 20 in the other. -/
def conflictingArchive : Archive where
  iids := [⟨1, []⟩]
  regions := [⟨2, ⟨0, "file", "region"⟩⟩]
  rtss := [⟨2, 3, .fin 1, 1, []⟩]
  scenarios :=
    [⟨3, [⟨"p", ⟨0, fits_zero⟩, ⟨1, fits_one⟩, ⟨10, fits_ten⟩, ⟨5, fits_five⟩⟩]⟩,
      ⟨4, [⟨"p", ⟨0, fits_zero⟩, ⟨1, fits_one⟩, ⟨20, fits_twenty⟩, ⟨5, fits_five⟩⟩]⟩]

/-- It is read, and the scenario that was saved with the end 10 gets the end 20. -/
theorem conflict_overrides :
    conflictingArchive.Conflict ∧
    ∃ s, deserialize (fun _ => .inserted) random_selector conflictingArchive = .ok [s] ∧
      (s.configuration.tuning_value "p").map (fun tv => tv.parameter.end_) = some 20 := by
  refine ⟨⟨_, List.mem_cons_self, _, List.mem_cons_of_mem _ List.mem_cons_self, rfl, by decide⟩,
    _, rfl, ?_⟩
  decide

end ReadexPtf.TuningModel
