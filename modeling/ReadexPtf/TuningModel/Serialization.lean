import ReadexPtf.TuningModel.Deserialization
import Mathlib

/-! `serialize`, and that `deserialize` gives the scenarios back. -/
namespace ReadexPtf.TuningModel
open ReadexPtf

/-- The region and input identifier objects by their addresses. -/
structure Heap where
  region : Address → RegionId
  iid : Address → Identifiers

/-- A runtime situation in memory, with its pointers. -/
structure RtsObject where
  callpath : Callpath
  region : Address
  iid : Address
  configuration : Configuration
  exectime : Dbl Rat
  scenario : Address

/-- A scenario in memory. Its constructor points its runtime situations to it. -/
structure ScenarioObject where
  addr : Address
  configuration : Configuration
  rtss : List RtsObject
  owned : ∀ rts ∈ rtss, rts.scenario = addr

/-- The set of scenarios: distinct objects have distinct addresses. -/
structure ScenarioSet where
  scenarios : List ScenarioObject
  nodup : (scenarios.map ScenarioObject.addr).Nodup

section Serialize
variable (π : Iteration) (heap : Heap)

def saveRts (rts : RtsObject) : RtsRecord :=
  ⟨rts.region, rts.scenario, rts.exectime, rts.iid, rts.callpath.map saveElement⟩

def saveValue (tv : TuningValue) : ValueRecord :=
  ⟨tv.parameter.name, ⟨tv.parameter.start, tv.parameter.start_fits⟩,
    ⟨tv.parameter.step, tv.parameter.step_fits⟩, ⟨tv.parameter.end_, tv.parameter.end_fits⟩,
    ⟨tv.value, tv.value_fits⟩⟩

def saveScenario (s : ScenarioObject) : ScenarioRecord :=
  ⟨s.addr, s.configuration.tvs.map saveValue⟩

def ScenarioSet.rtss (set : ScenarioSet) : List RtsObject :=
  set.scenarios.flatMap ScenarioObject.rtss

def serialize (set : ScenarioSet) : Archive where
  iids := ((π _).order (set.rtss.map RtsObject.iid).dedup).map fun addr =>
    ⟨addr, saveIdentifiers (heap.iid addr)⟩
  regions := ((π _).order (set.rtss.map RtsObject.region).dedup).map fun addr =>
    ⟨addr, heap.region addr⟩
  rtss := ((π _).order set.rtss).map saveRts
  scenarios := set.scenarios.map saveScenario

end Serialize

/-- Reading gave the runtime situation back, with the configuration `c`. -/
structure SameRts (heap : Heap) (object : RtsObject) (c : Configuration) (rts : Rts) : Prop where
  callpath : Callpath.equal rts.callpath object.callpath = true
  region : rts.region = heap.region object.region
  iid : rts.iid.equal (heap.iid object.iid) = true
  exectime : rts.exectime = object.exectime
  configuration : ∀ id, rts.configuration.tuning_value id = c.tuning_value id

/-- Reading gave the scenario back: its runtime situations and the value of every parameter. -/
structure SameScenario (heap : Heap) (object : ScenarioObject) (s : Scenario) : Prop where
  configuration : ∀ id, s.configuration.tuning_value id = object.configuration.tuning_value id
  rtss : ∃ back : RtsObject → Rts, s.rtss.Perm (object.rtss.map back) ∧
    ∀ rts ∈ object.rtss, SameRts heap rts object.configuration (back rts)

/-- The tuning values of the scenarios. -/
def ScenarioSet.values (set : ScenarioSet) : List TuningValue :=
  set.scenarios.flatMap fun s => s.configuration.tvs

/-- Values of one parameter name agree on its start, step and end. -/
def ScenarioSet.Agree (set : ScenarioSet) : Prop :=
  ∀ a ∈ set.values, ∀ b ∈ set.values, a.parameter.name = b.parameter.name →
    a.parameter.start = b.parameter.start ∧ a.parameter.step = b.parameter.step ∧
      a.parameter.end_ = b.parameter.end_

section RoundTrip
variable {π : Iteration} {heap : Heap} {set : ScenarioSet}

/-- What was saved can be loaded. -/
theorem loadable_save (ids : Identifiers) : ∀ r ∈ saveIdentifiers ids, r.Loadable := by
  by_contra hnot
  obtain ⟨ids', hload, -⟩ := loadIdentifiers_save (π := fun _ => .inserted) ids
  have hthrows := (loadIdentifiers_returnsIff (π := fun _ => .inserted) _).2 hnot
  rw [hload] at hthrows
  exact Outcome.not_throws_ok _ hthrows

/-- The table of input identifiers that comes from distinct addresses. -/
theorem loadIids_save (heap : Heap) {addrs : List Address} (hnodup : addrs.Nodup) :
    ∃ iids, loadIids π (addrs.map fun addr => ⟨addr, saveIdentifiers (heap.iid addr)⟩) =
        .ok iids ∧
      ∀ addr ∈ addrs, ∃ ids, iids.get? addr = some ids ∧ ids.equal (heap.iid addr) = true := by
  have hgood : ∀ iid ∈ addrs.map fun addr => (⟨addr, saveIdentifiers (heap.iid addr)⟩ : IidRecord),
      ∀ r ∈ iid.identifiers, r.Loadable := by
    rw [List.forall_mem_map]
    exact fun addr _ => loadable_save (heap.iid addr)
  obtain ⟨iids, hrun, -, hget⟩ := loadIids_spec (π := π) hgood
  refine ⟨iids, hrun, fun addr haddr => ?_⟩
  have hids : ((addrs.map fun addr => (⟨addr, saveIdentifiers (heap.iid addr)⟩ : IidRecord)).map
      IidRecord.id).Nodup := by
    rw [List.map_map]
    exact (List.map_id addrs).symm ▸ hnodup
  obtain ⟨ids, hload, hids⟩ := hget ⟨addr, saveIdentifiers (heap.iid addr)⟩
    ((find?_key_eq_some hids).mpr ⟨List.mem_map_of_mem haddr, rfl⟩)
  obtain ⟨ids', hsave, hequal⟩ := loadIdentifiers_save (π := π) (heap.iid addr)
  have hsame : ids' = ids := Outcome.ok.inj (hsave.symm.trans hload)
  exact ⟨ids, hids, hsame ▸ hequal⟩

theorem get?_loadRegions {addrs : List Address} {addr : Address} (haddr : addr ∈ addrs) :
    (loadRegions (addrs.map fun addr => ⟨addr, heap.region addr⟩)).get? addr =
      some (heap.region addr) := by
  rw [loadRegions, List.foldl_map, OrdMap.get?_foldl_insertNew (fun addr => addr) heap.region,
    OrdMap.get?_empty, Option.none_or]
  have hfind : addrs.find? (fun a => a = addr) = some addr := by
    cases hfind : addrs.find? (fun a => a = addr) with
    | none => exact absurd (decide_eq_true rfl) (List.find?_eq_none.mp hfind addr haddr)
    | some a => exact congrArg some (by simpa using List.find?_some hfind)
  rw [hfind]
  rfl

theorem get?_loadScenarios {s : ScenarioObject} (hs : s ∈ set.scenarios) :
    (loadScenarios (set.scenarios.map saveScenario)).get? s.addr =
      some (s.configuration.tvs.map saveValue) := by
  rw [loadScenarios, List.foldl_map]
  simp only [saveScenario]
  rw [OrdMap.get?_foldl_insertNew ScenarioObject.addr fun s => s.configuration.tvs.map saveValue,
    (find?_key_eq_some set.nodup).mpr ⟨hs, rfl⟩, OrdMap.get?_empty]
  rfl

/-- What the table of scenarios holds was saved from one of them. -/
theorem mem_loadScenarios {pair : Address × List ValueRecord}
    (h : pair ∈ (loadScenarios (set.scenarios.map saveScenario)).entries) :
    ∃ s ∈ set.scenarios, pair.2 = s.configuration.tvs.map saveValue := by
  have hget := OrdMap.get?_eq_some.mpr h
  rw [loadScenarios, List.foldl_map] at hget
  simp only [saveScenario] at hget
  rw [OrdMap.get?_foldl_insertNew ScenarioObject.addr fun s => s.configuration.tvs.map saveValue,
    OrdMap.get?_empty, Option.none_or, Option.map_eq_some_iff] at hget
  obtain ⟨s, hfind, heq⟩ := hget
  exact ⟨s, List.mem_of_find?_eq_some hfind, heq.symm⟩

/-- The parameter that the scenarios agree on by its name. -/
theorem ScenarioSet.Agree.parameter (hagree : set.Agree) :
    ∃ P : String → TuningParameter, ∀ tv ∈ set.values, P tv.parameter.name = tv.parameter := by
  refine ⟨fun name => ((set.values.find? fun tv => tv.parameter.name = name).map
    TuningValue.parameter).getD default, fun tv htv => ?_⟩
  cases hfind : set.values.find? fun it => it.parameter.name = tv.parameter.name with
  | none => exact absurd (decide_eq_true rfl) (List.find?_eq_none.mp hfind tv htv)
  | some it =>
    have hname : it.parameter.name = tv.parameter.name := by simpa using List.find?_some hfind
    obtain ⟨hstart, hstep, hend⟩ := hagree it (List.mem_of_find?_eq_some hfind) tv htv hname
    have hsame : it.parameter = tv.parameter := TuningParameter.ext hname hstart hstep hend
    simp only [hfind, Option.map_some, Option.getD_some, hsame]

/-- The table of parameters holds the parameter of every value that was saved. -/
theorem create_tuning_parameters_save (hagree : set.Agree) :
    ∃ tps, create_tuning_parameters π (loadScenarios (set.scenarios.map saveScenario)) =
        .ok tps ∧
      ∀ tv ∈ set.values, tps.get? tv.parameter.name = some tv.parameter := by
  obtain ⟨P, hP⟩ := hagree.parameter
  let table := loadScenarios (set.scenarios.map saveScenario)
  have hstep : ∀ tps, ∀ tv ∈ set.values, addTuningParameter tps (saveValue tv) =
      .ok (tps.set tv.parameter.name (P tv.parameter.name)) := by
    intro tps tv htv
    rw [addTuningParameter_eq, saveValue, tuning_parameter_self, hP tv htv]
    rfl
  have hinner : ∀ tps, ∀ pair ∈ (π _).order table.entries,
      ((π _).order pair.2).foldlM addTuningParameter tps =
        .ok (((π _).order pair.2).foldl (fun tps r => tps.set r.id (P r.id)) tps) := by
    intro tps pair hpair
    apply Outcome.foldlM_eq_foldl
    intro tps r hr
    obtain ⟨s, hs, hvalues⟩ := mem_loadScenarios ((Traversal.mem_order _).mp hpair)
    rw [Traversal.mem_order, hvalues] at hr
    obtain ⟨tv, htv, heq⟩ := List.mem_map.mp hr
    rw [← heq]
    exact hstep tps tv (List.mem_flatMap.mpr ⟨s, hs, htv⟩)
  refine ⟨_, Outcome.foldlM_eq_foldl hinner _, fun tv htv => ?_⟩
  rw [← List.foldl_flatMap, OrdMap.get?_foldl_set ValueRecord.id P, hP tv htv, if_pos]
  obtain ⟨s, hs, htvs⟩ := List.mem_flatMap.mp htv
  have hentry : (s.addr, s.configuration.tvs.map saveValue) ∈ table.entries :=
    OrdMap.get?_eq_some.mp (get?_loadScenarios hs)
  apply List.mem_map.mpr
  refine ⟨saveValue tv, List.mem_flatMap.mpr ⟨_, (Traversal.mem_order _).mpr hentry, ?_⟩, rfl⟩
  exact (Traversal.mem_order _).mpr (List.mem_map_of_mem htvs)

theorem tvs_add_tuning_value {c : Configuration} {tv : TuningValue}
    (h : tv.parameter.name ∉ c.tvs.map fun it => it.parameter.name) :
    (c.add_tuning_value π tv).tvs.Perm (c.tvs ++ [tv]) := by
  have hkept : c.tvs.filter (fun it => it.parameter.name ≠ tv.parameter.name) = c.tvs := by
    apply List.filter_eq_self.mpr
    intro it hit
    apply decide_eq_true
    exact fun heq => h (heq ▸ List.mem_map_of_mem hit)
  exact ((π _).perm _).trans (.of_eq (by rw [hkept]))

/-- Values of distinct parameters are added one after the other. -/
theorem tvs_foldl_add_tuning_value (l : List TuningValue) : ∀ c : Configuration,
    ((c.tvs ++ l).map fun it => it.parameter.name).Nodup →
    (l.foldl (fun c tv => c.add_tuning_value π tv) c).tvs.Perm (c.tvs ++ l) := by
  induction l with
  | nil => exact fun c _ => by simp
  | cons tv l ih =>
    intro c hnodup
    have hnew : tv.parameter.name ∉ c.tvs.map fun it => it.parameter.name := by
      rw [List.map_append, List.map_cons, List.nodup_append] at hnodup
      exact fun hmem => hnodup.2.2 _ hmem _ List.mem_cons_self rfl
    have hperm := tvs_add_tuning_value (π := π) hnew
    have hassoc : c.tvs ++ tv :: l = (c.tvs ++ [tv]) ++ l := by simp
    rw [hassoc] at hnodup ⊢
    have hnext := (hperm.append_right l).map fun it => it.parameter.name
    exact (ih _ (hnext.nodup_iff.mpr hnodup)).trans (hperm.append_right l)

/-- A saved configuration is converted back. -/
theorem convert_configuration_save {c : Configuration} {tps : OrdMap String TuningParameter}
    (htps : ∀ tv ∈ c.tvs, tps.get? tv.parameter.name = some tv.parameter) :
    ∃ c', convert_configuration π (c.tvs.map saveValue) tps = .ok c' ∧
      ∀ id, c'.tuning_value id = c.tuning_value id := by
  obtain ⟨l, hl, horder⟩ := Traversal.exists_of_perm_map ((π _).perm (c.tvs.map saveValue))
  have hstep : ∀ c' : Configuration, ∀ tv ∈ l,
      (do let value ← convert_tuning_value (saveValue tv) tps
          .ok (c'.add_tuning_value π value)) = Outcome.ok (c'.add_tuning_value π tv) := by
    intro c' tv htv
    have hfits : FitsInt (tv.value - tv.parameter.start) := tv.distance_fits
    rw [convert_tuning_value, saveValue, htps tv (hl.mem_iff.mp htv), Outcome.found,
      Outcome.ok_bind, tuning_value, dif_pos hfits]
    rfl
  refine ⟨l.foldl (fun c tv => c.add_tuning_value π tv) ⟨[], .nil⟩, ?_, fun id => ?_⟩
  · rw [convert_configuration, horder, List.foldlM_map]
    exact Outcome.foldlM_eq_foldl hstep _
  · apply Configuration.tuning_value_congr
    have hnodup : (l.map fun it => it.parameter.name).Nodup := (hl.map _).nodup_iff.mpr c.nodup
    exact (tvs_foldl_add_tuning_value l ⟨[], .nil⟩ hnodup).trans hl

/-- A saved runtime situation is loaded with its ids and an equal call path. -/
theorem loadRts_save (rts : RtsObject) :
    ∃ loaded, loadRts π (saveRts rts) = .ok loaded ∧ loaded.iid = rts.iid ∧
      loaded.region = rts.region ∧ loaded.exectime = rts.exectime ∧
      loaded.scenario = rts.scenario ∧ Callpath.equal loaded.callpath rts.callpath = true := by
  obtain ⟨cp, hload, hequal⟩ := loadCallpath_save (π := π) rts.callpath
  refine ⟨⟨rts.iid, rts.region, rts.exectime, rts.scenario, cp⟩, ?_, rfl, rfl, rfl, rfl, hequal⟩
  rw [loadRts, saveRts, hload]
  rfl

theorem filter_scenario_eq_nil {scenarios : List ScenarioObject} {addr : Address}
    (h : addr ∉ scenarios.map ScenarioObject.addr) :
    (scenarios.flatMap ScenarioObject.rtss).filter (fun rts => rts.scenario = addr) = [] := by
  apply List.filter_eq_nil_iff.mpr
  intro rts hrts heq
  obtain ⟨s, hs, hmem⟩ := List.mem_flatMap.mp hrts
  exact h (List.mem_map.mpr ⟨s, hs, (s.owned rts hmem).symm.trans (of_decide_eq_true heq)⟩)

/-- The runtime situations that point to a scenario are its own. -/
theorem filter_scenario {scenarios : List ScenarioObject}
    (hnodup : (scenarios.map ScenarioObject.addr).Nodup) {s : ScenarioObject}
    (hs : s ∈ scenarios) :
    (scenarios.flatMap ScenarioObject.rtss).filter (fun rts => rts.scenario = s.addr) =
      s.rtss := by
  induction scenarios with
  | nil => exact absurd hs List.not_mem_nil
  | cons x scenarios ih =>
    obtain ⟨hx, hrest⟩ := List.nodup_cons.mp hnodup
    rw [List.flatMap_cons, List.filter_append]
    cases List.mem_cons.mp hs with
    | inl heq =>
      have hown : x.rtss.filter (fun rts => rts.scenario = x.addr) = x.rtss :=
        List.filter_eq_self.mpr fun rts hrts => decide_eq_true (x.owned rts hrts)
      rw [heq, hown, filter_scenario_eq_nil hx, List.append_nil]
    | inr hmem =>
      have hother : x.rtss.filter (fun rts => rts.scenario = s.addr) = [] := by
        apply List.filter_eq_nil_iff.mpr
        intro rts hrts heq
        have haddr : x.addr = s.addr := (x.owned rts hrts).symm.trans (of_decide_eq_true heq)
        exact hx (haddr ▸ List.mem_map_of_mem hmem)
      rw [hother, ih hrest hmem, List.nil_append]

/-- The selector chooses one of the configurations it is given. -/
def SingleChoice (selector : List Configuration → Configuration) : Prop :=
  ∀ cs, cs ≠ [] → selector cs ∈ cs

/-- The scenario made of runtime situations that were read back is the one saved. -/
theorem sameScenario {selector : List Configuration → Configuration} (hsel : SingleChoice selector)
    {s : ScenarioObject} (hne : s.rtss ≠ []) {back : RtsObject → Rts}
    (hback : ∀ rts ∈ s.rtss, SameRts heap rts s.configuration (back rts)) {rtss : List Rts}
    (hrtss : rtss.Perm (s.rtss.map back)) :
    SameScenario heap s (scenario π selector rtss) := by
  refine ⟨fun id => ?_, back, hrtss, hback⟩
  have hsome : (π _).order (rtss.map Rts.configuration) ≠ [] := by
    have hlen := hrtss.length_eq
    rw [List.length_map] at hlen
    rw [← List.length_pos_iff, Traversal.length_order, List.length_map, hlen]
    exact List.length_pos_iff.mpr hne
  have hchosen := hsel _ hsome
  rw [Traversal.mem_order, List.mem_map] at hchosen
  obtain ⟨rts, hmem, hconfig⟩ := hchosen
  obtain ⟨object, hobject, heq⟩ := List.mem_map.mp (hrtss.mem_iff.mp hmem)
  rw [scenario, ← hconfig, ← heq]
  exact (hback object hobject).configuration id

theorem ScenarioSet.owner {rts : RtsObject} (h : rts ∈ set.rtss) :
    ∃ s ∈ set.scenarios, rts ∈ s.rtss ∧ rts.scenario = s.addr := by
  obtain ⟨s, hs, hmem⟩ := List.mem_flatMap.mp h
  exact ⟨s, hs, hmem, s.owned rts hmem⟩

/-- The map of converted runtime situations has one entry for each scenario. -/
theorem grouped_entries (hne : ∀ s ∈ set.scenarios, s.rtss ≠ []) {rtss : List RtsObject}
    (hperm : rtss.Perm set.rtss) (back : RtsObject → Rts) :
    (rtss.foldl (fun m rts => m.set rts.scenario ((m.get? rts.scenario).getD [] ++ [back rts]))
        OrdMap.empty).entries.Perm
      (set.scenarios.map fun s =>
        (s.addr, (rtss.filter fun rts => rts.scenario = s.addr).map back)) := by
  have hnodup : (set.scenarios.map fun s =>
      (s.addr, (rtss.filter fun rts => rts.scenario = s.addr).map back)).Nodup := by
    apply List.Nodup.of_map Prod.fst
    rw [List.map_map]
    exact set.nodup
  refine (List.perm_ext_iff_of_nodup (.of_map _ (OrdMap.keys_nodup _)) hnodup).mpr ?_
  intro ⟨k, group⟩
  rw [← OrdMap.get?_eq_some, OrdMap.get?_foldl_append RtsObject.scenario back, OrdMap.get?_empty,
    Option.getD_none, List.nil_append]
  constructor
  · intro h
    split_ifs at h with hk
    obtain ⟨rts, hrts, hscenario⟩ := List.mem_map.mp hk
    obtain ⟨s, hs, -, haddr⟩ := set.owner (hperm.mem_iff.mp hrts)
    have hsk : s.addr = k := haddr.symm.trans hscenario
    exact List.mem_map.mpr ⟨s, hs, by rw [hsk, Option.some.inj h]⟩
  · intro h
    obtain ⟨s, hs, heq⟩ := List.mem_map.mp h
    obtain ⟨haddr, hgroup⟩ := Prod.mk.inj heq
    obtain ⟨rts, hrts⟩ := List.exists_mem_of_ne_nil _ (hne s hs)
    have hmem : rts ∈ rtss := hperm.mem_iff.mpr (List.mem_flatMap.mpr ⟨s, hs, hrts⟩)
    have hk : k ∈ rtss.map RtsObject.scenario :=
      List.mem_map.mpr ⟨rts, hmem, (s.owned rts hrts).trans haddr⟩
    rw [if_pos hk, ← haddr, hgroup]

end RoundTrip

/-- `deserialize( serialize( S ) )` gives back the scenarios of `S`, each with its runtime
situations and with its configuration's value for every parameter. -/
theorem deserialize_serialize (π π' : Iteration) {selector : List Configuration → Configuration}
    (hsel : SingleChoice selector) (heap : Heap) {set : ScenarioSet} (hagree : set.Agree)
    (hne : ∀ s ∈ set.scenarios, s.rtss ≠ []) :
    ∃ out, deserialize π' selector (serialize π heap set) = .ok out ∧
      ∃ back : ScenarioObject → Scenario, out.Perm (set.scenarios.map back) ∧
        ∀ s ∈ set.scenarios, SameScenario heap s (back s) := by
  have haddrs : ∀ addrs : List Address, ((π _).order addrs.dedup).Nodup := fun addrs =>
    ((π _).perm _).nodup_iff.mpr (List.nodup_dedup addrs)
  obtain ⟨iids, hiids, hget⟩ := loadIids_save (π := π') heap
    (haddrs (set.rtss.map RtsObject.iid))
  obtain ⟨tps, htps, hparameter⟩ := create_tuning_parameters_save (π := π') hagree
  choose loaded hload hiid hregion hexectime hscenario hcallpath using loadRts_save (π := π')
  let scenarios := loadScenarios (set.scenarios.map saveScenario)
  let regions := loadRegions
    (((π _).order (set.rtss.map RtsObject.region).dedup).map fun addr => ⟨addr, heap.region addr⟩)
  have hregions : ∀ rts ∈ set.rtss, regions.get? rts.region = some (heap.region rts.region) := by
    intro rts hrts
    apply get?_loadRegions
    rw [Traversal.mem_order, List.mem_dedup]
    exact List.mem_map_of_mem hrts
  have hfound : ∀ rts ∈ set.rtss, ∃ ids, iids.get? rts.iid = some ids ∧
      ids.equal (heap.iid rts.iid) = true := by
    intro rts hrts
    apply hget
    rw [Traversal.mem_order, List.mem_dedup]
    exact List.mem_map_of_mem hrts
  have hconvert : ∀ rts ∈ set.rtss, ∃ rts', convertRts π' iids scenarios regions tps (loaded rts) =
      .ok rts' ∧ ∀ s ∈ set.scenarios, rts ∈ s.rtss → SameRts heap rts s.configuration rts' := by
    intro rts hrts
    obtain ⟨s, hs, -, haddr⟩ := set.owner hrts
    obtain ⟨ids, hids, hequal⟩ := hfound rts hrts
    obtain ⟨c, hc, hsame⟩ := convert_configuration_save (π := π') (c := s.configuration) fun tv htv =>
      hparameter tv (List.mem_flatMap.mpr ⟨s, hs, htv⟩)
    refine ⟨⟨(loaded rts).callpath, heap.region rts.region, ids, c, (loaded rts).exectime⟩, ?_, ?_⟩
    · rw [convertRts, hregion, hregions rts hrts, hiid, hids, hscenario, haddr,
        get?_loadScenarios hs]
      simp only [Outcome.found, Outcome.ok_bind, hc]
    · intro s' hs' hrts'
      have hsame' : s' = s := List.inj_on_of_nodup_map set.nodup hs' hs
        ((s'.owned rts hrts').symm.trans haddr)
      exact hsame' ▸ ⟨hcallpath rts, rfl, hequal, hexectime rts, hsame⟩
  choose! back hback hsame using hconvert
  obtain ⟨rtss, hrtss, horder⟩ := Traversal.exists_of_perm_map
    ((π' _).perm (((π _).order set.rtss).map loaded))
  have hperm : rtss.Perm set.rtss := hrtss.trans ((π _).perm _)
  have hmem : ∀ rts ∈ rtss, rts ∈ set.rtss := fun rts hrts => hperm.mem_iff.mp hrts
  have hloaded : (((π _).order set.rtss).map saveRts).mapM (loadRts π') =
      .ok (((π _).order set.rtss).map loaded) := by
    rw [List.mapM_map]
    exact Outcome.mapM_eq_map fun rts _ => hload rts
  have hvalid : ∀ rts ∈ rtss.map loaded, rts.iid ∈ iids.keys ∧ rts.scenario ∈ scenarios.keys ∧
      rts.region ∈ regions.keys := by
    rw [List.forall_mem_map]
    intro rts hrts
    obtain ⟨s, hs, -, haddr⟩ := set.owner (hmem rts hrts)
    obtain ⟨ids, hids, -⟩ := hfound rts (hmem rts hrts)
    refine ⟨OrdMap.mem_keys.mpr ⟨ids, by rw [hiid, hids]⟩, ?_, ?_⟩
    · exact OrdMap.mem_keys.mpr ⟨_, by rw [hscenario, haddr]; exact get?_loadScenarios hs⟩
    · exact OrdMap.mem_keys.mpr ⟨_, by rw [hregion]; exact hregions rts (hmem rts hrts)⟩
  obtain ⟨u, hu⟩ := (Outcome.ReturnsIff.foldlM (fun (_ : Unit) rts =>
    validate_returnsIff iids scenarios regions rts) (rtss.map loaded) ()).1 hvalid
  let rtsmap := rtss.foldl (fun m rts =>
    m.set rts.scenario ((m.get? rts.scenario).getD [] ++ [back rts])) OrdMap.empty
  have hadd : (rtss.map loaded).foldlM (addRts π' iids scenarios regions tps) .empty =
      .ok rtsmap := by
    rw [List.foldlM_map]
    apply Outcome.foldlM_eq_foldl
    intro m rts hrts
    rw [addRts, hback rts (hmem rts hrts), hscenario]
    rfl
  have hrun : deserialize π' selector (serialize π heap set) =
      .ok (((π' _).order rtsmap.entries).map fun pair => scenario π' selector pair.2) := by
    rw [deserialize, serialize]
    simp only [hiids, hloaded, Outcome.ok_bind]
    rw [htps, Outcome.ok_bind, horder, hu, Outcome.ok_bind, hadd, Outcome.ok_bind]
  refine ⟨_, hrun, fun s => scenario π' selector
    ((rtss.filter fun rts => rts.scenario = s.addr).map back), ?_, fun s hs => ?_⟩
  · have hentries := ((π' _).perm _).trans (grouped_entries hne hperm back)
    have hmap := hentries.map fun pair => scenario π' selector pair.2
    rw [List.map_map] at hmap
    exact hmap
  · have hown := filter_scenario set.nodup hs
    have hback' : ∀ rts ∈ s.rtss, SameRts heap rts s.configuration (back rts) := fun rts hrts =>
      hsame rts (List.mem_flatMap.mpr ⟨s, hs, hrts⟩) s hs hrts
    exact sameScenario hsel (hne s hs) hback' (((hperm.filter _).trans (.of_eq hown)).map back)

theorem singleChoice_random_selector : SingleChoice random_selector := by
  intro cs hcs
  cases cs with
  | nil => exact absurd rfl hcs
  | cons c cs => exact List.mem_cons_self

/-- A scenario with `p = 5` and a runtime situation with a negative identifier in its call
path. -/
def savedSet : ScenarioSet :=
  let p := tenSteps "p"
  let c : Configuration := ⟨[⟨p, 5, fits_five, by decide⟩], by decide⟩
  let ids : Identifiers := ⟨⟨[⟨-7, "x"⟩], by decide⟩, .empty, .empty⟩
  ⟨[⟨3, c, [⟨[⟨⟨0, "file", "caller"⟩, ids⟩], 2, 1, c, .fin 1, 3⟩], by decide⟩], by decide⟩

theorem deserialize_savedSet :
    let heap : Heap := ⟨fun _ => ⟨10, "file", "region"⟩, fun _ => .empty⟩
    ∃ out, deserialize (fun _ => .reverse) random_selector
        (serialize (fun _ => .inserted) heap savedSet) = .ok out ∧
      ∃ back : ScenarioObject → Scenario, out.Perm (savedSet.scenarios.map back) ∧
        ∀ s ∈ savedSet.scenarios, SameScenario heap s (back s) := by
  intro heap
  have hagree : savedSet.Agree := by
    intro a ha b hb _
    have hsame : a = b := (List.mem_singleton.mp ha).trans (List.mem_singleton.mp hb).symm
    exact hsame ▸ ⟨rfl, rfl, rfl⟩
  have hne : ∀ s ∈ savedSet.scenarios, s.rtss ≠ [] := by
    intro s hs
    rw [List.mem_singleton.mp hs]
    exact List.cons_ne_nil _ _
  exact deserialize_serialize _ _ singleChoice_random_selector heap hagree hne

end ReadexPtf.TuningModel
