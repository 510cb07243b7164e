import ReadexPtf.Lib.FirstOccurrences
import ReadexPtf.Scorep.TuningTables

/-! The tables as they grow: regions and actions get places in the order in which they first
come, as long as the sizes, which are doubled, fit into 16 bits. -/
namespace ReadexPtf.Scorep

structure AddCall where
  regionId : BitVec 32
  kind : BitVec 8
  name : Text
  value : Word

def State.addAll (state : State) (calls : List AddCall) : Outcome State :=
  calls.foldlM (fun state call =>
    state.addTuningAction call.regionId call.kind call.name call.value) state

/-- The actions of a region as an enter event finds them. -/
def Tables.actionsOf (tables : Tables) (regionId : BitVec 32) :
    Outcome (List (Text × BitVec 8 × Word)) :=
  match findRegion tables.regions regionId with
  | none => .ok []
  | some i => do
    let region ← Outcome.found tables.regions.entries[i]?
    region.tuningActions.entries.mapM fun parameter => do
      let action ← Outcome.found tables.actions.entries[parameter.tuningActionListIndex]?
      return (action.name, parameter.tuningActionKind, parameter.tuningParameterValue)

/-- Kind and value with which an action was last added for a region. -/
def latest (calls : List AddCall) (regionId : BitVec 32) (name : Text) :
    Option (BitVec 8 × Word) :=
  ((calls.filter fun call => call.regionId = regionId ∧ call.name = name).getLast?).map
    fun call => (call.kind, call.value)

/-- The tables after some calls. Each region and each action is stored once, has the place it got
first, and a lookup gives the actions of a region as they were added last. -/
structure TablesRight (variableAt functionValue : ℕ → Word) (calls : List AddCall)
    (state : State) : Prop where
  regions_fit : state.tables.regions.entries.length ≤ state.tables.regions.maxEntries
  actions_fit : state.tables.actions.entries.length ≤ state.tables.actions.maxEntries
  parameters_fit : ∀ region ∈ state.tables.regions.entries,
    region.tuningActions.entries.length ≤ region.tuningActions.maxEntries
  regions_once : (state.tables.regions.entries.map TuningRegion.regionId).Nodup ∧
    ∀ id, id ∈ state.tables.regions.entries.map TuningRegion.regionId ↔
      id ∈ calls.map AddCall.regionId
  actions_once : (state.tables.actions.entries.map TuningAction.name).Nodup ∧
    ∀ name, name ∈ state.tables.actions.entries.map TuningAction.name ↔
      name ∈ calls.map AddCall.name
  kept : ∀ before after, calls = before ++ after → ∃ earlier : State,
    (State.start variableAt functionValue).addAll before = .ok earlier ∧
      earlier.tables.regions.entries.map TuningRegion.regionId <+:
        state.tables.regions.entries.map TuningRegion.regionId ∧
      earlier.tables.actions.entries.map TuningAction.name <+:
        state.tables.actions.entries.map TuningAction.name
  found : ∀ regionId, ∃ actions, state.tables.actionsOf regionId = .ok actions ∧
    (actions.map Prod.fst).Nodup ∧ ∀ name kindValue,
      (name, kindValue) ∈ actions ↔ latest calls regionId name = some kindValue

/-- The number of places that a 16-bit size can have when it is doubled. -/
def maxPlaces : ℕ := 32768

/-- Not more different regions, nor different actions, than there are places. -/
def FewEnough (calls : List AddCall) : Prop :=
  (calls.map AddCall.regionId).eraseDups.length ≤ maxPlaces ∧
    (calls.map AddCall.name).eraseDups.length ≤ maxPlaces

section Sizes
variable {α : Type} {table table' : Table α} {entry : α}

/-- The size is a power of two that fits, and not less than what is used. -/
def Sized (table : Table α) : Prop :=
  (∃ j ≤ 15, table.maxEntries = 2 ^ j) ∧ table.entries.length ≤ table.maxEntries

theorem Sized.length_le (h : Sized table) : table.entries.length ≤ maxPlaces := by
  obtain ⟨⟨j, hj, hmax⟩, hused⟩ := h
  rw [hmax] at hused
  exact hused.trans (Nat.pow_le_pow_right two_pos hj)

theorem Sized.append (h : Sized table) (entry : α) (hlt : table.entries.length < maxPlaces) :
    ∃ table', table.append entry = .ok table' ∧ Sized table' ∧
      table'.entries = table.entries ++ [entry] := by
  obtain ⟨⟨j, hj, hmax⟩, hused⟩ := h
  rw [Table.append]
  split_ifs with hfull hzero
  · -- only the size 32768 has no double
    exfalso
    rw [hmax, ← pow_succ] at hzero
    rw [hfull, hmax] at hlt
    have hless : j < 15 := (Nat.pow_lt_pow_iff_right one_lt_two).mp hlt
    rw [Nat.mod_eq_of_lt (Nat.pow_lt_pow_right one_lt_two (by omega))] at hzero
    exact absurd hzero (pow_pos two_pos _).ne'
  · have hless : j < 15 := by
      rw [hfull, hmax] at hlt
      exact (Nat.pow_lt_pow_iff_right one_lt_two).mp hlt
    have hdouble : table.maxEntries * 2 % 2 ^ 16 = 2 ^ (j + 1) := by
      rw [hmax, ← pow_succ, Nat.mod_eq_of_lt (Nat.pow_lt_pow_right one_lt_two (by omega))]
    refine ⟨_, rfl, ⟨⟨j + 1, hless, hdouble⟩, ?_⟩, rfl⟩
    have hpos : 0 < 2 ^ j := pow_pos two_pos j
    rw [List.length_append, List.length_singleton, hfull]
    simp only
    rw [hdouble, hmax, pow_succ]
    omega
  · refine ⟨_, rfl, ⟨⟨j, hj, hmax⟩, ?_⟩, rfl⟩
    rw [List.length_append, List.length_singleton]
    simp only
    omega

theorem Sized.append_aborts (h : Sized table) (hfull : table.entries.length = maxPlaces) :
    table.append entry = .aborts := by
  obtain ⟨⟨j, hj, hmax⟩, hused⟩ := h
  have hle : 2 ^ 15 ≤ 2 ^ j := by
    rw [← hmax]
    exact hfull.symm.trans_le hused
  obtain rfl : j = 15 := le_antisymm hj ((Nat.pow_le_pow_iff_right one_lt_two).mp hle)
  rw [Table.append, if_pos (hfull.trans hmax.symm), if_pos (by rw [hmax]; decide)]

end Sizes

/-- The actions that were added for a region, in their first order. -/
def namesFor (calls : List AddCall) (regionId : BitVec 32) : List Text :=
  ((calls.filter fun call => call.regionId = regionId).map AddCall.name).eraseDups

/-- A region lists its actions by their places in the table, as they were added last. -/
structure ListsActions (calls : List AddCall) (names : List Text) (region : TuningRegion) :
    Prop where
  sized : Sized region.tuningActions
  indices : region.indices = (namesFor calls region.regionId).map names.idxOf
  lastAdded : ∀ parameter ∈ region.tuningActions.entries, ∀ name,
    names[parameter.tuningActionListIndex]? = some name →
      latest calls region.regionId name =
        some (parameter.tuningActionKind, parameter.tuningParameterValue)

/-- The tables say exactly what the calls said. -/
structure Filled (calls : List AddCall) (tables : Tables) : Prop where
  regions : Sized tables.regions
  actions : Sized tables.actions
  regionIds : tables.regions.entries.map TuningRegion.regionId =
    (calls.map AddCall.regionId).eraseDups
  names : tables.actions.entries.map TuningAction.name = (calls.map AddCall.name).eraseDups
  lists : ∀ region ∈ tables.regions.entries,
    ListsActions calls (tables.actions.entries.map TuningAction.name) region

section Growth
variable {calls : List AddCall} {call : AddCall} {names : List Text} {region : TuningRegion}

theorem namesFor_concat (calls : List AddCall) (call : AddCall) (regionId : BitVec 32) :
    namesFor (calls ++ [call]) regionId =
      if call.regionId = regionId ∧ call.name ∉ namesFor calls regionId then
        namesFor calls regionId ++ [call.name]
      else namesFor calls regionId := by
  rw [namesFor, List.filter_append]
  by_cases hid : call.regionId = regionId
  · rw [List.filter_cons_of_pos (by simpa using hid), List.filter_nil, List.map_append,
      List.map_singleton]
    by_cases hname : call.name ∈ namesFor calls regionId
    · rw [if_neg fun h => h.2 hname, eraseDups_concat_of_mem (List.mem_eraseDups.mp hname)]
      rfl
    · rw [if_pos ⟨hid, hname⟩,
        eraseDups_concat_of_notMem fun hmem => hname (List.mem_eraseDups.mpr hmem)]
      rfl
  · rw [List.filter_cons_of_neg (by simpa using hid), List.filter_nil, List.append_nil,
      if_neg fun h => hid h.1]
    rfl

theorem latest_concat (calls : List AddCall) (call : AddCall) (regionId : BitVec 32)
    (name : Text) : latest (calls ++ [call]) regionId name =
      if call.regionId = regionId ∧ call.name = name then some (call.kind, call.value)
      else latest calls regionId name := by
  rw [latest, List.filter_append]
  split_ifs with hmine
  · rw [List.filter_cons_of_pos (by simpa using hmine), List.filter_nil]
    simp
  · rw [List.filter_cons_of_neg (by simpa using hmine), List.filter_nil, List.append_nil]
    rfl

theorem mem_namesFor {regionId : BitVec 32} {name : Text} : name ∈ namesFor calls regionId ↔
    ∃ call ∈ calls, call.regionId = regionId ∧ call.name = name := by
  simp [namesFor, and_assoc]

theorem nodup_namesFor (calls : List AddCall) (regionId : BitVec 32) :
    (namesFor calls regionId).Nodup := nodup_eraseDups _

/-- The place of an action that occurs, and only of it. -/
theorem getElem?_eq_some_iff_idxOf (hnodup : names.Nodup) {name : Text} (hname : name ∈ names)
    {i : ℕ} : names[i]? = some name ↔ i = names.idxOf name := by
  constructor
  · intro h
    obtain ⟨hlt, rfl⟩ := List.getElem?_eq_some_iff.mp h
    exact (hnodup.idxOf_getElem i hlt).symm
  · rintro rfl
    exact List.getElem?_idxOf hname

/-- The value that the region has for the action is replaced. -/
theorem findActionOrAdd_of_mem (kind : BitVec 8) {location : ℕ} (value : Word)
    (hindex : location ∈ region.indices) :
    Tables.findActionOrAdd region kind location value =
        .ok { region with tuningActions := { region.tuningActions with
          entries := region.tuningActions.entries.set (region.indices.idxOf location)
            ⟨kind, value, location⟩ } } ∧
      TuningRegion.indices { region with tuningActions := { region.tuningActions with
        entries := region.tuningActions.entries.set (region.indices.idxOf location)
          ⟨kind, value, location⟩ } } = region.indices := by
  have hrun : Tables.findActionOrAdd region kind location value =
      .ok { region with tuningActions := { region.tuningActions with
        entries := region.tuningActions.entries.set (region.indices.idxOf location)
          ⟨kind, value, location⟩ } } := by
    rw [TuningRegion.indices] at hindex ⊢
    rw [Tables.findActionOrAdd]
    simp only [findIdx?_of_mem hindex]
  exact ⟨hrun, (findActionOrAdd_ok hrun).resolve_right fun hnew => hnew.1 hindex⟩

section Lists
variable (h : ListsActions calls names region)
  (hnames : ∀ name ∈ namesFor calls region.regionId, name ∈ names)
include h

include hnames in
theorem ListsActions.index_lt {parameter : TuningParameter}
    (hparameter : parameter ∈ region.tuningActions.entries) :
    parameter.tuningActionListIndex < names.length := by
  have hmem : parameter.tuningActionListIndex ∈ region.indices := List.mem_map_of_mem hparameter
  rw [h.indices] at hmem
  obtain ⟨name, hname, hindex⟩ := List.mem_map.mp hmem
  rw [← hindex]
  exact List.idxOf_lt_length_of_mem (hnames name hname)

include hnames in
/-- The table of actions grows. -/
theorem ListsActions.grow (later : List Text) : ListsActions calls (names ++ later) region := by
  refine ⟨h.sized, ?_, fun parameter hparameter name hname => ?_⟩
  · rw [h.indices]
    exact List.map_congr_left fun name hname => (List.idxOf_append_of_mem (hnames name hname)).symm
  · rw [List.getElem?_append_left (h.index_lt hnames hparameter)] at hname
    exact h.lastAdded parameter hparameter name hname

/-- A call for another region. -/
theorem ListsActions.other (hother : call.regionId ≠ region.regionId) :
    ListsActions (calls ++ [call]) names region := by
  refine ⟨h.sized, ?_, fun parameter hparameter name hname => ?_⟩
  · rw [namesFor_concat, if_neg fun hmine => hother hmine.1, h.indices]
  · rw [latest_concat, if_neg fun hmine => hother hmine.1]
    exact h.lastAdded parameter hparameter name hname

include hnames in
theorem ListsActions.nodup_indices : region.indices.Nodup := by
  rw [h.indices]
  exact (nodup_namesFor calls region.regionId).map_on fun name hname name' _ heq =>
    (List.idxOf_inj (hnames name hname)).mp heq

/-- The region of the call gets the action, or the value that it has now. -/
theorem ListsActions.add (hnodup : names.Nodup) (hmem : call.name ∈ names)
    (hnames : ∀ name ∈ namesFor calls region.regionId, name ∈ names)
    (hmine : call.regionId = region.regionId)
    (hless : call.name ∉ namesFor calls region.regionId →
      region.tuningActions.entries.length < maxPlaces) :
    ∃ region', Tables.findActionOrAdd region call.kind (names.idxOf call.name) call.value =
        .ok region' ∧ region'.regionId = region.regionId ∧
      ListsActions (calls ++ [call]) names region' := by
  have hlast : latest (calls ++ [call]) region.regionId call.name =
      some (call.kind, call.value) := by
    rw [latest_concat, if_pos ⟨hmine, rfl⟩]
  have hold : ∀ name, name ≠ call.name →
      latest (calls ++ [call]) region.regionId name = latest calls region.regionId name := by
    intro name hne
    rw [latest_concat, if_neg fun hboth => hne hboth.2.symm]
  have hplace : ∀ name, names[names.idxOf call.name]? = some name → name = call.name := by
    intro name hname
    rw [List.getElem?_idxOf hmem] at hname
    exact (Option.some.inj hname).symm
  by_cases hlisted : call.name ∈ namesFor calls region.regionId
  · have hindex : names.idxOf call.name ∈ region.indices := by
      rw [h.indices]
      exact List.mem_map_of_mem hlisted
    obtain ⟨hrun, hindices⟩ := findActionOrAdd_of_mem call.kind call.value hindex
    refine ⟨_, hrun, rfl, ⟨⟨h.sized.1, ?_⟩, ?_, ?_⟩⟩
    · simp only [List.length_set]
      exact h.sized.2
    · rw [hindices, h.indices, namesFor_concat, if_neg fun hnew => hnew.2 hlisted]
    · intro parameter hparameter name hname
      obtain ⟨j, hj, rfl⟩ := List.getElem_of_mem hparameter
      simp only [List.getElem_set] at hname ⊢
      simp only [List.length_set] at hj
      split_ifs at hname ⊢ with hi
      · rw [hplace name hname, hlast]
      · rw [hold, h.lastAdded _ (List.getElem_mem hj) name hname]
        rintro rfl
        rw [getElem?_eq_some_iff_idxOf hnodup hmem] at hname
        refine hi ?_
        rw [← hname]
        have hplaces := (h.nodup_indices hnames).idxOf_getElem j (by simpa [TuningRegion.indices])
        simpa [TuningRegion.indices] using hplaces
  · have hindex : names.idxOf call.name ∉
        region.tuningActions.entries.map TuningParameter.tuningActionListIndex := by
      change _ ∉ region.indices
      rw [h.indices]
      intro hmapped
      obtain ⟨name, hname, heq⟩ := List.mem_map.mp hmapped
      exact hlisted ((List.idxOf_inj (hnames name hname)).mp heq ▸ hname)
    obtain ⟨table, happend, hsized, hentries⟩ := h.sized.append
      ⟨call.kind, call.value, names.idxOf call.name⟩ (hless hlisted)
    refine ⟨{ region with tuningActions := table }, ?_, rfl, ⟨hsized, ?_, ?_⟩⟩
    · rw [Tables.findActionOrAdd]
      simp only [findIdx?_of_notMem hindex, happend]
      rfl
    · rw [TuningRegion.indices, hentries, List.map_append, namesFor_concat,
        if_pos ⟨hmine, hlisted⟩, List.map_append, ← h.indices]
      rfl
    · intro parameter hparameter name hname
      rw [hentries, List.mem_append, List.mem_singleton] at hparameter
      rcases hparameter with hparameter | rfl
      · rw [hold, h.lastAdded parameter hparameter name hname]
        rintro rfl
        rw [getElem?_eq_some_iff_idxOf hnodup hmem] at hname
        exact hindex (hname ▸ List.mem_map_of_mem hparameter)
      · rw [hplace name hname, hlast]

end Lists

section Places
variable {α κ : Type} [BEq κ] [LawfulBEq κ] [DecidableEq κ] {key : α → κ} {table : Table α}
  {l : List κ} {k : κ} {entry : α}

omit [BEq κ] [LawfulBEq κ] in
/-- What the lookups of regions and of actions have in common. -/
def Table.findOrAppend (table : Table α) (key : α → κ) (k : κ) (entry : α) :
    Outcome (Table α × ℕ) :=
  match table.entries.findIdx? fun a => key a = k with
  | some i => .ok (table, i)
  | none => do
    let added ← table.append entry
    return (added, table.entries.length)

theorem Sized.findOrAppend (h : Sized table) (hkeys : table.entries.map key = l.eraseDups)
    (entry : α) (hentry : key entry = k) (hfew : (l ++ [k]).eraseDups.length ≤ maxPlaces) : ∃ table',
      table.findOrAppend key k entry = .ok (table', (l ++ [k]).eraseDups.idxOf k) ∧
      Sized table' ∧ table'.entries.map key = (l ++ [k]).eraseDups ∧
      (table'.entries = table.entries ∨ k ∉ l ∧ table'.entries = table.entries ++ [entry]) := by
  rw [Table.findOrAppend]
  by_cases hk : k ∈ l
  · have hmem : k ∈ table.entries.map key := by rwa [hkeys, List.mem_eraseDups]
    rw [eraseDups_concat_of_mem hk, findIdx?_of_mem hmem, hkeys]
    exact ⟨table, rfl, h, hkeys, .inl rfl⟩
  · have hmem : k ∉ table.entries.map key := by rwa [hkeys, List.mem_eraseDups]
    have hlength : table.entries.length = l.eraseDups.length := by
      rw [← hkeys, List.length_map]
    rw [eraseDups_concat_of_notMem hk] at hfew ⊢
    rw [List.length_append, List.length_singleton] at hfew
    obtain ⟨table', happend, hsized, hentries⟩ := h.append entry (by omega)
    refine ⟨table', ?_, hsized, ?_, .inr ⟨hk, hentries⟩⟩
    · rw [findIdx?_of_notMem hmem, List.idxOf_append_of_notMem (by rwa [List.mem_eraseDups]),
        happend, hlength]
      simp
    · rw [hentries, List.map_append, hkeys, List.map_singleton, hentry]

theorem Sized.findOrAppend_aborts (h : Sized table)
    (hkeys : table.entries.map key = l.eraseDups)
    (hmany : ¬ (l ++ [k]).eraseDups.length ≤ maxPlaces) :
    table.findOrAppend key k entry = .aborts := by
  have hlength : table.entries.length = l.eraseDups.length := by
    rw [← hkeys, List.length_map]
  have hle := h.length_le
  have hk : k ∉ l := fun hk => hmany (by rw [eraseDups_concat_of_mem hk, ← hlength]; exact hle)
  have hmem : k ∉ table.entries.map key := by rwa [hkeys, List.mem_eraseDups]
  rw [eraseDups_concat_of_notMem hk, List.length_append, List.length_singleton] at hmany
  rw [Table.findOrAppend, findIdx?_of_notMem hmem, h.append_aborts (by omega)]
  rfl

end Places

section Steps
variable {tables : Tables} {state : State}

theorem findRegionOrAdd_eq (regions : Table TuningRegion) (regionId : BitVec 32) :
    Tables.findRegionOrAdd regions regionId =
      regions.findOrAppend TuningRegion.regionId regionId ⟨regionId, ⟨[], 4⟩⟩ := rfl

theorem findAction_eq (actions : Table TuningAction) (name : Text) :
    Tables.findAction actions name =
      actions.findOrAppend TuningAction.name name (emptyAction name) := rfl

/-- A region that no call was for yet. -/
theorem listsActions_empty {regionId : BitVec 32} (hnew : regionId ∉ calls.map AddCall.regionId) :
    ListsActions calls names ⟨regionId, ⟨[], 4⟩⟩ := by
  refine ⟨⟨⟨2, by decide, rfl⟩, Nat.zero_le 4⟩, ?_, fun _ hmem => absurd hmem List.not_mem_nil⟩
  have hnone : namesFor calls regionId = [] := by
    rw [List.eq_nil_iff_forall_not_mem]
    intro name hname
    obtain ⟨call, hcall, hid, -⟩ := mem_namesFor.mp hname
    exact hnew (hid ▸ List.mem_map_of_mem hcall)
  rw [hnone]
  rfl

theorem Filled.add (h : Filled calls state.tables) (hfew : FewEnough (calls ++ [call])) :
    ∃ state', state.addTuningAction call.regionId call.kind call.name call.value = .ok state' ∧
      Filled (calls ++ [call]) state'.tables := by
  obtain ⟨hfewRegions, hfewNames⟩ := hfew
  rw [List.map_append, List.map_singleton] at hfewRegions hfewNames
  obtain ⟨regions, hfindRegion, hregions, hids, hregionEntries⟩ :=
    h.regions.findOrAppend (k := call.regionId) h.regionIds ⟨call.regionId, ⟨[], 4⟩⟩ rfl
      hfewRegions
  obtain ⟨actions, hfindAction, hactions, hnames, hactionEntries⟩ :=
    h.actions.findOrAppend (k := call.name) h.names (emptyAction call.name) rfl hfewNames
  rw [← findRegionOrAdd_eq] at hfindRegion
  rw [← findAction_eq] at hfindAction
  rw [← hids] at hfindRegion
  rw [← hnames] at hfindAction
  have hidsNodup : (regions.entries.map TuningRegion.regionId).Nodup := by
    rw [hids]
    exact nodup_eraseDups _
  have hnamesNodup : (actions.entries.map TuningAction.name).Nodup := by
    rw [hnames]
    exact nodup_eraseDups _
  have hname : call.name ∈ actions.entries.map TuningAction.name := by
    rw [hnames, List.mem_eraseDups]
    simp
  have hnamesFor : ∀ regionId, ∀ name ∈ namesFor calls regionId,
      name ∈ actions.entries.map TuningAction.name := by
    intro regionId name hmem
    obtain ⟨earlier, hearlier, -, rfl⟩ := mem_namesFor.mp hmem
    rw [hnames, List.mem_eraseDups]
    exact List.mem_append_left _ (List.mem_map_of_mem hearlier)
  have hlists : ∀ region ∈ regions.entries,
      ListsActions calls (actions.entries.map TuningAction.name) region := by
    obtain ⟨later, hlater⟩ : ∃ later, actions.entries.map TuningAction.name =
        state.tables.actions.entries.map TuningAction.name ++ later := by
      rcases hactionEntries with hsame | ⟨-, hmore⟩
      · exact ⟨[], by rw [hsame, List.append_nil]⟩
      · exact ⟨_, by rw [hmore, List.map_append]⟩
    have hold : ∀ region ∈ state.tables.regions.entries,
        ListsActions calls (actions.entries.map TuningAction.name) region := by
      intro region hregion
      rw [hlater]
      refine (h.lists region hregion).grow (fun name hmem => ?_) later
      obtain ⟨earlier, hearlier, -, rfl⟩ := mem_namesFor.mp hmem
      rw [h.names, List.mem_eraseDups]
      exact List.mem_map_of_mem hearlier
    rcases hregionEntries with hsame | ⟨hnew, hmore⟩
    · rwa [hsame]
    · rw [hmore, List.forall_mem_append, List.forall_mem_singleton]
      exact ⟨hold, listsActions_empty hnew⟩
  -- the region of the call is at its place
  have hplaced : call.regionId ∈ regions.entries.map TuningRegion.regionId := by
    rw [hids, List.mem_eraseDups]
    simp
  obtain ⟨i, hi⟩ : ∃ i, i = (regions.entries.map TuningRegion.regionId).idxOf call.regionId :=
    ⟨_, rfl⟩
  have hget := List.getElem?_idxOf hplaced
  rw [← hi, List.getElem?_map, Option.map_eq_some_iff] at hget
  rw [← hi] at hfindRegion
  obtain ⟨region, hregion, hid⟩ := hget
  have hregionMem := List.mem_of_getElem? hregion
  obtain ⟨region', hrun, hid', hlisted⟩ := (hlists region hregionMem).add hnamesNodup hname
    (hnamesFor region.regionId) hid.symm fun hnew => by
      have hregionLists := hlists region hregionMem
      have hlength : region.tuningActions.entries.length =
          (namesFor calls region.regionId).length := by
        have hindices := congrArg List.length hregionLists.indices
        rwa [TuningRegion.indices, List.length_map, List.length_map] at hindices
      have hnodup : (call.name :: namesFor calls region.regionId).Nodup :=
        List.nodup_cons.mpr ⟨hnew, nodup_namesFor calls region.regionId⟩
      have hsub : call.name :: namesFor calls region.regionId ⊆
          actions.entries.map TuningAction.name := by
        rw [List.cons_subset]
        exact ⟨hname, hnamesFor region.regionId⟩
      have hle := (List.subperm_of_subset hnodup hsub).length_le
      have hplaces := hactions.length_le
      rw [List.length_cons, List.length_map] at hle
      omega
  have hset : (regions.entries.set i region').map TuningRegion.regionId =
      regions.entries.map TuningRegion.regionId := by
    rw [List.map_set, hid']
    obtain ⟨hlt, rfl⟩ := List.getElem?_eq_some_iff.mp hregion
    rw [← List.getElem_map TuningRegion.regionId (h := by rwa [List.length_map])]
    exact List.set_getElem_self _
  refine ⟨{ state with tables := ⟨{ regions with entries := regions.entries.set i region' },
    actions⟩ }, ?_, ⟨⟨hregions.1, ?_⟩, hactions, ?_, ?_, ?_⟩⟩
  · rw [State.addTuningAction, hfindRegion, Outcome.ok_bind]
    simp only
    rw [hfindAction, Outcome.ok_bind]
    simp only
    rw [hregion, Outcome.found, Outcome.ok_bind, hrun, Outcome.ok_bind]
    rfl
  · simp only [List.length_set]
    exact hregions.2
  · rw [List.map_append, List.map_singleton]
    exact hset.trans hids
  · rw [List.map_append, List.map_singleton]
    exact hnames
  · intro other hother
    obtain ⟨j, hj, rfl⟩ := List.getElem_of_mem hother
    simp only [List.length_set] at hj
    simp only [List.getElem_set]
    split_ifs with hij
    · exact hlisted
    · refine (hlists _ (List.getElem_mem hj)).other fun hsame => hij ?_
      have hplace := hidsNodup.idxOf_getElem j (by rwa [List.length_map])
      rw [List.getElem_map, ← hsame] at hplace
      rw [hi, hplace]

theorem Filled.add_aborts (h : Filled calls state.tables)
    (hmany : ¬ FewEnough (calls ++ [call])) :
    state.addTuningAction call.regionId call.kind call.name call.value = .aborts := by
  rw [FewEnough, not_and_or, List.map_append, List.map_append, List.map_singleton,
    List.map_singleton] at hmany
  rw [State.addTuningAction, findRegionOrAdd_eq]
  by_cases hregions : ((calls.map AddCall.regionId) ++ [call.regionId]).eraseDups.length ≤ maxPlaces
  · obtain ⟨regions, hfindRegion, -⟩ :=
      h.regions.findOrAppend (k := call.regionId) h.regionIds ⟨call.regionId, ⟨[], 4⟩⟩ rfl hregions
    rw [hfindRegion, Outcome.ok_bind, findAction_eq,
      h.actions.findOrAppend_aborts h.names (hmany.resolve_left (not_not.mpr hregions))]
    rfl
  · rw [h.regions.findOrAppend_aborts h.regionIds hregions]
    rfl

end Steps

theorem FewEnough.before {after : List AddCall} (h : FewEnough (calls ++ after)) :
    FewEnough calls := by
  obtain ⟨hregions, hnames⟩ := h
  rw [List.map_append] at hregions hnames
  exact ⟨(isPrefix_eraseDups _ _).length_le.trans hregions,
    (isPrefix_eraseDups _ _).length_le.trans hnames⟩

section Runs
variable {variableAt functionValue : ℕ → Word}

theorem filled_start : Filled [] (State.start variableAt functionValue).tables :=
  ⟨⟨⟨4, by decide, rfl⟩, Nat.zero_le 16⟩, ⟨⟨4, by decide, rfl⟩, Nat.zero_le 16⟩, rfl, rfl,
    fun _ hmem => absurd hmem List.not_mem_nil⟩

theorem State.addAll_concat (state : State) (calls : List AddCall) (call : AddCall) :
    state.addAll (calls ++ [call]) = (state.addAll calls >>= fun state =>
      state.addTuningAction call.regionId call.kind call.name call.value) := by
  rw [State.addAll, List.foldlM_append, State.addAll]
  simp only [List.foldlM_cons, List.foldlM_nil, bind_pure]

/-- Calls for few enough regions and actions fill the tables. -/
theorem addAll_filled (variableAt functionValue : ℕ → Word) (hfew : FewEnough calls) : ∃ state,
    (State.start variableAt functionValue).addAll calls = .ok state ∧
      Filled calls state.tables := by
  induction calls using List.reverseRecOn with
  | nil => exact ⟨_, rfl, filled_start⟩
  | append_singleton calls call ih =>
    obtain ⟨state, hrun, hfilled⟩ := ih hfew.before
    obtain ⟨state', hadd, hfilled'⟩ := hfilled.add hfew
    exact ⟨state', by rw [State.addAll_concat, hrun, Outcome.ok_bind, hadd], hfilled'⟩

/-- One region or one action too much, and the program ends. -/
theorem addAll_aborts (hmany : ¬ FewEnough calls) :
    (State.start variableAt functionValue).addAll calls = .aborts := by
  induction calls using List.reverseRecOn with
  | nil => exact absurd ⟨Nat.zero_le _, Nat.zero_le _⟩ hmany
  | append_singleton calls call ih =>
    rw [State.addAll_concat]
    by_cases hfew : FewEnough calls
    · obtain ⟨state, hrun, hfilled⟩ := addAll_filled variableAt functionValue hfew
      rw [hrun, Outcome.ok_bind, hfilled.add_aborts hmany]
    · rw [ih hfew]
      rfl

end Runs

section Lookups
variable {tables : Tables}

/-- A lookup finds the actions of a region in their first order, as they were added last. -/
theorem Filled.actionsOf_eq_ok (h : Filled calls tables) (regionId : BitVec 32) : ∃ actions,
    tables.actionsOf regionId = .ok actions ∧ actions.map Prod.fst = namesFor calls regionId ∧
      ∀ action ∈ actions, latest calls regionId action.1 = some action.2 := by
  rw [Tables.actionsOf]
  cases hfind : Tables.findRegion tables.regions regionId with
  | none =>
    refine ⟨[], rfl, ?_, fun _ hmem => absurd hmem List.not_mem_nil⟩
    rw [Tables.findRegion, List.findIdx?_eq_none_iff] at hfind
    symm
    rw [List.map_nil, List.eq_nil_iff_forall_not_mem]
    intro name hname
    obtain ⟨call, hcall, hid, -⟩ := mem_namesFor.mp hname
    have hstored : regionId ∈ tables.regions.entries.map TuningRegion.regionId := by
      rw [h.regionIds, List.mem_eraseDups, ← hid]
      exact List.mem_map_of_mem hcall
    obtain ⟨region, hregion, hsame⟩ := List.mem_map.mp hstored
    exact of_decide_eq_false (hfind region hregion) hsame
  | some i =>
    obtain ⟨region, hregion, rfl⟩ := findRegion_eq_some hfind
    have hlists := h.lists region (List.mem_of_getElem? hregion)
    have hnames : ∀ name ∈ namesFor calls region.regionId,
        name ∈ tables.actions.entries.map TuningAction.name := by
      intro name hmem
      obtain ⟨call, hcall, -, rfl⟩ := mem_namesFor.mp hmem
      rw [h.names, List.mem_eraseDups]
      exact List.mem_map_of_mem hcall
    have hread : ∀ parameter ∈ region.tuningActions.entries, ∃ action,
        tables.actions.entries[parameter.tuningActionListIndex]? = some action := by
      intro parameter hparameter
      have hlt := hlists.index_lt hnames hparameter
      rw [List.length_map] at hlt
      exact ⟨_, List.getElem?_eq_getElem hlt⟩
    have : Nonempty TuningAction := ⟨emptyAction []⟩
    choose! action haction using hread
    simp only
    rw [hregion, Outcome.found, Outcome.ok_bind, Outcome.mapM_eq_map
      (g := fun parameter => ((action parameter).name, parameter.tuningActionKind,
        parameter.tuningParameterValue)) fun parameter hparameter => by
          rw [haction parameter hparameter]
          rfl]
    refine ⟨_, rfl, ?_, fun entry hentry => ?_⟩
    · calc
        _ = region.indices.map fun i =>
              ((tables.actions.entries.map TuningAction.name)[i]?).getD [] := by
          rw [TuningRegion.indices, List.map_map, List.map_map]
          refine List.map_congr_left fun parameter hparameter => ?_
          simp [haction parameter hparameter]
        _ = (namesFor calls region.regionId).map id := by
          rw [hlists.indices, List.map_map]
          refine List.map_congr_left fun name hname => ?_
          rw [Function.comp_apply, List.getElem?_idxOf (hnames name hname)]
          rfl
        _ = namesFor calls region.regionId := List.map_id _
    · obtain ⟨parameter, hparameter, rfl⟩ := List.mem_map.mp hentry
      refine hlists.lastAdded parameter hparameter _ ?_
      rw [List.getElem?_map, haction parameter hparameter]
      rfl

end Lookups

theorem Filled.tablesRight {variableAt functionValue : ℕ → Word} {state : State}
    (h : Filled calls state.tables)
    (hrun : (State.start variableAt functionValue).addAll calls = .ok state)
    (hfew : FewEnough calls) : TablesRight variableAt functionValue calls state where
  regions_fit := h.regions.2
  actions_fit := h.actions.2
  parameters_fit region hregion := (h.lists region hregion).sized.2
  regions_once := by
    rw [h.regionIds]
    exact ⟨nodup_eraseDups _, fun _ => List.mem_eraseDups⟩
  actions_once := by
    rw [h.names]
    exact ⟨nodup_eraseDups _, fun _ => List.mem_eraseDups⟩
  kept before after heq := by
    subst heq
    obtain ⟨earlier, hearlier, hfilled⟩ := addAll_filled variableAt functionValue hfew.before
    refine ⟨earlier, hearlier, ?_, ?_⟩
    · rw [hfilled.regionIds, h.regionIds, List.map_append]
      exact isPrefix_eraseDups _ _
    · rw [hfilled.names, h.names, List.map_append]
      exact isPrefix_eraseDups _ _
  found regionId := by
    obtain ⟨actions, hactions, hnames, hlatest⟩ := h.actionsOf_eq_ok regionId
    refine ⟨actions, hactions, ?_, fun name kindValue => ⟨fun hmem => hlatest _ hmem, ?_⟩⟩
    · rw [hnames]
      exact nodup_namesFor calls regionId
    · intro hlast
      have hname : name ∈ namesFor calls regionId := by
        obtain ⟨call, hcall, -⟩ := Option.map_eq_some_iff.mp hlast
        have hmem := List.mem_of_getLast? hcall
        rw [List.mem_filter, decide_eq_true_iff] at hmem
        exact mem_namesFor.mpr ⟨call, hmem⟩
      rw [← hnames] at hname
      obtain ⟨action, hmem, rfl⟩ := List.mem_map.mp hname
      have hsame : action.2 = kindValue :=
        Option.some.inj ((hlatest action hmem).symm.trans hlast)
      rwa [← hsame]

/-- The tables are right exactly as long as the doubled sizes fit into 16 bits. -/
theorem tablesRight_iff (variableAt functionValue : ℕ → Word) (calls : List AddCall) :
    (∃ state, (State.start variableAt functionValue).addAll calls = .ok state ∧
      TablesRight variableAt functionValue calls state) ↔ FewEnough calls := by
  constructor
  · rintro ⟨state, hrun, -⟩
    by_contra hmany
    rw [addAll_aborts hmany] at hrun
    cases hrun
  · intro hfew
    obtain ⟨state, hrun, hfilled⟩ := addAll_filled variableAt functionValue hfew
    exact ⟨state, hrun, hfilled.tablesRight hrun hfew⟩

/-- One action for each of 32769 regions. -/
def manyRegions : List AddCall :=
  (List.range 32769).map fun n => ⟨BitVec.ofNat 32 n, 0, "threads".toList, 4⟩

/-- The size of the region table is doubled to 65536, which is 0 in 16 bits. -/
theorem not_tablesRight : ¬ ∃ state,
    (State.start (fun _ => 0) fun _ => 0).addAll manyRegions = .ok state ∧
      TablesRight (fun _ => 0) (fun _ => 0) manyRegions state := by
  rintro ⟨state, hrun, -⟩
  rw [addAll_aborts] at hrun
  · cases hrun
  · rintro ⟨hregions, -⟩
    have hids : manyRegions.map AddCall.regionId = (List.range 32769).map (BitVec.ofNat 32) := by
      rw [manyRegions, List.map_map]
      rfl
    have hnodup : ((List.range 32769).map (BitVec.ofNat 32)).Nodup := by
      refine List.nodup_range.map_on fun m hm n hn heq => ?_
      rw [List.mem_range] at hm hn
      have hval := congrArg BitVec.toNat heq
      rw [BitVec.toNat_ofNat, BitVec.toNat_ofNat, Nat.mod_eq_of_lt (by omega),
        Nat.mod_eq_of_lt (by omega)] at hval
      exact hval
    have hle := (List.subperm_of_subset hnodup fun id hid => List.mem_eraseDups.mpr hid).length_le
    rw [List.length_map, List.length_range, ← hids] at hle
    exact absurd (hle.trans hregions) (by decide)

end Growth

end ReadexPtf.Scorep
