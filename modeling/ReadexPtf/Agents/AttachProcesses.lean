import ReadexPtf.Lib.Formatted
import ReadexPtf.Lib.IntLoop
import ReadexPtf.Lib.StableSort
import ReadexPtf.Registry.Server

/-! Which application processes an analysis agent is attached to: their ids and the entries of
the registry, both in order, are gone through side by side. -/
namespace ReadexPtf.Agents
open ReadexPtf.Registry

abbrev EntryData := ℤ × RegEntry ℤ

structure ApplProcess where
  sock : ℤ
  registryEntryId : ℤ
  port : ℤ
  rank : ℤ

structure Controlled where
  controlledProcesses : List ApplProcess
  totalNumProcesses : ℕ
  leader : Bool

inductive Init where
  | ok (s : Controlled)
  | exits (message : Text)

def searchError (id : ℤ) : Text :=
  "Error searching for process id: ".toList ++ decimal id ++ ".\n".toList

def attachError (id : ℤ) (entry : RegEntry ℤ) : Text :=
  "Error in attaching to application process: ".toList ++ decimal id ++ " (".toList ++ entry.node ++
    ":".toList ++ decimal entry.port ++ ")\n".toList

def queryError (app_name : Text) : Text :=
  "Error querying registry for application ".toList ++ app_name ++ "\n".toList

def compareRegistryEntries (e1 e2 : EntryData) : Prop := e1.1 < e2.1
instance (e1 e2 : EntryData) : Decidable (compareRegistryEntries e1 e2) :=
  inferInstanceAs (Decidable (_ < _))

/-- `list::sort` keeps the order of entries of which none is less. -/
def sortEntries (rresult : List EntryData) : List EntryData :=
  rresult.insertionSort fun e1 e2 => ¬ compareRegistryEntries e2 e1

/-- The inner loop: the entry that is found, and those that the iterator has not come to. -/
def findEntry (id : ℤ) : List EntryData → Option (RegEntry ℤ × List EntryData)
  | [] => none
  | entry :: entries => if entry.1 = id then some (entry.2, entries) else findEntry id entries

section Init
variable (connect : ℕ → Text → ℤ → ℤ)

/-- A process that has been found. `connect` gets the number of processes before it. -/
def Controlled.attach (s : Controlled) (id : ℤ) (entry : RegEntry ℤ) (total : ℕ) :
    Outcome Init := do
  let sock := connect s.controlledProcesses.length entry.node entry.port
  let rank ← if FitsInt (entry.pid - 1) then Outcome.ok (entry.pid - 1) else .undefined
  let leader := s.leader || rank = 0
  if sock = -1 then return .exits (attachError id entry)
  return .ok ⟨s.controlledProcesses ++ [⟨sock, id, entry.port, rank⟩], total, leader⟩

/-- The outer loop ends with the ids, or with the entries. -/
def attachAll (total : ℕ) : List ℤ → List EntryData → Controlled → Outcome Init
  | [], _, s => .ok (.ok s)
  | _ :: _, [], s => .ok (.ok s)
  | id :: ids, entries, s =>
    match findEntry id entries with
    | none => .ok (.exits (searchError id))
    | some (entry, later) => do
      match ← s.attach connect id entry total with
      | .exits message => return .exits message
      | .ok s => attachAll total ids later s

/-- `DataProvider::init` without the fast mode; the registry answers with a list, or not. -/
def init (app_name : Text) (query_entries : Option (List EntryData)) (process_entries : List ℤ)
    (s : Controlled) : Outcome Init :=
  match query_entries with
  | none => .ok (.exits (queryError app_name))
  | some rresult =>
    attachAll connect rresult.length (process_entries.insertionSort (· ≤ ·)) (sortEntries rresult) s

/-- The process of an entry. -/
def AttachedTo (entries : List EntryData) (process : ApplProcess) : Prop :=
  ∃ entry, (process.registryEntryId, entry) ∈ entries ∧ process.port = entry.port ∧
    process.rank = entry.pid - 1 ∧ ∃ n, process.sock = connect n entry.node entry.port

/-- All processes are attached to, each once, or an id is reported that is not registered. -/
def AllAttached (app_name : Text) (rresult : List EntryData) (ids : List ℤ) (s : Controlled) :
    Prop :=
  (∃ s' processes, init connect app_name (some rresult) ids s = .ok (.ok s') ∧
    s'.controlledProcesses = s.controlledProcesses ++ processes ∧
    (processes.map ApplProcess.registryEntryId).Perm ids ∧
    ∀ process ∈ processes, AttachedTo connect rresult process) ∨
  ∃ id ∈ ids, id ∉ rresult.map Prod.fst ∧
    init connect app_name (some rresult) ids s = .ok (.exits (searchError id))

end Init

/-- A missing id is noticed where an entry is left for it: one of a greater id, or the last one
of all, where that is not used up by its own process. -/
def Noticed (ids registered : List ℤ) : Prop :=
  (∃ id ∈ ids, id ∉ registered ∧ ∃ r ∈ registered, id < r) ∨
  ∃ g ∈ registered, (∀ r ∈ registered, r ≤ g) ∧ (g ∉ ids ∨ 2 ≤ registered.count g)

/-- Where an id and those before it are registered, its entry gives a rank. -/
def RanksFit (rresult : List EntryData) (ids : List ℤ) : Prop :=
  ∀ id ∈ ids, (∀ id' ∈ ids, id' < id → id' ∈ rresult.map Prod.fst) →
    ∀ entry, rresult.find? (·.1 = id) = some (id, entry) → FitsInt (entry.pid - 1)

section Search
variable {entries : List EntryData} {id : ℤ}

theorem sortEntries_eq (rresult : List EntryData) :
    sortEntries rresult = stableSort Prod.fst rresult := by
  rw [sortEntries, stableSort]
  congr 1

theorem sortEntries_sorted (rresult : List EntryData) :
    (sortEntries rresult).Pairwise (·.1 ≤ ·.1) := by
  rw [sortEntries_eq]
  exact StableSort.sorted rresult

theorem sortEntries_perm (rresult : List EntryData) : (sortEntries rresult).Perm rresult := by
  rw [sortEntries_eq]
  exact StableSort.perm rresult

theorem findEntry_eq_none : findEntry id entries = none ↔ id ∉ entries.map Prod.fst := by
  induction entries with
  | nil => simp [findEntry]
  | cons entry entries ih =>
    rw [findEntry, List.map_cons, List.mem_cons, not_or, ← ih]
    split_ifs with heq
    · simp [heq]
    · simp [Ne.symm heq]

/-- What is found, and what is left then. -/
theorem findEntry_eq_some {entry : RegEntry ℤ} {later : List EntryData}
    (h : findEntry id entries = some (entry, later)) : ∃ skipped : List EntryData,
      entries = skipped ++ (id, entry) :: later ∧ id ∉ skipped.map Prod.fst := by
  induction entries with
  | nil => cases h
  | cons e entries ih =>
    rw [findEntry] at h
    split_ifs at h with heq
    · obtain ⟨rfl, rfl⟩ := Prod.mk.inj (Option.some.inj h)
      exact ⟨[], by rw [← heq]; rfl, List.not_mem_nil⟩
    · obtain ⟨skipped, rfl, hnot⟩ := ih h
      refine ⟨e :: skipped, rfl, ?_⟩
      rw [List.map_cons, List.mem_cons, not_or]
      exact ⟨Ne.symm heq, hnot⟩

end Search

section Attach
variable {connect : ℕ → Text → ℤ → ℤ} {total : ℕ}

/-- The process of the id can be attached to. -/
def Ready (entries : List EntryData) (id : ℤ) : Prop :=
  ∃ entry later, findEntry id entries = some (entry, later) ∧ FitsInt (entry.pid - 1)

/-- What attaching to the processes of some ids leaves. -/
structure AttachedUntil (connect : ℕ → Text → ℤ → ℤ) (entries : List EntryData) (ids : List ℤ)
    (s s' : Controlled) (later : List EntryData) : Prop where
  attached : ∃ processes, s'.controlledProcesses = s.controlledProcesses ++ processes ∧
    processes.map ApplProcess.registryEntryId = ids ∧
    ∀ process ∈ processes, AttachedTo connect entries process
  find : ∀ id, (∀ id' ∈ ids, id' < id) → findEntry id later = findEntry id entries
  used_up : later = [] ↔ entries = [] ∨ ∃ g ∈ ids, (entries.map Prod.fst).count g = 1 ∧
    ∀ r ∈ entries.map Prod.fst, r ≤ g

theorem findEntry_skipped {id id' : ℤ} {entry : RegEntry ℤ} {skipped later : List EntryData}
    (hsorted : (skipped ++ (id, entry) :: later).Pairwise (·.1 ≤ ·.1)) (hlt : id < id') :
    findEntry id' (skipped ++ (id, entry) :: later) = findEntry id' later := by
  induction skipped with
  | nil => rw [List.nil_append, findEntry, if_neg hlt.ne]
  | cons e skipped ih =>
    rw [List.cons_append, List.pairwise_cons] at hsorted
    have he : e.1 ≤ id := hsorted.1 (id, entry) (by simp)
    rw [List.cons_append, findEntry, if_neg (he.trans_lt hlt).ne, ih hsorted.2]

theorem find?_of_findEntry {id : ℤ} {entry : RegEntry ℤ} {entries later : List EntryData}
    (h : findEntry id entries = some (entry, later)) :
    entries.find? (·.1 = id) = some (id, entry) := by
  obtain ⟨skipped, rfl, hnot⟩ := findEntry_eq_some h
  rw [List.find?_append, List.find?_eq_none.mpr, Option.none_or, List.find?_cons_of_pos]
  · exact decide_eq_true rfl
  · intro e he heq
    exact hnot (of_decide_eq_true heq ▸ List.mem_map_of_mem he)

/-- The step of `used_up`: the entry of `id` is used, and `skipped` is passed over. -/
theorem usedUp_cons {id : ℤ} {ids : List ℤ} {entry : RegEntry ℤ} {skipped later : List EntryData}
    (hids : (id :: ids).Pairwise (· < ·))
    (hsorted : (skipped ++ (id, entry) :: later).Pairwise (·.1 ≤ ·.1))
    (hskipped : id ∉ skipped.map Prod.fst) :
    (later = [] ∨ ∃ g ∈ ids, (later.map Prod.fst).count g = 1 ∧ ∀ r ∈ later.map Prod.fst, r ≤ g) ↔
      ∃ g ∈ id :: ids, ((skipped ++ (id, entry) :: later).map Prod.fst).count g = 1 ∧
        ∀ r ∈ (skipped ++ (id, entry) :: later).map Prod.fst, r ≤ g := by
  obtain ⟨-, hrest, hbefore⟩ := List.pairwise_append.mp hsorted
  have hlater : ∀ r ∈ later.map Prod.fst, id ≤ r := by
    intro r hr
    obtain ⟨e, he, rfl⟩ := List.mem_map.mp hr
    exact List.rel_of_pairwise_cons hrest he
  have hless : ∀ r ∈ skipped.map Prod.fst, r < id := by
    intro r hr
    obtain ⟨e, he, rfl⟩ := List.mem_map.mp hr
    have hle := hbefore e he (id, entry) List.mem_cons_self
    exact lt_of_le_of_ne hle fun heq => hskipped (heq ▸ hr)
  have hnot : ∀ g, id ≤ g → (skipped.map Prod.fst).count g = 0 := fun g hg =>
    List.count_eq_zero_of_not_mem fun hmem => absurd (hless g hmem) (not_lt.mpr hg)
  simp only [List.map_append, List.map_cons, List.count_append, List.forall_mem_append,
    List.forall_mem_cons, List.exists_mem_cons_iff, hnot id le_rfl, List.count_cons_self]
  have hnext : ∀ g ∈ ids, id < g := fun g => List.rel_of_pairwise_cons hids
  constructor
  · rintro (rfl | ⟨g, hg, hcount, hmax⟩)
    · exact .inl ⟨by simp, fun r hr => (hless r hr).le, le_rfl, List.forall_mem_nil _⟩
    · have hgt := hnext g hg
      refine .inr ⟨g, hg, ?_, fun r hr => ((hless r hr).trans hgt).le, hgt.le, hmax⟩
      rw [hnot g hgt.le, List.count_cons_of_ne hgt.ne, hcount]
  · rintro (⟨hcount, -, -, hmax⟩ | ⟨g, hg, hcount, -, -, hmax⟩)
    · -- another entry behind that of `id` would have the same id
      refine .inl (List.eq_nil_iff_forall_not_mem.mpr fun e he => ?_)
      have hmem : e.1 ∈ later.map Prod.fst := List.mem_map_of_mem he
      have heq : e.1 = id := le_antisymm (hmax _ hmem) (hlater _ hmem)
      have hpos : 0 < (later.map Prod.fst).count id := List.count_pos_iff.mpr (heq ▸ hmem)
      omega
    · have hgt := hnext g hg
      rw [hnot g hgt.le, List.count_cons_of_ne hgt.ne, zero_add] at hcount
      exact .inr ⟨g, hg, hcount, hmax⟩

theorem attach_eq {s : Controlled} {id : ℤ} {entry : RegEntry ℤ}
    (hconnect : ∀ n node port, connect n node port ≠ -1) :
    s.attach connect id entry total =
      if FitsInt (entry.pid - 1) then
        .ok (.ok ⟨s.controlledProcesses ++ [⟨connect s.controlledProcesses.length entry.node entry.port,
          id, entry.port, entry.pid - 1⟩], total, s.leader || entry.pid - 1 = 0⟩)
      else .undefined := by
  rw [Controlled.attach]
  by_cases hfits : FitsInt (entry.pid - 1)
  · simp only [if_pos hfits, Outcome.ok_bind, if_neg (hconnect _ _ _)]
    rfl
  · simp only [if_neg hfits, Outcome.undefined_bind]

/-- The ids before the first one that is not registered or has no rank. -/
theorem attachAll_append (total : ℕ) (hconnect : ∀ n node port, connect n node port ≠ -1)
    (ids : List ℤ) : ∀ (entries : List EntryData) (s : Controlled), ids.Pairwise (· < ·) →
      entries.Pairwise (·.1 ≤ ·.1) →
      (∀ id ∈ ids, Ready entries id) → ∃ s' later, AttachedUntil connect entries ids s s' later ∧
        ∀ ids', attachAll connect total (ids ++ ids') entries s =
          attachAll connect total ids' later s' := by
  induction ids with
  | nil =>
    intro entries s _ _ _
    refine ⟨s, entries, ⟨⟨[], (List.append_nil _).symm, rfl, List.forall_mem_nil _⟩,
      fun _ _ => rfl, ?_⟩, fun _ => rfl⟩
    simp
  | cons id ids ih =>
    intro entries s hids hsorted hfound
    obtain ⟨entry, later, hsearch, hfits⟩ := hfound id List.mem_cons_self
    obtain ⟨skipped, rfl, hskipped⟩ := findEntry_eq_some hsearch
    have hnext : ∀ id' ∈ ids, id < id' := fun id' => List.rel_of_pairwise_cons hids
    obtain ⟨s', later', hattached, hrun⟩ := ih later
      ⟨s.controlledProcesses ++ [⟨connect s.controlledProcesses.length entry.node entry.port,
        id, entry.port, entry.pid - 1⟩], total, s.leader || entry.pid - 1 = 0⟩ hids.of_cons
      (List.pairwise_append.mp hsorted).2.1.of_cons fun id' hid' => by
        rw [Ready, ← findEntry_skipped hsorted (hnext id' hid')]
        exact hfound id' (List.mem_cons_of_mem _ hid')
    refine ⟨s', later', ⟨?_, ?_, ?_⟩, fun ids' => ?_⟩
    · obtain ⟨processes, hprocesses, hmap, hfrom⟩ := hattached.attached
      refine ⟨_ :: processes, by rw [hprocesses, List.append_assoc, List.singleton_append],
        by rw [List.map_cons, hmap], ?_⟩
      rw [List.forall_mem_cons]
      refine ⟨⟨entry, by simp, rfl, rfl, _, rfl⟩, fun process hprocess => ?_⟩
      obtain ⟨entry', hmem, hrest⟩ := hfrom process hprocess
      exact ⟨entry', by simp [hmem], hrest⟩
    · intro id' hid'
      rw [List.forall_mem_cons] at hid'
      rw [hattached.find id' hid'.2, findEntry_skipped hsorted hid'.1]
    · rw [hattached.used_up, usedUp_cons hids hsorted hskipped]
      simp
    · rw [← hrun ids']
      cases hentries : skipped ++ (id, entry) :: later with
      | nil => simp at hentries
      | cons e es =>
        rw [List.cons_append, attachAll, ← hentries, hsearch]
        simp only [attach_eq hconnect, if_pos hfits, Outcome.ok_bind]
        · intro h
          cases h

theorem attachAll_unregistered {id : ℤ} {ids : List ℤ} {later : List EntryData} {s : Controlled}
    (h : findEntry id later = none) : attachAll connect total (id :: ids) later s =
      .ok (if later = [] then .ok s else .exits (searchError id)) := by
  cases later with
  | nil => rfl
  | cons e es =>
    rw [attachAll, h, if_neg (List.cons_ne_nil _ _)]
    intro hnil
    cases hnil

theorem attachAll_unfit {id : ℤ} {ids : List ℤ} {entry : RegEntry ℤ} {later next : List EntryData}
    {s : Controlled} (hconnect : ∀ n node port, connect n node port ≠ -1)
    (h : findEntry id later = some (entry, next)) (hunfit : ¬ FitsInt (entry.pid - 1)) :
    attachAll connect total (id :: ids) later s = .undefined := by
  cases later with
  | nil => cases h
  | cons e es =>
    rw [attachAll, h]
    · simp only [attach_eq hconnect, if_neg hunfit, Outcome.undefined_bind]
    · intro hnil
      cases hnil

end Attach

section Order
variable {ids before after : List ℤ} {m : ℤ}

theorem exists_first (p : ℤ → Prop) (ids : List ℤ) : (∀ id ∈ ids, p id) ∨
    ∃ before m after, ids = before ++ m :: after ∧ (∀ id ∈ before, p id) ∧ ¬ p m := by
  induction ids with
  | nil => exact .inl (List.forall_mem_nil _)
  | cons id ids ih =>
    by_cases hid : p id
    · rcases ih with hall | ⟨before, m, after, rfl, hbefore, hm⟩
      · exact .inl (List.forall_mem_cons.mpr ⟨hid, hall⟩)
      · exact .inr ⟨id :: before, m, after, rfl, List.forall_mem_cons.mpr ⟨hid, hbefore⟩, hm⟩
    · exact .inr ⟨[], id, ids, rfl, List.forall_mem_nil _, hid⟩

theorem mem_before (hsorted : (before ++ m :: after).Pairwise (· < ·)) {id : ℤ}
    (hid : id ∈ before ++ m :: after) (hlt : id < m) : id ∈ before := by
  rcases List.mem_append.mp hid with hidbefore | hidafter
  · exact hidbefore
  · rcases List.mem_cons.mp hidafter with rfl | hidafter
    · exact absurd hlt (lt_irrefl _)
    · exact absurd hlt
        (List.rel_of_pairwise_cons (List.pairwise_append.mp hsorted).2.1 hidafter).not_gt

/-- Where `m` is the first id that is not registered: no entry is left for it. -/
theorem not_noticed_iff {registered : List ℤ}
    (hsorted : (before ++ m :: after).Pairwise (· < ·))
    (hmem : ∀ id, id ∈ before ++ m :: after ↔ id ∈ ids)
    (hbefore : ∀ id ∈ before, id ∈ registered) (hm : m ∉ registered) :
    ¬ Noticed ids registered ↔
      registered = [] ∨ ∃ g ∈ before, registered.count g = 1 ∧ ∀ r ∈ registered, r ≤ g := by
  obtain ⟨-, hrest, hlt⟩ := List.pairwise_append.mp hsorted
  have hmissing : m ∈ ids := (hmem m).mp (List.mem_append_right _ List.mem_cons_self)
  rw [Noticed, not_or]
  constructor
  · rintro ⟨hgreater, hlast⟩
    rw [or_iff_not_imp_left]
    intro hne
    obtain ⟨g, hg, hmax⟩ := registered.toFinset.exists_max_image id
      ((List.toFinset_nonempty_iff _).mpr hne)
    simp only [List.mem_toFinset, id_eq] at hg hmax
    obtain ⟨hgids, hcount⟩ : g ∈ ids ∧ registered.count g < 2 := by
      by_contra hnot
      refine hlast ⟨g, hg, hmax, ?_⟩
      rwa [not_and_or, not_lt] at hnot
    have hpos : 0 < registered.count g := List.count_pos_iff.mpr hg
    refine ⟨g, ?_, by omega, hmax⟩
    rcases List.mem_append.mp ((hmem g).mpr hgids) with hgbefore | hgafter
    · exact hgbefore
    · -- an entry behind that of `m` would be left
      refine absurd ⟨m, hmissing, hm, g, hg, ?_⟩ hgreater
      rcases List.mem_cons.mp hgafter with rfl | hgafter
      · exact absurd hg hm
      · exact List.rel_of_pairwise_cons hrest hgafter
  · rintro (rfl | ⟨g, hg, hcount, hmax⟩)
    · exact ⟨fun ⟨_, _, _, r, hr, _⟩ => absurd hr List.not_mem_nil,
        fun ⟨g, hg, _⟩ => absurd hg List.not_mem_nil⟩
    · constructor
      · rintro ⟨id, hid, hnot, r, hr, hless⟩
        have hle := hmax r hr
        rcases List.mem_append.mp ((hmem id).mpr hid) with hidbefore | hidafter
        · exact hnot (hbefore id hidbefore)
        · have := hlt g hg id hidafter
          omega
      · rintro ⟨g', hg', hmax', hlast⟩
        obtain rfl : g' = g := le_antisymm (hmax g' hg') (hmax' g (hbefore g hg))
        rcases hlast with hnot | htwice
        · exact hnot ((hmem g').mp (List.mem_append_left _ hg))
        · omega

end Order

section Registered
variable {rresult : List EntryData} {id : ℤ}

theorem find?_of_sorted {later : List EntryData} {entry : RegEntry ℤ}
    (h : findEntry id (sortEntries rresult) = some (entry, later)) :
    rresult.find? (·.1 = id) = some (id, entry) := by
  rw [← StableSort.find?_key, ← sortEntries_eq]
  exact find?_of_findEntry h

theorem registered_of_ready (h : Ready (sortEntries rresult) id) :
    id ∈ rresult.map Prod.fst := by
  obtain ⟨entry, later, hfound, -⟩ := h
  exact List.mem_map_of_mem (List.mem_of_find?_eq_some (find?_of_sorted hfound))

theorem fits_of_ready {entry : RegEntry ℤ} (h : Ready (sortEntries rresult) id)
    (hentry : rresult.find? (·.1 = id) = some (id, entry)) : FitsInt (entry.pid - 1) := by
  obtain ⟨entry', later, hfound, hfits⟩ := h
  rw [find?_of_sorted hfound] at hentry
  obtain rfl := (Prod.mk.inj (Option.some.inj hentry)).2
  exact hfits

end Registered

/-- All processes are attached to, or a missing one is reported, just if each missing one is
noticed and the ranks that are reached fit. -/
theorem allAttached_iff {connect : ℕ → Text → ℤ → ℤ} {app_name : Text} {rresult : List EntryData}
    {ids : List ℤ} {s : Controlled} (hconnect : ∀ n node port, connect n node port ≠ -1)
    (hids : ids.Nodup) : AllAttached connect app_name rresult ids s ↔
      ((∀ id ∈ ids, id ∈ rresult.map Prod.fst) ∨ Noticed ids (rresult.map Prod.fst)) ∧
        RanksFit rresult ids := by
  have hperm : (ids.insertionSort (· ≤ ·)).Perm ids := List.perm_insertionSort _ ids
  have hsorted : (ids.insertionSort (· ≤ ·)).Pairwise (· < ·) :=
    ((List.pairwise_insertionSort (· ≤ ·) ids).and (hperm.nodup_iff.mpr hids)).imp
      fun h => lt_of_le_of_ne h.1 h.2
  have hentries := sortEntries_sorted rresult
  have hentriesIds := (sortEntries_perm rresult).map Prod.fst
  rw [AllAttached, init]
  generalize ids.insertionSort (· ≤ ·) = sorted at hperm hsorted
  have hmem : ∀ id, id ∈ sorted ↔ id ∈ ids := fun id => hperm.mem_iff
  rcases exists_first (Ready (sortEntries rresult)) sorted with
    hall | ⟨before, m, after, rfl, hbefore, hm⟩
  · obtain ⟨s', later, hattached, hrun⟩ :=
      attachAll_append rresult.length hconnect sorted _ s hsorted hentries hall
    obtain ⟨processes, hprocesses, hids, hfrom⟩ := hattached.attached
    refine iff_of_true (.inl ⟨s', processes, ?_, hprocesses, hids ▸ hperm, ?_⟩) ⟨.inl ?_, ?_⟩
    · have hdone := hrun []
      rwa [List.append_nil] at hdone
    · intro process hprocess
      obtain ⟨entry, hentry, hrest⟩ := hfrom process hprocess
      exact ⟨entry, (sortEntries_perm rresult).mem_iff.mp hentry, hrest⟩
    · exact fun id hid => registered_of_ready (hall id ((hmem id).mpr hid))
    · exact fun id hid _ entry hentry => fits_of_ready (hall id ((hmem id).mpr hid)) hentry
  · obtain ⟨hbeforeSorted, -, hlt⟩ := List.pairwise_append.mp hsorted
    obtain ⟨s', later, hattached, hrun⟩ :=
      attachAll_append rresult.length hconnect before _ s hbeforeSorted hentries hbefore
    have hsearch := hattached.find m fun id hid => hlt id hid m List.mem_cons_self
    have hmids : m ∈ ids := (hmem m).mp (List.mem_append_right _ List.mem_cons_self)
    have hregistered : ∀ id ∈ before, id ∈ rresult.map Prod.fst := fun id hid =>
      registered_of_ready (hbefore id hid)
    rw [hrun]
    cases hfind : findEntry m (sortEntries rresult) with
    | some result =>
      -- the process is found, but its rank is not an `int`
      obtain ⟨entry, next⟩ := result
      have hunfit : ¬ FitsInt (entry.pid - 1) := fun hfits => hm ⟨entry, next, hfind, hfits⟩
      rw [attachAll_unfit hconnect (hsearch.trans hfind) hunfit]
      refine iff_of_false ?_ fun hready => hunfit (hready.2 m hmids (fun id hid hidm =>
        hregistered id (mem_before hsorted ((hmem id).mpr hid) hidm)) entry (find?_of_sorted hfind))
      rintro (⟨_, _, hret, -⟩ | ⟨_, -, -, hret⟩)
      · cases hret
      · cases hret
    | none =>
      have hmissing : m ∉ rresult.map Prod.fst := by
        rw [← hentriesIds.mem_iff]
        exact findEntry_eq_none.mp hfind
      have hranks : RanksFit rresult ids := fun id hid hsmaller entry hentry => by
        rcases lt_trichotomy id m with hidm | rfl | hidm
        · exact fits_of_ready (hbefore id (mem_before hsorted ((hmem id).mpr hid) hidm)) hentry
        · exact absurd (List.mem_map_of_mem (List.mem_of_find?_eq_some hentry)) hmissing
        · exact absurd (hsmaller m hmids hidm) hmissing
      have hunnoticed : later = [] ↔ ¬ Noticed ids (rresult.map Prod.fst) := by
        have hnil : sortEntries rresult = [] ↔ rresult.map Prod.fst = [] := by
          rw [List.map_eq_nil_iff, ← List.length_eq_zero_iff, ← List.length_eq_zero_iff,
            (sortEntries_perm rresult).length_eq]
        rw [not_noticed_iff hsorted hmem hregistered hmissing, hattached.used_up, hnil]
        simp only [hentriesIds.mem_iff, hentriesIds.count_eq]
      have hnotall : ¬ ∀ id ∈ ids, id ∈ rresult.map Prod.fst := fun hall => hmissing (hall m hmids)
      rw [or_iff_right hnotall, and_iff_left hranks, attachAll_unregistered (hsearch.trans hfind)]
      split_ifs with hnil
      · refine iff_of_false ?_ (hunnoticed.mp hnil)
        rintro (⟨s'', processes, hret, hprocesses, hids, -⟩ | ⟨_, -, -, hret⟩)
        · -- only those before `m` are attached to
          obtain rfl := Init.ok.inj (Outcome.ok.inj hret)
          obtain ⟨processes', hprocesses', hids', -⟩ := hattached.attached
          obtain rfl := List.append_cancel_left (hprocesses'.symm.trans hprocesses)
          have hmbefore : m ∈ before := by
            rw [← hids', hids.mem_iff]
            exact hmids
          exact lt_irrefl m (hlt m hmbefore m List.mem_cons_self)
        · cases hret
      · refine iff_of_true (.inr ⟨m, hmids, hmissing, rfl⟩) ?_
        by_contra hnot
        exact hnil (hunnoticed.mpr hnot)

theorem allAttached_two : AllAttached (fun n _ _ => n) "bt".toList
    [(9, ⟨[], [], [], "n1".toList, 50001, 2, [], []⟩),
      (4, ⟨[], [], [], "n1".toList, 50000, 1, [], []⟩)]
    [9, 4] ⟨[], 0, false⟩ :=
  (allAttached_iff (by intro n _ _; omega) (by decide)).mpr
    ⟨.inl (by decide), by
      intro id hid _ entry hentry
      have hmem := List.mem_of_find?_eq_some hentry
      simp only [List.mem_cons, Prod.mk.injEq, List.not_mem_nil, or_false] at hmem
      rcases hmem with ⟨-, rfl⟩ | ⟨-, rfl⟩
      · decide
      · decide⟩

/-- Of two processes the second one is not registered: the agent is attached to the first. -/
theorem not_allAttached : ¬ ∀ (connect : ℕ → Text → ℤ → ℤ) (app_name : Text)
    (rresult : List EntryData) (ids : List ℤ) (s : Controlled),
    (∀ n node port, connect n node port ≠ -1) → ids.Nodup →
      AllAttached connect app_name rresult ids s := by
  intro h
  have hright := h (fun n _ _ => n) [] [(1, ⟨[], [], [], "n1".toList, 50000, 1, [], []⟩)] [1, 2]
    ⟨[], 0, false⟩ (by intro n _ _; omega) (by decide)
  have hrun : init (fun n _ _ => n) [] (some [(1, ⟨[], [], [], "n1".toList, 50000, 1, [], []⟩)])
      [1, 2] ⟨[], 0, false⟩ = .ok (.ok ⟨[⟨0, 1, 50000, 0⟩], 1, true⟩) := rfl
  rcases hright with ⟨s', processes, hret, hprocesses, hids, -⟩ | ⟨_, -, -, hret⟩
  · rw [hrun] at hret
    obtain rfl := Init.ok.inj (Outcome.ok.inj hret)
    rw [← show [_] = processes from hprocesses] at hids
    exact absurd hids.length_eq (by decide)
  · rw [hrun] at hret
    cases hret

end ReadexPtf.Agents
