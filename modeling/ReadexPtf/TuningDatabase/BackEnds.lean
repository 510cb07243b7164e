import ReadexPtf.TuningDatabase.Sqlite3
import Mathlib

/-! The two back ends asked for the configurations that are nearly as fast as the best one. -/
namespace ReadexPtf.TuningDatabase
open ReadexPtf

section Agree
variable {α κ : Type} {key : α → κ} {saved : List (α × ℚ)} {r : ℚ}

/-- Right answers hold the same configurations. -/
theorem Answers.perm {result result' : List α} (h : Answers key saved r result)
    (h' : Answers key saved r result') : (result.map key).Perm (result'.map key) := by
  have hsubset : ∀ a b : List α, Answers key saved r a → Answers key saved r b →
      a.map key ⊆ b.map key := by
    intro a b ha hb k hk
    obtain ⟨c, hc, rfl⟩ := List.mem_map.mp hk
    obtain ⟨s, hs, hkey, hwithin⟩ := ha.within c hc
    obtain ⟨c', hc', hkey'⟩ := hb.all s hs hwithin
    exact List.mem_map.mpr ⟨c', hc', hkey'.trans hkey⟩
  exact (List.perm_ext_iff_of_nodup h.once h'.once).mpr fun k =>
    ⟨fun hk => hsubset _ _ h h' hk, fun hk => hsubset _ _ h' h hk⟩

end Agree

section BackEnds
variable {Ptr Kind Content : Type} [DecidableEq Ptr] [DecidableEq Kind]
  (ext : Extensions Ptr Kind Content) (jsonSort : Traversal (TuningCase Ptr))
  (order : Traversal ConfigurationRow) (sort : Traversal MeasurementRow)
  (saves : List (ℕ × TuningCase Ptr)) (id : ℕ) (r : ℚ)

/-- The least time is within the ratio, and the tables hold all of the configurations
within it. -/
def StorableWithin (saved : List (TuningCase Ptr)) (r : ℚ) : Prop :=
  ∀ m, IsLeast (savedTimes saved) m → m ≤ r * m ∧
    ∀ s ∈ saved, s.2 ≤ r * m → ∀ tv ∈ s.1.values, Storable tv

theorem sqlite3QueryCases_eq : sqlite3QueryCases ext order sort (.withCases saves) id =
    removeSeen ext [] (readCases ext order sort saves id) :=
  removeDuplicates_eq ext _

theorem sqlite3QueryCases_first : FirstOfEach ext [] (readCases ext order sort saves id)
    (sqlite3QueryCases ext order sort (.withCases saves) id) := by
  rw [sqlite3QueryCases_eq]
  exact removeSeen_first ext (readCases_read ext order sort saves id)
    (readCases_sorted ext order sort saves id) (by simp) .nil

theorem sqlite3_iterates {bound : ℚ} (hstorable : ∀ s ∈ savedFor saves id, s.2 ≤ bound →
      ∀ tv ∈ s.1.values, Storable tv) :
    Iterates (TuningConfiguration.content ext) (savedFor saves id)
      (sqlite3QueryCases ext order sort (.withCases saves) id) bound := by
  obtain ⟨hsublist, -, -, hkept⟩ := sqlite3QueryCases_first ext order sort saves id
  have hperm := readCases_perm ext order sort saves id
  refine ⟨(readCases_sorted ext order sort saves id).sublist hsublist, ?_, ?_⟩
  · intro c hc hle
    have hmem := hperm.mem_iff.mp (List.mem_map_of_mem (hsublist.subset hc))
    obtain ⟨s, hs, hsame⟩ := List.mem_map.mp hmem
    obtain ⟨hcontent, htime⟩ := Prod.mk.inj hsame
    have hstored := storedContent_eq ext (hstorable s hs (htime ▸ hle))
    exact ⟨s, hs, hstored.symm.trans hcontent, htime⟩
  · intro s hs hle
    have hmem := hperm.mem_iff.mpr (List.mem_map_of_mem hs)
    obtain ⟨c, hc, hsame⟩ := List.mem_map.mp hmem
    obtain ⟨hcontent, htime⟩ := Prod.mk.inj hsame
    have hstored := storedContent_eq ext (hstorable s hs hle)
    obtain ⟨c', hc', hsame', hle'⟩ := (hkept c hc).resolve_left (by simp)
    exact ⟨c', hc', hsame'.trans (hcontent.trans hstored), htime ▸ hle'⟩

theorem sqlite3_answers_iff :
    Answers (TuningConfiguration.content ext) (savedFor saves id) r
        (queryConfigurationsByRatio (sqlite3QueryCases ext order sort (.withCases saves) id) r) ↔
      StorableWithin (savedFor saves id) r := by
  have hread := readCases_read ext order sort saves id
  have hperm := readCases_perm ext order sort saves id
  have hsorted := readCases_sorted ext order sort saves id
  have hfirst := sqlite3QueryCases_first ext order sort saves id
  cases hcases : readCases ext order sort saves id with
  | nil =>
    rw [hcases] at hperm hfirst
    rw [List.sublist_nil.mp hfirst.sublist]
    have hnone : savedFor saves id = [] := List.map_eq_nil_iff.mp hperm.nil_eq.symm
    rw [hnone]
    refine iff_of_true answers_nil fun m hm => ?_
    obtain ⟨s, hs, -⟩ := hm.1
    simp at hs
  | cons first it =>
    obtain ⟨config, m⟩ := first
    have htimes : (((config, m) :: it).map Prod.snd).Perm ((savedFor saves id).map Prod.snd) := by
      have hsnd := hperm.map Prod.snd
      simpa only [List.map_map, Function.comp_def, hcases] using hsnd
    rw [hcases] at hsorted
    have hm := isLeast_of_perm htimes hsorted
    obtain ⟨rest, hrest⟩ : ∃ rest, sqlite3QueryCases ext order sort (.withCases saves) id =
        (config, m) :: rest := by
      rw [sqlite3QueryCases_eq, hcases]
      exact ⟨_, rfl⟩
    by_cases hwithin : m ≤ r * m
    · constructor
      · intro hanswers m' hm'
        obtain rfl := hm.unique hm'
        refine ⟨hwithin, fun s hs hle tv htv => ?_⟩
        obtain ⟨c, hc, hcontent⟩ := hanswers.all s hs ((withinRatio_iff hm).mpr hle)
        have hin : tv.identity ext ∈ c.content ext := hcontent ▸ ⟨tv, htv, rfl⟩
        obtain ⟨tv', htv', hsame⟩ := hin
        have hresult := (readCases_sorted ext order sort saves id).sublist hfirst.sublist
        rw [hrest] at hresult hc
        rw [queryConfigurationsByRatio_eq hresult hwithin] at hc
        obtain ⟨x, hx, rfl⟩ := List.mem_map.mp hc
        have hxmem := hfirst.sublist.subset (hrest ▸ List.mem_of_mem_filter hx)
        exact ((hread x hxmem).storable tv' htv').of_identity hsame
      · intro hstorable
        have hiterates := sqlite3_iterates ext order sort saves id (hstorable m hm).2
        have honce := hfirst.once
        rw [hrest] at hiterates honce ⊢
        rw [answers_iff hm hwithin hiterates]
        exact honce.sublist ((List.filter_sublist).map _)
    · rw [hrest]
      refine iff_of_false (not_answers_of_beyond hm (not_le.mp hwithin)) fun h => ?_
      exact hwithin (h m hm).1

/-- Both back ends return what they are to return, so that they agree. -/
def ReturnNearlyBest : Prop :=
  let json := queryConfigurationsByRatio (jsonQueryCases jsonSort (savedFor saves id)) r
  ∃ db, Sqlite3TuningDatabase.ofCases saves = some db ∧
    let sqlite3 := queryConfigurationsByRatio (sqlite3QueryCases ext order sort db id) r
    Answers (TuningConfiguration.content ext) (savedFor saves id) r json ∧
      Answers (TuningConfiguration.content ext) (savedFor saves id) r sqlite3 ∧
        (json.map (TuningConfiguration.content ext)).Perm
          (sqlite3.map (TuningConfiguration.content ext))

theorem returnNearlyBest_iff : ReturnNearlyBest ext jsonSort order sort saves id r ↔
    (∀ save ∈ saves, OneValueEach save.2.1) ∧
      DistinctWithin (TuningConfiguration.content ext) (savedFor saves id) r ∧
        StorableWithin (savedFor saves id) r := by
  rw [← json_answers_iff jsonSort, ← sqlite3_answers_iff ext order sort saves id, ReturnNearlyBest,
    ofCases_eq]
  constructor
  · rintro ⟨db, hsaved, hjson, hsqlite3, -⟩
    by_cases hone : ∀ save ∈ saves, OneValueEach save.2.1
    · rw [if_pos hone] at hsaved
      obtain rfl := Option.some.inj hsaved
      exact ⟨hone, hjson, hsqlite3⟩
    · rw [if_neg hone] at hsaved
      exact absurd hsaved (by simp)
  · rintro ⟨hone, hjson, hsqlite3⟩
    exact ⟨.withCases saves, if_pos hone, hjson, hsqlite3, hjson.perm hsqlite3⟩

end BackEnds

/-- No value has an extension. -/
def noExtensions : Extensions Empty Unit Unit where
  typeid := Empty.elim
  content := Empty.elim
  compare p := p.elim
  ordered _ := ⟨fun p => p.elim, fun p => p.elim⟩
  compare_eq_zero p := p.elim

/-- A configuration that was saved twice comes twice from the JSON back end. -/
theorem not_returnNearlyBest : ¬ ∀ (saves : List (ℕ × TuningCase Empty)) (id : ℕ) (r : ℚ), 1 ≤ r →
    ReturnNearlyBest noExtensions .inserted .inserted .inserted saves id r := by
  intro h
  let config : TuningConfiguration Empty := ⟨[⟨0, "NUMTHREADS", none, 4⟩]⟩
  obtain ⟨db, -, hjson, -⟩ := h [(0, config, 3), (0, config, 3)] 0 1 le_rfl
  rw [json_answers_iff] at hjson
  have hleast : IsLeast (savedTimes (savedFor [(0, config, (3 : ℚ)), (0, config, 3)] 0)) 3 := by
    refine ⟨⟨(config, 3), by simp [savedFor], rfl⟩, ?_⟩
    rintro t ⟨s, hs, rfl⟩
    have hself : s = (config, 3) := by simpa [savedFor] using hs
    rw [hself]
  have htwice := (hjson 3 hleast).2
  simp [savedFor] at htwice

end ReadexPtf.TuningDatabase
