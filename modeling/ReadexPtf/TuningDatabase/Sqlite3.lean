import ReadexPtf.TuningDatabase.Queries
import ReadexPtf.TuningDatabase.Values
import Mathlib

/-! The SQL back end: a case is a row for the measurement and a row for each tuning value,
and the configurations are put together again when they are iterated through. -/
namespace ReadexPtf.TuningDatabase
open ReadexPtf

structure MeasurementRow where
  id : ℕ
  bid : ℕ
  time : ℚ

/-- A row of the table `configurations`; the null of SQL is `none`. -/
structure ConfigurationRow where
  mid : ℕ
  plugintype : ℤ
  name : String
  value : Option ℤ

structure Sqlite3TuningDatabase where
  measurements : List MeasurementRow
  configurations : List ConfigurationRow

def Sqlite3TuningDatabase.empty : Sqlite3TuningDatabase := ⟨[], []⟩

/-- `TuningValue::NULL_VALUE`. -/
def nullValue : ℤ := -2147483648

/-- A text column is read as a C string. -/
def columnText (text : String) : String :=
  String.ofList (text.toList.takeWhile fun c => c.toNat ≠ 0)

abbrev TuningCase (Ptr : Type) := TuningConfiguration Ptr × ℚ

section Saving
variable {Ptr : Type}

/-- The largest `rowid` so far. -/
def Sqlite3TuningDatabase.lastRowid (db : Sqlite3TuningDatabase) : ℕ :=
  (db.measurements.map MeasurementRow.id).foldr max 0

/-- An extension is reported and left out. -/
def rowOf (mid : ℕ) (tv : TuningValue Ptr) : ConfigurationRow where
  mid := mid
  plugintype := tv.pluginType
  name := tv.name
  value := if tv.value = nullValue then none else some tv.value

/-- The columns of the constraint `UNIQUE(mid, plugintype, name)`. -/
def ConfigurationRow.unique (row : ConfigurationRow) : ℕ × ℤ × String :=
  (row.mid, row.plugintype, row.name)

/-- There is no database where the constraint fails and the exception is thrown. -/
def Sqlite3TuningDatabase.insertTuningValueEntry (db : Sqlite3TuningDatabase) (mid : ℕ)
    (tv : TuningValue Ptr) : Option Sqlite3TuningDatabase :=
  if (rowOf mid tv).unique ∈ db.configurations.map ConfigurationRow.unique then none
  else some { db with configurations := db.configurations ++ [rowOf mid tv] }

def Sqlite3TuningDatabase.saveTuningCase (db : Sqlite3TuningDatabase) (bid : ℕ)
    (tc : TuningCase Ptr) : Option Sqlite3TuningDatabase :=
  let mid := db.lastRowid + 1
  tc.1.values.foldlM (fun db tv => db.insertTuningValueEntry mid tv)
    { db with measurements := db.measurements ++ [⟨mid, bid, tc.2⟩] }

/-- The database after some cases of some programs. -/
def Sqlite3TuningDatabase.ofCases (saves : List (ℕ × TuningCase Ptr)) :
    Option Sqlite3TuningDatabase :=
  saves.foldlM (fun db save => db.saveTuningCase save.1 save.2) .empty

def readValue (row : ConfigurationRow) : TuningValue Ptr where
  pluginType := row.plugintype
  name := columnText row.name
  extension := none
  value := row.value.getD nullValue

end Saving

section Iterating
variable {Ptr Kind Content : Type} [DecidableEq Ptr] [DecidableEq Kind]
  (ext : Extensions Ptr Kind Content) (order : Traversal ConfigurationRow)
  (sort : Traversal MeasurementRow)

/-- `CaseIterator::next`. The statement for the values does not order the rows. -/
def nextCase (db : Sqlite3TuningDatabase) (row : MeasurementRow) : TuningCase Ptr :=
  (.ofValues ext ((order.order (db.configurations.filter fun r => r.mid = row.id)).map readValue),
    row.time)

/-- The comparison that `std::set<TuningConfiguration>` makes. -/
def compareConfigurations (c c' : TuningConfiguration Ptr) : ℤ :=
  compareLists (TuningValue.compare ext) c.values c'.values

/-- What `RemoveDuplicates` returns after the configurations that it has seen. -/
def removeSeen (configurations : List (TuningConfiguration Ptr)) :
    List (TuningCase Ptr) → List (TuningCase Ptr)
  | [] => []
  | nextValue :: source =>
    if setFinds (compareConfigurations ext) nextValue.1 configurations then
      removeSeen configurations source
    else
      nextValue :: removeSeen
        (setInsert (compareConfigurations ext) nextValue.1 configurations) source

def removeDuplicates : List (TuningCase Ptr) → List (TuningCase Ptr)
  | [] => []
  | value :: source =>
    value :: removeSeen ext (setInsert (compareConfigurations ext) value.1 []) source

/-- `SELECT id, time FROM measurements WHERE bid = ? ORDER BY time`. -/
def selectMeasurements (db : Sqlite3TuningDatabase) (bid : ℕ) : List MeasurementRow :=
  sort.sort (fun row row' => row.time < row'.time)
    (db.measurements.filter fun row => row.bid = bid)

def sqlite3QueryCases (db : Sqlite3TuningDatabase) (bid : ℕ) : List (TuningCase Ptr) :=
  removeDuplicates ext ((selectMeasurements sort db bid).map (nextCase ext order db))

/-- A configuration as the set of its values. -/
def TuningConfiguration.content (c : TuningConfiguration Ptr) :
    Set (ℤ × String × Option (Kind × Content) × ℤ) :=
  {identity | ∃ tv ∈ c.values, tv.identity ext = identity}

end Iterating

section Rows
variable {Ptr : Type}

/-- What is left of a value that was saved. -/
def storedValue (tv : TuningValue Ptr) : TuningValue Ptr :=
  { tv with name := columnText tv.name, extension := none }

theorem readValue_rowOf (mid : ℕ) (tv : TuningValue Ptr) :
    readValue (rowOf mid tv) = storedValue tv := by
  by_cases hnull : tv.value = nullValue <;> simp [readValue, rowOf, storedValue, hnull]

/-- The configuration has one value for each parameter. -/
def OneValueEach (c : TuningConfiguration Ptr) : Prop :=
  (c.values.map fun tv => (tv.pluginType, tv.name)).Nodup

instance (c : TuningConfiguration Ptr) : Decidable (OneValueEach c) :=
  inferInstanceAs (Decidable (List.Nodup _))

/-- The rows of a case added to the tables. -/
def Sqlite3TuningDatabase.withCase (db : Sqlite3TuningDatabase) (bid : ℕ) (tc : TuningCase Ptr) :
    Sqlite3TuningDatabase where
  measurements := db.measurements ++ [⟨db.lastRowid + 1, bid, tc.2⟩]
  configurations := db.configurations ++ tc.1.values.map (rowOf (db.lastRowid + 1))

def Sqlite3TuningDatabase.withCases (saves : List (ℕ × TuningCase Ptr)) : Sqlite3TuningDatabase :=
  saves.foldl (fun db save => db.withCase save.1 save.2) .empty

theorem insertTuningValueEntry_all (mid : ℕ) (tvs : List (TuningValue Ptr))
    (db : Sqlite3TuningDatabase) :
    tvs.foldlM (fun db tv => db.insertTuningValueEntry mid tv) db =
      if (tvs.map fun tv => (rowOf mid tv).unique).Nodup ∧
          ∀ tv ∈ tvs, (rowOf mid tv).unique ∉ db.configurations.map ConfigurationRow.unique then
        some { db with configurations := db.configurations ++ tvs.map (rowOf mid) }
      else none := by
  induction tvs generalizing db with
  | nil => simp
  | cons tv tvs ih =>
    rw [List.foldlM_cons, Sqlite3TuningDatabase.insertTuningValueEntry]
    by_cases hclash : (rowOf mid tv).unique ∈ db.configurations.map ConfigurationRow.unique
    · rw [if_pos hclash, if_neg fun h => h.2 tv List.mem_cons_self hclash]
      rfl
    · rw [if_neg hclash, Option.bind_eq_bind, Option.bind_some, ih]
      refine if_congr ?_ (by simp) rfl
      simp only [List.map_cons, List.nodup_cons, List.forall_mem_cons, List.map_append,
        List.map_nil, List.mem_append, List.mem_singleton, not_or, hclash, not_false_eq_true,
        true_and]
      constructor
      · rintro ⟨honce, hnew⟩
        refine ⟨⟨fun hmem => ?_, honce⟩, fun tv' htv' => (hnew tv' htv').1⟩
        obtain ⟨tv', htv', hsame⟩ := List.mem_map.mp hmem
        exact (hnew tv' htv').2 hsame
      · rintro ⟨⟨hfirst, honce⟩, hnew⟩
        refine ⟨honce, fun tv' htv' => ⟨hnew tv' htv', fun hsame => hfirst ?_⟩⟩
        exact List.mem_map.mpr ⟨tv', htv', hsame⟩

/-- No row of a configuration is ahead of the measurements. -/
def Sqlite3TuningDatabase.Linked (db : Sqlite3TuningDatabase) : Prop :=
  ∀ row ∈ db.configurations, row.mid ≤ db.lastRowid

theorem saveTuningCase_eq {db : Sqlite3TuningDatabase} (h : db.Linked) (bid : ℕ)
    (tc : TuningCase Ptr) :
    db.saveTuningCase bid tc = if OneValueEach tc.1 then some (db.withCase bid tc) else none := by
  rw [Sqlite3TuningDatabase.saveTuningCase, insertTuningValueEntry_all]
  refine if_congr ?_ rfl rfl
  have hnew : ∀ tv : TuningValue Ptr, (rowOf (db.lastRowid + 1) tv).unique ∉
      db.configurations.map ConfigurationRow.unique := by
    intro tv hmem
    obtain ⟨row, hrow, hsame⟩ := List.mem_map.mp hmem
    have hmid : row.mid = db.lastRowid + 1 := congrArg Prod.fst hsame
    have hle := h row hrow
    omega
  have honce : (tc.1.values.map fun tv => (rowOf (db.lastRowid + 1) tv).unique).Nodup ↔
      OneValueEach tc.1 := by
    have hpair : (tc.1.values.map fun tv => (rowOf (db.lastRowid + 1) tv).unique) =
        (tc.1.values.map fun tv => (tv.pluginType, tv.name)).map (Prod.mk (db.lastRowid + 1)) := by
      rw [List.map_map]
      rfl
    rw [hpair, OneValueEach]
    exact List.nodup_map_iff fun a b hab => (Prod.mk.inj hab).2
  rw [honce]
  exact and_iff_left fun tv _ => hnew tv

theorem le_lastRowid {db : Sqlite3TuningDatabase} {row : MeasurementRow}
    (h : row ∈ db.measurements) : row.id ≤ db.lastRowid := by
  rw [Sqlite3TuningDatabase.lastRowid]
  generalize db.measurements = rows at h
  induction rows with
  | nil => simp at h
  | cons row' rows ih =>
    rw [List.map_cons, List.foldr_cons]
    cases List.mem_cons.mp h with
    | inl hself => exact hself ▸ le_max_left _ _
    | inr hrest => exact (ih hrest).trans (le_max_right _ _)

theorem lastRowid_append (db : Sqlite3TuningDatabase) (row : MeasurementRow)
    (configurations : List ConfigurationRow) :
    Sqlite3TuningDatabase.lastRowid ⟨db.measurements ++ [row], configurations⟩ =
      max db.lastRowid row.id := by
  simp only [Sqlite3TuningDatabase.lastRowid, List.map_append]
  induction db.measurements.map MeasurementRow.id with
  | nil => simp
  | cons id ids ih =>
    rw [List.cons_append, List.foldr_cons, List.foldr_cons, ih, max_assoc]

theorem withCase_linked {db : Sqlite3TuningDatabase} (h : db.Linked) (bid : ℕ)
    (tc : TuningCase Ptr) : (db.withCase bid tc).Linked := by
  intro row hrow
  rw [Sqlite3TuningDatabase.withCase, lastRowid_append]
  cases List.mem_append.mp hrow with
  | inl hold => exact (h row hold).trans (le_max_left _ _)
  | inr hnew =>
    obtain ⟨tv, -, rfl⟩ := List.mem_map.mp hnew
    exact le_max_right _ _

theorem withCases_append (saves : List (ℕ × TuningCase Ptr)) (save : ℕ × TuningCase Ptr) :
    Sqlite3TuningDatabase.withCases (saves ++ [save]) =
      (Sqlite3TuningDatabase.withCases saves).withCase save.1 save.2 := by
  simp [Sqlite3TuningDatabase.withCases, List.foldl_append]

theorem withCases_linked (saves : List (ℕ × TuningCase Ptr)) :
    (Sqlite3TuningDatabase.withCases saves).Linked := by
  induction saves using List.reverseRecOn with
  | nil => simp [Sqlite3TuningDatabase.withCases, Sqlite3TuningDatabase.Linked,
      Sqlite3TuningDatabase.empty]
  | append_singleton saves save ih =>
    rw [withCases_append]
    exact withCase_linked ih save.1 save.2

/-- Saving fails where a configuration has two values of a parameter, and only there. -/
theorem ofCases_eq (saves : List (ℕ × TuningCase Ptr)) :
    Sqlite3TuningDatabase.ofCases saves =
      if ∀ save ∈ saves, OneValueEach save.2.1 then some (.withCases saves) else none := by
  induction saves using List.reverseRecOn with
  | nil => simp [Sqlite3TuningDatabase.ofCases, Sqlite3TuningDatabase.withCases]
  | append_singleton saves save ih =>
    rw [Sqlite3TuningDatabase.ofCases] at ih ⊢
    rw [List.foldlM_append, ih]
    by_cases hall : ∀ save ∈ saves, OneValueEach save.2.1
    · rw [if_pos hall, Option.bind_eq_bind, Option.bind_some, List.foldlM_cons,
        saveTuningCase_eq (withCases_linked saves)]
      by_cases hlast : OneValueEach save.2.1
      · have hboth : ∀ save' ∈ saves ++ [save], OneValueEach save'.2.1 := by
          intro save' hsave'
          cases List.mem_append.mp hsave' with
          | inl hbefore => exact hall save' hbefore
          | inr hself => exact List.mem_singleton.mp hself ▸ hlast
        rw [if_pos hlast, if_pos hboth, withCases_append]
        rfl
      · rw [if_neg hlast, if_neg fun h => hlast (h save (by simp))]
        rfl
    · rw [if_neg hall, if_neg fun h => hall fun save' hsave' =>
        h save' (List.mem_append_left _ hsave')]
      rfl

/-- The values and the time that are stored for a measurement. -/
def valuesOf (db : Sqlite3TuningDatabase) (row : MeasurementRow) : List (TuningValue Ptr) × ℚ :=
  ((db.configurations.filter fun r => r.mid = row.id).map readValue, row.time)

/-- A case that is saved adds its rows and leaves those of the other measurements alone. -/
theorem withCase_valuesOf {db : Sqlite3TuningDatabase} (h : db.Linked) (bid id : ℕ)
    (tc : TuningCase Ptr) :
    ((db.withCase bid tc).measurements.filter fun row => row.bid = id).map
        (@valuesOf Ptr (db.withCase bid tc)) =
      (db.measurements.filter fun row => row.bid = id).map (valuesOf db) ++
        if bid = id then [(tc.1.values.map storedValue, tc.2)] else [] := by
  rw [Sqlite3TuningDatabase.withCase, List.filter_append, List.map_append]
  congr 1
  · apply List.map_congr_left
    intro row hrow
    have hold : db.lastRowid + 1 ≠ row.id := by
      have hle := le_lastRowid (List.mem_of_mem_filter hrow)
      omega
    have hnone : (tc.1.values.map (rowOf (db.lastRowid + 1))).filter
        (fun r => r.mid = row.id) = [] := by
      rw [List.filter_eq_nil_iff]
      intro r hr
      obtain ⟨tv, -, rfl⟩ := List.mem_map.mp hr
      rw [decide_eq_true_eq]
      exact hold
    simp only [valuesOf, List.filter_append, hnone, List.append_nil]
  · have hold : db.configurations.filter (fun r => r.mid = db.lastRowid + 1) = [] := by
      rw [List.filter_eq_nil_iff]
      intro r hr
      have hle := h r hr
      simp only [decide_eq_true_eq]
      omega
    have hnew : (tc.1.values.map (rowOf (db.lastRowid + 1))).filter
        (fun r => r.mid = db.lastRowid + 1) = tc.1.values.map (rowOf (db.lastRowid + 1)) := by
      rw [List.filter_eq_self]
      intro r hr
      obtain ⟨tv, -, rfl⟩ := List.mem_map.mp hr
      simp [rowOf]
    by_cases hbid : bid = id
    · simp only [hbid, decide_true, List.filter_cons_of_pos, List.filter_nil, List.map_cons,
        List.map_nil, valuesOf, List.filter_append, hold, hnew, List.nil_append, if_true,
        List.map_map]
      congr 3
      funext tv
      exact readValue_rowOf _ tv
    · simp [hbid]

/-- The cases that were saved for a program. -/
def savedFor (saves : List (ℕ × TuningCase Ptr)) (id : ℕ) : List (TuningCase Ptr) :=
  (saves.filter fun save => save.1 = id).map Prod.snd

/-- The rows of a program are the cases that were saved for it. -/
theorem withCases_valuesOf (saves : List (ℕ × TuningCase Ptr)) (id : ℕ) :
    ((Sqlite3TuningDatabase.withCases saves).measurements.filter fun row => row.bid = id).map
        (@valuesOf Ptr (.withCases saves)) =
      (savedFor saves id).map fun s => (s.1.values.map storedValue, s.2) := by
  induction saves using List.reverseRecOn with
  | nil => rfl
  | append_singleton saves save ih =>
    rw [withCases_append, withCase_valuesOf (withCases_linked saves), ih, savedFor, savedFor,
      List.filter_append, List.map_append, List.map_append]
    by_cases hid : save.1 = id <;> simp [hid]

end Rows

section Storable
variable {Ptr Kind Content : Type} {ext : Extensions Ptr Kind Content}

/-- Nothing of the value is lost in the tables. -/
def Storable (tv : TuningValue Ptr) : Prop :=
  tv.extension = none ∧ ∀ c ∈ tv.name.toList, c.toNat ≠ 0

theorem columnText_plain (text : String) : ∀ c ∈ (columnText text).toList, c.toNat ≠ 0 := by
  intro c hc
  rw [columnText, String.toList_ofList] at hc
  simpa using List.mem_takeWhile_imp hc

theorem storedValue_eq {tv : TuningValue Ptr} (h : Storable tv) : storedValue tv = tv := by
  have htext : columnText tv.name = tv.name := by
    have hall : tv.name.toList.takeWhile (fun c => c.toNat ≠ 0) = tv.name.toList :=
      List.takeWhile_eq_self_iff.mpr fun c hc => by simpa using h.2 c hc
    rw [columnText, hall, String.ofList_toList]
  obtain ⟨pluginType, name, extension, value⟩ := tv
  obtain rfl : extension = none := h.1
  simp only [storedValue, htext]

theorem not_mixed_storable {tvs : List (TuningValue Ptr)} (h : ∀ tv ∈ tvs, Storable tv) :
    ¬ Mixed ext tvs := by
  rintro ⟨a, ha, -, -, -, -, p, -, hp, -⟩
  exact absurd ((h a ha).1.symm.trans hp) (by simp)

/-- A value that is equal to one that can be stored can be stored. -/
theorem Storable.of_identity {tv tv' : TuningValue Ptr} (h : Storable tv)
    (hsame : tv.identity ext = tv'.identity ext) : Storable tv' := by
  obtain ⟨pluginType, name, extension, value⟩ := tv
  obtain ⟨pluginType', name', extension', value'⟩ := tv'
  simp only [TuningValue.identity, Prod.mk.injEq] at hsame
  obtain ⟨rfl, rfl, hextension, rfl⟩ := hsame
  obtain rfl : extension = none := h.1
  exact ⟨Option.map_eq_none_iff.mp hextension.symm, h.2⟩

/-- Such values are what they are equal to. -/
theorem Storable.eq_of_identity {tv tv' : TuningValue Ptr} (h : Storable tv)
    (hsame : tv.identity ext = tv'.identity ext) : tv = tv' := by
  have h' := h.of_identity hsame
  obtain ⟨pluginType, name, extension, value⟩ := tv
  obtain ⟨pluginType', name', extension', value'⟩ := tv'
  obtain rfl : extension = none := h.1
  obtain rfl : extension' = none := h'.1
  simp only [TuningValue.identity, Prod.mk.injEq] at hsame
  obtain ⟨rfl, rfl, -, rfl⟩ := hsame
  rfl

/-- The set of the values of a list. -/
def contentOf (ext : Extensions Ptr Kind Content) (tvs : List (TuningValue Ptr)) :
    Set (ℤ × String × Option (Kind × Content) × ℤ) :=
  {identity | ∃ tv ∈ tvs, tv.identity ext = identity}

theorem content_eq (c : TuningConfiguration Ptr) : c.content ext = contentOf ext c.values := rfl

theorem storedContent_eq (ext : Extensions Ptr Kind Content) {c : TuningConfiguration Ptr}
    (h : ∀ tv ∈ c.values, Storable tv) :
    contentOf ext (c.values.map storedValue) = c.content ext := by
  rw [List.map_congr_left fun tv htv => storedValue_eq (h tv htv), List.map_id', content_eq]

theorem readValue_storable (row : ConfigurationRow) : Storable (@readValue Ptr row) :=
  ⟨rfl, columnText_plain row.name⟩

end Storable

section Cases
variable {Ptr Kind Content : Type} [DecidableEq Ptr] [DecidableEq Kind]
  (ext : Extensions Ptr Kind Content)

theorem compare_storable : ThreeWay (@Storable Ptr) (TuningValue.compare ext) ∧
    ∀ a b : TuningValue Ptr, Storable a → Storable b → (a.compare ext b = 0 ↔ a = b) := by
  have hthree : ∀ a b c : TuningValue Ptr, Storable a → Storable b → Storable c →
      ThreeWay (· ∈ [a, b, c]) (TuningValue.compare ext) ∧ ∀ x ∈ [a, b, c], ∀ y ∈ [a, b, c],
        x.compare ext y = 0 ↔ x.identity ext = y.identity ext := fun a b c ha hb hc =>
    compare_threeWay (not_mixed_storable (by simp [ha, hb, hc]))
  refine ⟨⟨fun a b ha hb => ?_, fun a b c ha hb hc => ?_⟩, fun a b ha hb => ?_⟩
  · exact (hthree a b b ha hb hb).1.flip a b (by simp) (by simp)
  · exact (hthree a b c ha hb hc).1.trans a b c (by simp) (by simp) (by simp)
  · rw [(hthree a b b ha hb hb).2 a (by simp) b (by simp)]
    exact ⟨ha.eq_of_identity, fun h => h ▸ rfl⟩

/-- A configuration that was put together from the tables. -/
structure Read (c : TuningConfiguration Ptr) : Prop where
  storable : ∀ tv ∈ c.values, Storable tv
  sorted : c.values.Pairwise fun tv tv' => tv.compare ext tv' < 0

theorem ofValues_read {tvs : List (TuningValue Ptr)} (h : ∀ tv ∈ tvs, Storable tv) :
    Read ext (.ofValues ext tvs) ∧ ∀ tv, tv ∈ (TuningConfiguration.ofValues ext tvs).values ↔
      tv ∈ tvs := by
  obtain ⟨hthree, hequal⟩ := compare_storable ext
  have hnone : ∀ tv ∈ ([] : List (TuningValue Ptr)), Storable tv := by simp
  obtain ⟨hsorted, hfrom, -, hall⟩ := setInsert_all hthree h hnone .nil
  rw [← ofValues_values] at hsorted hfrom hall
  have hmem : ∀ tv ∈ (TuningConfiguration.ofValues ext tvs).values, tv ∈ tvs := fun tv htv =>
    (hfrom tv htv).resolve_right (by simp)
  refine ⟨⟨fun tv htv => h tv (hmem tv htv), hsorted⟩, fun tv => ⟨hmem tv, fun htv => ?_⟩⟩
  obtain ⟨tv', htv', hzero⟩ := hall tv htv
  exact (hequal tv' tv (h tv' (hmem tv' htv')) (h tv htv)).mp hzero ▸ htv'

/-- Configurations with the same values are the same list of them. -/
theorem eq_of_content {c c' : TuningConfiguration Ptr} (h : Read ext c) (h' : Read ext c')
    (hsame : c.content ext = c'.content ext) : c = c' := by
  have hthree := (compare_storable ext).1
  have hmem : ∀ d d' : TuningConfiguration Ptr, Read ext d →
      d.content ext = d'.content ext → ∀ tv ∈ d.values, tv ∈ d'.values := by
    intro d d' hd heq tv htv
    have hin : tv.identity ext ∈ d'.content ext := heq ▸ ⟨tv, htv, rfl⟩
    obtain ⟨tv', htv', hid⟩ := hin
    exact (hd.storable tv htv).eq_of_identity hid.symm ▸ htv'
  have hnodup : ∀ d : TuningConfiguration Ptr, Read ext d → d.values.Nodup := by
    intro d hd
    refine hd.sorted.imp_of_mem fun {tv tv'} htv _ hless heq => ?_
    have hself := hthree.self (hd.storable tv htv)
    rw [← heq, hself] at hless
    exact absurd hless (lt_irrefl 0)
  have hperm : c.values.Perm c'.values :=
    (List.perm_ext_iff_of_nodup (hnodup c h) (hnodup c' h')).mpr fun tv =>
      ⟨hmem c c' h hsame tv, hmem c' c h' hsame.symm tv⟩
  have hlist : c.values = c'.values := by
    refine hperm.eq_of_pairwise ?_ h.sorted h'.sorted
    intro tv tv' htv htv' hless hgreater
    have hflip := hthree.flip tv tv' (h.storable tv htv) (h'.storable tv' htv')
    omega
  obtain ⟨values⟩ := c
  obtain ⟨values'⟩ := c'
  exact congrArg _ hlist

theorem compareConfigurations_threeWay : ThreeWay (Read ext) (compareConfigurations ext) :=
  ((compareLists_threeWay (compare_storable ext).1).comap TuningConfiguration.values).mono
    fun _ hc => hc.storable

theorem compareConfigurations_eq_zero {c c' : TuningConfiguration Ptr} (hc : Read ext c)
    (hc' : Read ext c') :
    compareConfigurations ext c c' = 0 ↔ c.content ext = c'.content ext := by
  obtain ⟨hthree, hequal⟩ := compare_storable ext
  rw [compareConfigurations,
    compareLists_eq_zero_iff_eq hthree hequal hc.storable hc'.storable]
  constructor
  · intro hlist
    rw [TuningConfiguration.content, hlist]
    rfl
  · exact fun hsame => congrArg TuningConfiguration.values (eq_of_content ext hc hc' hsame)

/-- What is left of cases that come in the order of their times: the first one of each
configuration that was not seen before. -/
structure FirstOfEach (seen : List (TuningConfiguration Ptr))
    (source result : List (TuningCase Ptr)) : Prop where
  sublist : result.Sublist source
  once : (result.map fun c => c.1.content ext).Nodup
  unseen : ∀ c ∈ result, ∀ x ∈ seen, x.content ext ≠ c.1.content ext
  kept : ∀ c ∈ source, (∃ x ∈ seen, x.content ext = c.1.content ext) ∨
    ∃ c' ∈ result, c'.1.content ext = c.1.content ext ∧ c'.2 ≤ c.2

theorem removeSeen_first {source : List (TuningCase Ptr)} (hread : ∀ c ∈ source, Read ext c.1)
    (hsorted : source.Pairwise fun c c' => c.2 ≤ c'.2) {seen : List (TuningConfiguration Ptr)}
    (hseen : ∀ x ∈ seen, Read ext x)
    (hset : seen.Pairwise fun x y => compareConfigurations ext x y < 0) :
    FirstOfEach ext seen source (removeSeen ext seen source) := by
  have hthree := compareConfigurations_threeWay ext
  induction source generalizing seen with
  | nil => exact ⟨.slnil, by simp [removeSeen], by simp [removeSeen], by simp⟩
  | cons nextValue source ih =>
    rw [List.forall_mem_cons] at hread
    rw [List.pairwise_cons] at hsorted
    have hfinds := setFinds_iff hthree hread.1 hseen hset
    rw [removeSeen]
    by_cases hfound : setFinds (compareConfigurations ext) nextValue.1 seen = true
    · obtain ⟨x, hx, hzero⟩ := hfinds.mp hfound
      have hsame := (compareConfigurations_eq_zero ext (hseen x hx) hread.1).mp hzero
      obtain ⟨hsublist, honce, hunseen, hkept⟩ := ih hread.2 hsorted.2 hseen hset
      rw [if_pos hfound]
      exact ⟨hsublist.cons nextValue, honce, hunseen,
        List.forall_mem_cons.mpr ⟨.inl ⟨x, hx, hsame⟩, hkept⟩⟩
    · have hnext : ∀ x ∈ setInsert (compareConfigurations ext) nextValue.1 seen, Read ext x := by
        intro x hx
        cases setInsert_subset hx with
        | inl hself => exact hself ▸ hread.1
        | inr hrest => exact hseen x hrest
      obtain ⟨hsublist, honce, hunseen, hkept⟩ := ih hread.2 hsorted.2 hnext
        (setInsert_sorted hthree hread.1 hseen hset)
      have hself : ∀ c ∈ removeSeen ext (setInsert (compareConfigurations ext) nextValue.1 seen)
          source, nextValue.1.content ext ≠ c.1.content ext := by
        intro c hc
        obtain ⟨x, hx, hzero⟩ := setInsert_holds hthree hread.1 hseen
        rw [← (compareConfigurations_eq_zero ext (hnext x hx) hread.1).mp hzero]
        exact hunseen c hc x hx
      rw [if_neg hfound]
      refine ⟨hsublist.cons_cons nextValue, ?_, ?_, ?_⟩
      · rw [List.map_cons, List.nodup_cons]
        refine ⟨fun hmem => ?_, honce⟩
        obtain ⟨c, hc, hsame⟩ := List.mem_map.mp hmem
        exact hself c hc hsame.symm
      · refine List.forall_mem_cons.mpr ⟨fun x hx hsame => hfound (hfinds.mpr ?_), ?_⟩
        · exact ⟨x, hx, (compareConfigurations_eq_zero ext (hseen x hx) hread.1).mpr hsame⟩
        · exact fun c hc x hx => hunseen c hc x (subset_setInsert _ _ _ hx)
      · refine List.forall_mem_cons.mpr ⟨.inr ⟨nextValue, List.mem_cons_self, rfl, le_rfl⟩, ?_⟩
        intro c hc
        rcases hkept c hc with ⟨x, hx, hsame⟩ | ⟨c', hc', hsame, hle⟩
        · cases setInsert_subset hx with
          | inl hself =>
            exact .inr ⟨nextValue, List.mem_cons_self, hself ▸ hsame, hsorted.1 c hc⟩
          | inr hrest => exact .inl ⟨x, hrest, hsame⟩
        · exact .inr ⟨c', List.mem_cons_of_mem _ hc', hsame, hle⟩

theorem removeDuplicates_eq (source : List (TuningCase Ptr)) :
    removeDuplicates ext source = removeSeen ext [] source := by
  cases source <;> rfl

section Rows
variable (order : Traversal ConfigurationRow) (sort : Traversal MeasurementRow)
  (saves : List (ℕ × TuningCase Ptr)) (id : ℕ)

/-- The order in which the rows of a measurement come does not matter. -/
theorem nextCase_read (db : Sqlite3TuningDatabase) (row : MeasurementRow) :
    Read ext (nextCase ext order db row).1 ∧
      (nextCase ext order db row).1.content ext = contentOf ext (valuesOf db row).1 := by
  have hstorable : ∀ tv ∈ (order.order (db.configurations.filter fun r => r.mid = row.id)).map
      (@readValue Ptr), Storable tv := by
    intro tv htv
    obtain ⟨r, -, rfl⟩ := List.mem_map.mp htv
    exact readValue_storable r
  obtain ⟨hread, hmem⟩ := ofValues_read ext hstorable
  refine ⟨hread, ?_⟩
  rw [nextCase, content_eq]
  simp only [contentOf, hmem, valuesOf, List.mem_map, Traversal.mem_order]

/-- What the rows of a program are read back as. -/
def readCases : List (TuningCase Ptr) :=
  (selectMeasurements sort (.withCases saves) id).map (nextCase ext order (.withCases saves))

theorem readCases_read : ∀ c ∈ readCases ext order sort saves id, Read ext c.1 := by
  intro c hc
  obtain ⟨row, -, rfl⟩ := List.mem_map.mp hc
  exact (nextCase_read ext order _ row).1

theorem readCases_sorted :
    (readCases ext order sort saves id).Pairwise fun c c' => c.2 ≤ c'.2 := by
  rw [readCases, List.pairwise_map]
  exact sort.sort_pairwise MeasurementRow.time _

/-- The cases that were saved, in another order and without what the tables do not hold. -/
theorem readCases_perm :
    ((readCases ext order sort saves id).map fun c => (c.1.content ext, c.2)).Perm
      ((savedFor saves id).map fun s => (contentOf ext (s.1.values.map storedValue), s.2)) := by
  have hrows : ((Sqlite3TuningDatabase.withCases saves).measurements.filter
      fun row => row.bid = id).map (fun row => (contentOf ext
        (@valuesOf Ptr (.withCases saves) row).1, row.time)) =
      (savedFor saves id).map fun s => (contentOf ext (s.1.values.map storedValue), s.2) := by
    have hvalues := congrArg (List.map fun v : List (TuningValue Ptr) × ℚ =>
      (contentOf ext v.1, v.2)) (withCases_valuesOf saves id)
    simpa only [List.map_map, Function.comp_def, valuesOf] using hvalues
  rw [← hrows, readCases, List.map_map]
  have hsame : ((fun c : TuningCase Ptr => (c.1.content ext, c.2)) ∘
      nextCase ext order (.withCases saves)) = fun row => (contentOf ext
        (@valuesOf Ptr (.withCases saves) row).1, row.time) := by
    funext row
    exact Prod.ext (nextCase_read ext order _ row).2 rfl
  rw [hsame]
  exact (sort.sort_perm _ _).map _

end Rows
end Cases

end ReadexPtf.TuningDatabase
