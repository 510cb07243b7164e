import ReadexPtf.Agents.MetaProperty
import ReadexPtf.Interphase.Phases
import Mathlib

/-! The objective functions over the properties of a scenario. `K` stands for `double`, with
the arithmetic and the order of a field, and `stod` for the reading of its numbers. -/
namespace ReadexPtf.Autotune
open ReadexPtf Agents
variable {K : Type} [Field K] [LinearOrder K] (stod : String → Outcome K)

namespace PropertyID

def energyConsumption : ℤ := 131
def interphaseProps : ℤ := 137
def execTimeImportance : ℤ := 146

end PropertyID
open PropertyID

def nanosecPerSecDouble : K := 1000000000

/-- The properties that the objectives look at. -/
def isRelevant (id : ℤ) : Bool :=
  id == energyConsumption || id == interphaseProps || id == execTimeImportance

/-- `getExtraInfo` returns a copy. What `find` gives is compared with the end of another copy,
to which it is never equal: where the parameter is missing the end is read. -/
def extraInfo (property : MetaProperty K) (param : String) : Outcome String :=
  Outcome.found (property.addInfo.get? param)

/-- `cycles` are nanoseconds. -/
def timeParam (id : ℤ) : String := if id = execTimeImportance then "cycles" else "ExecTime"

namespace TimeObjective

def step (time : K) (property : MetaProperty K) : Outcome K := do
  let id ← stoi property.id
  if isRelevant id then
    let timeString ← extraInfo property (timeParam id)
    let value ← stod timeString
    -- the comparison is of the number as it is read
    if time < value then
      return if id = execTimeImportance then value / nanosecPerSecDouble else value
    else return time
  else return time

def objective (properties : List (MetaProperty K)) : Outcome K :=
  properties.foldlM (step stod) 0

end TimeObjective

namespace EDPObjective

def energyOf (id : ℤ) (property : MetaProperty K) : Outcome K :=
  if id = execTimeImportance then do
    let nodeEnergy ← extraInfo property "NodeEnergy"
    stod nodeEnergy
  else .ok property.severity

/-- The energy and the time so far. -/
def step (s : K × K) (property : MetaProperty K) : Outcome (K × K) := do
  let id ← stoi property.id
  if isRelevant id then
    let energy ← energyOf stod id property
    let timeString ← extraInfo property (timeParam id)
    let value ← stod timeString
    let time1 := if id = execTimeImportance then value / nanosecPerSecDouble else value
    return (s.1 + energy, if s.2 < time1 then time1 else s.2)
  else return s

def objective (properties : List (MetaProperty K)) : Outcome K := do
  let (energy, time) ← properties.foldlM (step stod) (0, -1)
  return energy * time

end EDPObjective

/-- The time of a property as it is read. -/
structure Reading (K : Type) where
  inNanoseconds : Bool
  value : K

def Reading.seconds (r : Reading K) : K :=
  if r.inNanoseconds then r.value / nanosecPerSecDouble else r.value

/-- The execution time of a property, if it is one of those looked at. -/
def reading (property : MetaProperty K) : Outcome (Option (Reading K)) := do
  let id ← stoi property.id
  if isRelevant id then
    let timeString ← extraInfo property (timeParam id)
    let value ← stod timeString
    return some ⟨id = execTimeImportance, value⟩
  else return none

/-- The execution times of the properties that can be read. -/
def readings (properties : List (MetaProperty K)) : List (Reading K) :=
  properties.filterMap fun property =>
    match reading stod property with
    | .ok r => r
    | _ => none

/-- The maximum of the times in seconds, zero without any. -/
def IsMaximumTime (rs : List (Reading K)) (t : K) : Prop :=
  (rs = [] ∧ t = 0) ∨ IsGreatest { s | ∃ r ∈ rs, r.seconds = s } t

namespace TimeObjective

def update (time : K) (r : Reading K) : K := if time < r.value then r.seconds else time

variable {stod}

omit [Field K] [LinearOrder K] in
theorem mem_readings {properties : List (MetaProperty K)} {r : Reading K} :
    r ∈ readings stod properties ↔ ∃ p ∈ properties, reading stod p = .ok (some r) := by
  rw [readings, List.mem_filterMap]
  refine exists_congr fun p => and_congr_right fun _ => ?_
  cases reading stod p <;> simp

/-- A step reads the time of its property and takes it into account, if there is one. -/
theorem step_eq (time : K) (property : MetaProperty K) :
    step stod time property =
      (reading stod property).bind fun r => .ok (r.elim time (update time)) := by
  rw [step, reading]
  cases stoi property.id with
  | ok id =>
    by_cases hid : isRelevant id
    · simp only [Outcome.ok_bind, hid, if_true]
      cases extraInfo property (timeParam id) with
      | ok timeString =>
        cases hvalue : stod timeString with
        | ok value =>
          by_cases hless : time < value
          · simp [hvalue, Outcome.bind, update, Reading.seconds, hless]
          · simp [hvalue, Outcome.bind, update, hless]
        | throws m => simp [hvalue, Outcome.bind]
        | aborts => simp [hvalue, Outcome.bind]
        | undefined => simp [hvalue, Outcome.bind]
      | throws m => rfl
      | aborts => rfl
      | undefined => rfl
    · simp [hid, Outcome.bind]
  | throws m => rfl
  | aborts => rfl
  | undefined => rfl

/-- The objective returns if all properties can be read: what the times, one after the other,
leave. -/
theorem foldlM_step_eq_ok {properties : List (MetaProperty K)} :
    ∀ {time t : K}, properties.foldlM (step stod) time = .ok t ↔
      (∀ p ∈ properties, ∃ r, reading stod p = .ok r) ∧
        t = (readings stod properties).foldl update time := by
  induction properties with
  | nil =>
    intro time t
    simp [readings, eq_comm]
  | cons p properties ih =>
    intro time t
    rw [List.foldlM_cons, step_eq, List.forall_mem_cons]
    cases hp : reading stod p with
    | ok r =>
      change (properties.foldlM (step stod) (r.elim time (update time)) = .ok t) ↔ _
      rw [ih]
      cases r with
      | none => simp [readings, hp]
      | some r => simp [readings, hp]
    | throws m => simp [Outcome.bind]
    | aborts => simp [Outcome.bind]
    | undefined => simp [Outcome.bind]

theorem objective_eq_ok {properties : List (MetaProperty K)} {t : K} :
    objective stod properties = .ok t ↔
      (∀ p ∈ properties, ∃ r, reading stod p = .ok r) ∧
        t = (readings stod properties).foldl update 0 :=
  foldlM_step_eq_ok

section Maximum
variable [IsStrictOrderedRing K] {rs : List (Reading K)} {r : Reading K} {time t : K}

theorem nanosec_one_lt : (1 : K) < nanosecPerSecDouble := by
  rw [nanosecPerSecDouble]
  norm_num

omit [LinearOrder K] [IsStrictOrderedRing K] in
theorem value_of_seconds (h : r.inNanoseconds = false) : r.value = r.seconds := by
  simp [Reading.seconds, h]

theorem value_of_nanoseconds (h : r.inNanoseconds = true) :
    r.value = nanosecPerSecDouble * r.seconds := by
  have hne : (nanosecPerSecDouble : K) ≠ 0 := (one_pos.trans nanosec_one_lt).ne'
  rw [Reading.seconds, if_pos h, mul_div_cancel₀ _ hne]

/-- A time is not read as a smaller number, unless it is below zero. -/
theorem seconds_le_value (h : 0 ≤ r.seconds) : r.seconds ≤ r.value := by
  cases hunit : r.inNanoseconds with
  | false => exact (value_of_seconds hunit).ge
  | true =>
    rw [value_of_nanoseconds hunit]
    exact le_mul_of_one_le_left h nanosec_one_lt.le

theorem value_neg (h : r.seconds < 0) : r.value < 0 := by
  cases hunit : r.inNanoseconds with
  | false => rwa [value_of_seconds hunit]
  | true =>
    rw [value_of_nanoseconds hunit]
    exact mul_neg_of_pos_of_neg (one_pos.trans nanosec_one_lt) h

omit [IsStrictOrderedRing K] in
theorem update_le (hr : r.seconds ≤ t) (htime : time ≤ t) : update time r ≤ t := by
  rw [update]
  split_ifs
  · exact hr
  · exact htime

omit [IsStrictOrderedRing K] in
theorem foldl_update_le (hrs : ∀ r ∈ rs, r.seconds ≤ t) (htime : time ≤ t) :
    rs.foldl update time ≤ t := by
  induction rs generalizing time with
  | nil => exact htime
  | cons r rs ih =>
    rw [List.forall_mem_cons] at hrs
    exact ih hrs.2 (update_le hrs.1 htime)

/-- Times below zero leave the time at its start. -/
theorem foldl_update_of_neg (hrs : ∀ r ∈ rs, r.seconds < 0) : rs.foldl update (0 : K) = 0 := by
  induction rs with
  | nil => rfl
  | cons r rs ih =>
    rw [List.forall_mem_cons] at hrs
    rw [List.foldl_cons, update, if_neg (value_neg hrs.1).not_gt, ih hrs.2]

/-- The greatest time is taken whenever it comes. -/
theorem update_of_greatest (hr : r.seconds = t) (hpos : 0 ≤ t) (htime : time ≤ t) :
    update time r = t := by
  have hvalue : t ≤ r.value := hr ▸ seconds_le_value (hr.symm ▸ hpos)
  rw [update]
  split_ifs with hless
  · exact hr
  · exact htime.antisymm (hvalue.trans (not_lt.mp hless))

omit [IsStrictOrderedRing K] in
/-- It stays, where no number of nanoseconds is taken for a greater one. -/
theorem update_greatest (hr : r.seconds ≤ t)
    (hbelow : r.inNanoseconds = true → r.value ≤ t ∨ r.seconds = t) : update t r = t := by
  rw [update]
  split_ifs with hless
  · cases hunit : r.inNanoseconds with
    | false => exact absurd (value_of_seconds hunit ▸ hless) hr.not_gt
    | true => exact (hbelow hunit).resolve_left hless.not_ge
  · rfl

theorem foldl_update_eq (hrs : ∀ r ∈ rs, r.seconds ≤ t) (hpos : 0 ≤ t)
    (hbelow : ∀ r ∈ rs, r.inNanoseconds = true → r.value ≤ t ∨ r.seconds = t)
    (htime : time ≤ t) (hthere : time = t ∨ ∃ r ∈ rs, r.seconds = t) :
    rs.foldl update time = t := by
  induction rs generalizing time with
  | nil => simpa using hthere
  | cons r rs ih =>
    rw [List.forall_mem_cons] at hrs hbelow
    refine ih hrs.2 hbelow.2 (update_le hrs.1 htime) ?_
    cases hthere with
    | inl hstart => exact .inl (hstart ▸ update_greatest (hstart ▸ hrs.1) (hstart ▸ hbelow.1))
    | inr hlater =>
      obtain ⟨r', hr', hseconds⟩ := hlater
      cases List.mem_cons.mp hr' with
      | inl hself => exact .inl (update_of_greatest (hself ▸ hseconds) hpos htime)
      | inr hrest => exact .inr ⟨r', hrest, hseconds⟩

/-- No number of nanoseconds is taken for a greater time: it is at most the number of seconds of
some time, or itself the greatest time. -/
structure Steady (rs : List (Reading K)) : Prop where
  nonneg : rs = [] ∨ ∃ r ∈ rs, 0 ≤ r.seconds
  below : ∀ r ∈ rs, r.inNanoseconds = true →
    (∃ r' ∈ rs, r.value ≤ r'.seconds) ∨ ∀ r' ∈ rs, r'.seconds ≤ r.seconds

omit [IsStrictOrderedRing K] in
theorem exists_isMaximumTime (rs : List (Reading K)) : ∃ t, IsMaximumTime rs t := by
  by_cases hnone : rs = []
  · exact ⟨0, .inl ⟨hnone, rfl⟩⟩
  · obtain ⟨r, hr, hmax⟩ := Set.exists_max_image { r | r ∈ rs } Reading.seconds
      (List.finite_toSet rs) (List.exists_mem_of_ne_nil rs hnone)
    refine ⟨r.seconds, .inr ⟨⟨r, hr, rfl⟩, ?_⟩⟩
    rintro s ⟨r', hr', rfl⟩
    exact hmax r' hr'

/-- Steady times are brought down to their maximum in every order. -/
theorem Steady.foldl_update (h : Steady rs) (hmax : IsMaximumTime rs t)
    {stored : List (Reading K)} (hperm : stored.Perm rs) : stored.foldl update 0 = t := by
  cases hmax with
  | inl hnone =>
    obtain ⟨rfl, rfl⟩ := hnone
    rw [hperm.eq_nil]
    rfl
  | inr hgreatest =>
    obtain ⟨⟨r, hr, hseconds⟩, hbound⟩ := hgreatest
    have hrs : ∀ r ∈ rs, r.seconds ≤ t := fun r' hr' => hbound ⟨r', hr', rfl⟩
    have hpos : 0 ≤ t := by
      cases h.nonneg with
      | inl hnone => exact absurd (hnone ▸ hr) List.not_mem_nil
      | inr hsome =>
        obtain ⟨r', hr', hr'pos⟩ := hsome
        exact hr'pos.trans (hrs r' hr')
    refine foldl_update_eq (fun r' hr' => hrs r' (hperm.mem_iff.mp hr')) hpos ?_ hpos
      (.inr ⟨r, hperm.mem_iff.mpr hr, hseconds⟩)
    intro r' hr' hunit
    cases h.below r' (hperm.mem_iff.mp hr') hunit with
    | inl hsmall =>
      obtain ⟨r'', hr'', hle⟩ := hsmall
      exact .inl (hle.trans (hrs r'' hr''))
    | inr hgreat =>
      exact .inr ((hrs r' (hperm.mem_iff.mp hr')).antisymm (hseconds ▸ hgreat r hr))

/-- The objective is the maximum in every order exactly if the properties can be read and their
times are steady. -/
theorem objective_isMaximumTime_iff (properties : List (MetaProperty K)) :
    (∃ t, IsMaximumTime (readings stod properties) t ∧
      ∀ stored, stored.Perm properties → objective stod stored = .ok t) ↔
    (∀ p ∈ properties, ∃ r, reading stod p = .ok r) ∧ Steady (readings stod properties) := by
  constructor
  · rintro ⟨t, hmax, hstored⟩
    obtain ⟨hreads, ht⟩ := objective_eq_ok.mp (hstored properties (.refl _))
    refine ⟨hreads, ?_⟩
    cases hmax with
    | inl hnone =>
      rw [hnone.1]
      exact ⟨.inl rfl, by simp⟩
    | inr hgreatest =>
      obtain ⟨⟨r₀, hr₀, hseconds⟩, hbound⟩ := hgreatest
      have hrs : ∀ r ∈ readings stod properties, r.seconds ≤ t :=
        fun r hr => hbound ⟨r, hr, rfl⟩
      have hpos : 0 ≤ t := by
        by_contra hneg
        have hzero := foldl_update_of_neg fun r hr => (hrs r hr).trans_lt (not_le.mp hneg)
        exact hneg (hzero ▸ ht).ge
      refine ⟨.inr ⟨r₀, hr₀, hseconds.symm ▸ hpos⟩, fun r hr hunit => ?_⟩
      -- the property of this time comes last
      obtain ⟨p, hp, hread⟩ := mem_readings.mp hr
      obtain ⟨before, after, rfl⟩ := List.append_of_mem hp
      have hperm : (before ++ after ++ [p]).Perm (before ++ p :: after) := by
        rw [List.append_assoc]
        exact (List.perm_append_singleton p after).append_left before
      have hlast := (objective_eq_ok.mp (hstored _ hperm)).2
      have hothers : ∀ r ∈ readings stod (before ++ after), r.seconds ≤ t := by
        intro r' hr'
        obtain ⟨p', hp', hread'⟩ := mem_readings.mp hr'
        exact hrs r' (mem_readings.mpr ⟨p', by simp at hp' ⊢; tauto, hread'⟩)
      have hsplit : readings stod (before ++ after ++ [p]) =
          readings stod (before ++ after) ++ [r] := by simp [readings, hread]
      have hle := foldl_update_le hothers hpos
      rw [hsplit, List.foldl_append, List.foldl_cons, List.foldl_nil, update] at hlast
      by_cases hsmall : r.value ≤ t
      · exact .inl ⟨r₀, hr₀, hseconds.symm ▸ hsmall⟩
      · rw [if_pos (hle.trans_lt (not_le.mp hsmall))] at hlast
        exact .inr fun r' hr' => hlast ▸ hrs r' hr'
  · rintro ⟨hreads, hsteady⟩
    obtain ⟨t, hmax⟩ := exists_isMaximumTime (readings stod properties)
    refine ⟨t, hmax, fun stored hperm => objective_eq_ok.mpr ⟨?_, ?_⟩⟩
    · exact fun p hp => hreads p (hperm.mem_iff.mp hp)
    · exact (hsteady.foldl_update hmax (hperm.filterMap _)).symm

def measured (id param value : String) : MetaProperty ℚ :=
  { MetaProperty.emptyProp 0 with id := id, addInfo := OrdMap.empty.set param value }

/-- An energy consumption of five seconds, and an importance of 10^9 nanoseconds. -/
def fiveAndOne : List (MetaProperty ℚ) :=
  [measured "131" "ExecTime" "5", measured "146" "cycles" "1000000000"]

theorem objective_isMaximumTime_iff_fiveAndOne :
    (∃ t, IsMaximumTime (readings Interphase.ratDoubles.stod fiveAndOne) t ∧
      ∀ stored, stored.Perm fiveAndOne → objective Interphase.ratDoubles.stod stored = .ok t) ↔
    (∀ p ∈ fiveAndOne, ∃ r, reading Interphase.ratDoubles.stod p = .ok r) ∧
      Steady (readings Interphase.ratDoubles.stod fiveAndOne) :=
  objective_isMaximumTime_iff fiveAndOne

/-- As they are stored the result is one second, and in the other order five. -/
theorem not_objective_isMaximumTime_fiveAndOne :
    ¬ ∃ t, IsMaximumTime (readings Interphase.ratDoubles.stod fiveAndOne) t ∧
      ∀ stored, stored.Perm fiveAndOne →
        objective Interphase.ratDoubles.stod stored = .ok t := by
  rintro ⟨t, -, hstored⟩
  have hone : objective Interphase.ratDoubles.stod fiveAndOne = .ok 1 := by decide +kernel
  have hfive : objective Interphase.ratDoubles.stod fiveAndOne.reverse = .ok 5 := by
    decide +kernel
  have ht := (hstored _ (.refl _)).symm.trans hone
  have ht' := (hstored _ (List.reverse_perm _)).symm.trans hfive
  rw [ht] at ht'
  exact absurd (Outcome.ok.inj ht') (by norm_num)

end Maximum
end TimeObjective

namespace EDPObjective
variable {stod}

variable (stod) in
/-- The energy and the time in seconds of a property, if it is one of those looked at. -/
def charge (property : MetaProperty K) : Outcome (Option (K × K)) := do
  let id ← stoi property.id
  if isRelevant id then
    let energy ← energyOf stod id property
    let timeString ← extraInfo property (timeParam id)
    let value ← stod timeString
    return some (energy, Reading.seconds ⟨id = execTimeImportance, value⟩)
  else return none

variable (stod) in
def charges (properties : List (MetaProperty K)) : List (K × K) :=
  properties.filterMap fun property =>
    match charge stod property with
    | .ok c => c
    | _ => none

def add (s c : K × K) : K × K := (s.1 + c.1, if s.2 < c.2 then c.2 else s.2)

theorem step_eq (s : K × K) (property : MetaProperty K) :
    step stod s property = (charge stod property).bind fun c => .ok (c.elim s (add s)) := by
  rw [step, charge]
  cases stoi property.id with
  | ok id =>
    by_cases hid : isRelevant id
    · simp only [Outcome.ok_bind, hid, if_true]
      cases energyOf stod id property with
      | ok energy =>
        cases extraInfo property (timeParam id) with
        | ok timeString =>
          cases hvalue : stod timeString <;>
            simp [hvalue, Outcome.bind, add, Reading.seconds]
        | throws m => rfl
        | aborts => rfl
        | undefined => rfl
      | throws m => rfl
      | aborts => rfl
      | undefined => rfl
    · simp [hid, Outcome.bind]
  | throws m => rfl
  | aborts => rfl
  | undefined => rfl

theorem foldlM_step_eq_ok {properties : List (MetaProperty K)} :
    ∀ {s t : K × K}, properties.foldlM (step stod) s = .ok t ↔
      (∀ p ∈ properties, ∃ c, charge stod p = .ok c) ∧
        t = (charges stod properties).foldl add s := by
  induction properties with
  | nil =>
    intro s t
    simp [charges, eq_comm]
  | cons p properties ih =>
    intro s t
    rw [List.foldlM_cons, step_eq, List.forall_mem_cons]
    cases hp : charge stod p with
    | ok c =>
      change (properties.foldlM (step stod) (c.elim s (add s)) = .ok t) ↔ _
      rw [ih]
      cases c with
      | none => simp [charges, hp]
      | some c => simp [charges, hp]
    | throws m => simp [Outcome.bind]
    | aborts => simp [Outcome.bind]
    | undefined => simp [Outcome.bind]

theorem foldl_add (cs : List (K × K)) (s : K × K) :
    cs.foldl add s = (s.1 + (cs.map Prod.fst).sum, (cs.map Prod.snd).foldl max s.2) := by
  induction cs generalizing s with
  | nil => simp
  | cons c cs ih =>
    have hmax : (if s.2 < c.2 then c.2 else s.2) = max s.2 c.2 := by
      split_ifs with hless
      · exact (max_eq_right hless.le).symm
      · exact (max_eq_left (not_lt.mp hless)).symm
    rw [List.foldl_cons, ih, add, hmax, List.map_cons, List.sum_cons, add_assoc, List.map_cons,
      List.foldl_cons]

/-- This objective converts a time before it compares it: it is the energy of all properties by
the greatest of their times in seconds. -/
theorem objective_eq_product_iff {properties : List (MetaProperty K)} {x : K} :
    objective stod properties = .ok x ↔
      (∀ p ∈ properties, ∃ c, charge stod p = .ok c) ∧
        x = ((charges stod properties).map Prod.fst).sum *
          ((charges stod properties).map Prod.snd).foldl max (-1) := by
  rw [objective, Outcome.bind_eq_ok]
  constructor
  · rintro ⟨s, hs, hret⟩
    obtain ⟨hreads, rfl⟩ := foldlM_step_eq_ok.mp hs
    rw [foldl_add, zero_add] at hret
    exact ⟨hreads, (Outcome.ok.inj hret).symm⟩
  · rintro ⟨hreads, rfl⟩
    exact ⟨_, foldlM_step_eq_ok.mpr ⟨hreads, rfl⟩, by rw [foldl_add, zero_add]; rfl⟩

end EDPObjective
end ReadexPtf.Autotune
