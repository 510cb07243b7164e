import ReadexPtf.Frontend.ScenarioResultsPool
import Mathlib

/-! The energies, the number of instances and the time that the intraphase plugin stores with a
result: sums over the properties, which are added to what the variables of the caller hold. -/
namespace ReadexPtf.Intraphase
open ReadexPtf Agents ScenarioResults

inductive ConfigType where
  | staticWorst
  | staticBest
  | rtsBest
  deriving DecidableEq

def ConfigType.toNat : ConfigType → ℕ
  | .staticWorst => 0
  | .staticBest => 1
  | .rtsBest => 2

theorem ConfigType.toNat_injective : Function.Injective ConfigType.toNat := by
  intro c c' h
  cases c <;> cases c' <;> first | rfl | cases h

instance : LinearOrder ConfigType := LinearOrder.lift' ConfigType.toNat ConfigType.toNat_injective

/-- The value of the enumerator. -/
def energyConsumption : ℤ := 131

/-- `atoi`, with the numbers that `int` has. -/
def checkedAtoi (text : String) : Outcome ℤ :=
  if FitsInt (atoi text) then .ok (atoi text) else .undefined

/-- The variables of the caller. Doubles are exact numbers. -/
structure Sums where
  cpuEnergy : ℚ
  time : ℚ
  nodeEnergy : ℚ
  instances : ℤ

section Models
variable (atof : String → ℚ)

/-- What is added for a key: nothing where the property does not have it. -/
def addedFor (addInfo : OrdMap String String) (key : String) : Outcome ℚ :=
  match addInfo.get? key with
  | some str => do
    let val ← checkedAtoi str
    return val
  | none => .ok 0

/-- More instances than before come with their time, if they have one. -/
def Sums.raiseInstances (sums : Sums) (addInfo : OrdMap String String) : Outcome Sums :=
  match addInfo.get? "Instances" with
  | some str => do
    let val ← checkedAtoi str
    if sums.instances < val then
      match addInfo.get? "ExecTime" with
      | some str => return { sums with instances := val, time := atof str }
      | none => return { sums with instances := val }
    else return sums
  | none => .ok sums

def Sums.addProperty (sums : Sums) (p : MetaProperty ℚ) : Outcome Sums := do
  let id ← checkedAtoi p.id
  if id = energyConsumption then
    let cpuEnergy ← addedFor p.addInfo "CPUEnergy"
    let nodeEnergy ← addedFor p.addInfo "NodeEnergy"
    { sums with
      cpuEnergy := sums.cpuEnergy + cpuEnergy
      nodeEnergy := sums.nodeEnergy + nodeEnergy }.raiseInstances atof p.addInfo
  else return sums

def insertExtraInfo (properties : List (MetaProperty ℚ)) (sums : Sums)
    (extraInfo : OrdMap String ℚ) : Outcome (Sums × OrdMap String ℚ) := do
  let sums ← properties.foldlM (Sums.addProperty atof) sums
  return (sums, (((extraInfo.insertNew "NodeEnergy" sums.nodeEnergy).insertNew
    "CPUEnergy" sums.cpuEnergy).insertNew "Instances" sums.instances).insertNew
    "ExecTime" sums.time)

/-- The results of the phase and the scenarios that they are of. -/
def phaseScenarios (optimumSc worstSc : ℤ) : List (ConfigType × ℤ) :=
  [(.staticBest, optimumSc), (.staticWorst, worstSc), (.rtsBest, optimumSc)]

/-- One round of the loop over them. Only the number of instances is initialised. -/
def storePhaseResult (pool : ScenarioResultsPool ℚ) (memory : ConfigType → Sums)
    (results : OrdMap ConfigType (OrdMap String ℚ)) (round : ConfigType × ℤ) :
    Outcome (OrdMap ConfigType (OrdMap String ℚ)) := do
  let properties ← pool.getScenarioResultsByID round.2
  let (_, phaseExtraInfo) ←
    insertExtraInfo atof properties { memory round.1 with instances := 0 } .empty
  return results.insertNew round.1 phaseExtraInfo

/-- What the root of the call tree, which has no results yet, gets. -/
def storePhaseResults (pool : ScenarioResultsPool ℚ) (optimumSc worstSc : ℤ)
    (memory : ConfigType → Sums) : Outcome (OrdMap ConfigType (OrdMap String ℚ)) :=
  (phaseScenarios optimumSc worstSc).foldlM (storePhaseResult atof pool memory) .empty

/-- The properties of the energy consumption. -/
def energyProperties (properties : List (MetaProperty ℚ)) : List (MetaProperty ℚ) :=
  properties.filter fun p => atoi p.id = energyConsumption

/-- What they say of a key. -/
def texts (key : String) (properties : List (MetaProperty ℚ)) : List String :=
  (energyProperties properties).filterMap fun p => p.addInfo.get? key

/-- Their instance counts, with the times if they have them. -/
def counts (properties : List (MetaProperty ℚ)) : List (ℤ × Option ℚ) :=
  (energyProperties properties).filterMap fun p => (p.addInfo.get? "Instances").map fun text =>
    (atoi text, (p.addInfo.get? "ExecTime").map atof)

/-- A greatest count. -/
def Greatest (counts : List (ℤ × Option ℚ)) (c : ℤ) : Prop :=
  c ∈ counts.map Prod.fst ∧ ∀ c' ∈ counts.map Prod.fst, c' ≤ c

/-- The information is that of the properties, and all zero where there is none. -/
structure ExtraInfoRight (properties : List (MetaProperty ℚ)) (extraInfo : OrdMap String ℚ) :
    Prop where
  nodeEnergy : extraInfo.get? "NodeEnergy" = some ((texts "NodeEnergy" properties).map atof).sum
  cpuEnergy : extraInfo.get? "CPUEnergy" = some ((texts "CPUEnergy" properties).map atof).sum
  instances : ∃ c : ℤ, extraInfo.get? "Instances" = some (c : ℚ) ∧
    (Greatest (counts atof properties) c ∨ counts atof properties = [] ∧ c = 0)
  execTime : ∃ t, extraInfo.get? "ExecTime" = some t ∧
    ((∃ c, Greatest (counts atof properties) c ∧ (c, some t) ∈ counts atof properties) ∨
      counts atof properties = [] ∧ t = 0)

/-- What the conversion to an integer cuts off. -/
def cutOff (text : String) : ℚ := atof text - atoi text

/-- The times of the properties with more instances than all before them. -/
def raises : ℤ → List (ℤ × Option ℚ) → List (Option ℚ)
  | _, [] => []
  | highest, (c, time) :: counts =>
    if highest < c then time :: raises c counts else raises highest counts

/-- The last of these times, or else what the variable holds. -/
def timeLeft (highest : ℤ) (time : ℚ) (counts : List (ℤ × Option ℚ)) : ℚ :=
  (raises highest counts).reduceOption.getLast?.getD time

/-- Whether what the variables hold makes up for what is cut off, which is 0 for whole numbers. -/
structure Undisturbed (memory : Sums) (properties : List (MetaProperty ℚ)) : Prop where
  ids : ∀ p ∈ properties, FitsInt (atoi p.id)
  readable : ∀ key ∈ ["CPUEnergy", "NodeEnergy", "Instances"], ∀ text ∈ texts key properties,
    FitsInt (atoi text)
  nodeEnergy : memory.nodeEnergy = ((texts "NodeEnergy" properties).map (cutOff atof)).sum
  cpuEnergy : memory.cpuEnergy = ((texts "CPUEnergy" properties).map (cutOff atof)).sum
  counted : counts atof properties = [] ∨ ∃ c ∈ (counts atof properties).map Prod.fst, 0 ≤ c
  time : (∃ c, Greatest (counts atof properties) c ∧
      (c, some (timeLeft 0 memory.time (counts atof properties))) ∈ counts atof properties) ∨
    counts atof properties = [] ∧ memory.time = 0

end Models

section Properties
variable {atof : String → ℚ} {properties : List (MetaProperty ℚ)} {sums : Sums}
  {addInfo : OrdMap String String}

/-- Whether the text of a key, if there is one, is a number that `int` has. -/
def ReadableText (addInfo : OrdMap String String) (key : String) : Prop :=
  ∀ text ∈ addInfo.get? key, FitsInt (atoi text)

/-- The number that is added for a key. -/
def numberOf (addInfo : OrdMap String String) (key : String) : ℚ :=
  ((addInfo.get? key).toList.map fun text => (atoi text : ℚ)).sum

theorem addedFor_eq (addInfo : OrdMap String String) (key : String) :
    (ReadableText addInfo key → addedFor addInfo key = .ok (numberOf addInfo key)) ∧
      (¬ ReadableText addInfo key → addedFor addInfo key = .undefined) := by
  rw [ReadableText, addedFor, numberOf]
  cases addInfo.get? key with
  | none => simp
  | some text => simp +contextual [checkedAtoi]

/-- The instances of a property, with the time if it has one. -/
def countOf (atof : String → ℚ) (addInfo : OrdMap String String) : Option (ℤ × Option ℚ) :=
  (addInfo.get? "Instances").map fun text => (atoi text, (addInfo.get? "ExecTime").map atof)

/-- More instances than before come with their time. -/
def Sums.raise (sums : Sums) : Option (ℤ × Option ℚ) → Sums
  | some (count, time) =>
    if sums.instances < count then { sums with instances := count, time := time.getD sums.time }
    else sums
  | none => sums

theorem raiseInstances_eq (sums : Sums) (addInfo : OrdMap String String) :
    (ReadableText addInfo "Instances" →
        sums.raiseInstances atof addInfo = .ok (sums.raise (countOf atof addInfo))) ∧
      (¬ ReadableText addInfo "Instances" → sums.raiseInstances atof addInfo = .undefined) := by
  rw [ReadableText, Sums.raiseInstances, countOf]
  cases addInfo.get? "Instances" with
  | none => simp [Sums.raise]
  | some text =>
    constructor
    · intro hreadable
      simp only [checkedAtoi, if_pos (hreadable text rfl), Outcome.ok_bind, Option.map_some,
        Sums.raise]
      split_ifs
      · cases addInfo.get? "ExecTime" <;> rfl
      · rfl
    · simp +contextual [checkedAtoi]

/-- Whether all numbers that are read of a property are numbers that `int` has. -/
def Readable (p : MetaProperty ℚ) : Prop :=
  FitsInt (atoi p.id) ∧ (atoi p.id = energyConsumption →
    ∀ key ∈ ["CPUEnergy", "NodeEnergy", "Instances"], ReadableText p.addInfo key)

/-- The variables after a property. -/
def Sums.next (atof : String → ℚ) (sums : Sums) (p : MetaProperty ℚ) : Sums :=
  if atoi p.id = energyConsumption then
    { sums with
      cpuEnergy := sums.cpuEnergy + numberOf p.addInfo "CPUEnergy"
      nodeEnergy := sums.nodeEnergy + numberOf p.addInfo "NodeEnergy" }.raise
        (countOf atof p.addInfo)
  else sums

theorem addProperty_eq (sums : Sums) (p : MetaProperty ℚ) :
    (Readable p → sums.addProperty atof p = .ok (sums.next atof p)) ∧
      (¬ Readable p → sums.addProperty atof p = .undefined) := by
  rw [Readable, Sums.addProperty, Sums.next, checkedAtoi]
  by_cases hid : FitsInt (atoi p.id)
  · rw [if_pos hid, Outcome.ok_bind, and_iff_right hid]
    by_cases henergy : atoi p.id = energyConsumption
    · rw [if_pos henergy, if_pos henergy, forall_prop_of_true henergy]
      simp only [List.forall_mem_cons, List.not_mem_nil, false_imp_iff, implies_true, and_true]
      by_cases hcpu : ReadableText p.addInfo "CPUEnergy"
      · rw [(addedFor_eq p.addInfo _).1 hcpu, Outcome.ok_bind]
        by_cases hnode : ReadableText p.addInfo "NodeEnergy"
        · rw [(addedFor_eq p.addInfo _).1 hnode, Outcome.ok_bind, and_iff_right hcpu,
            and_iff_right hnode]
          exact raiseInstances_eq _ p.addInfo
        · rw [(addedFor_eq p.addInfo _).2 hnode]
          exact ⟨fun h => absurd h.2.1 hnode, fun _ => rfl⟩
      · rw [(addedFor_eq p.addInfo _).2 hcpu]
        exact ⟨fun h => absurd h.1 hcpu, fun _ => rfl⟩
    · rw [if_neg henergy, if_neg henergy]
      exact ⟨fun _ => rfl, fun h => absurd (fun h' => absurd h' henergy) h⟩
  · rw [if_neg hid]
    exact ⟨fun h => absurd h.1 hid, fun _ => rfl⟩

theorem foldlM_addProperty (atof : String → ℚ) (properties : List (MetaProperty ℚ)) :
    ∀ sums : Sums,
      ((∀ p ∈ properties, Readable p) → properties.foldlM (Sums.addProperty atof) sums =
        .ok (properties.foldl (Sums.next atof) sums)) ∧
      (¬ (∀ p ∈ properties, Readable p) →
        properties.foldlM (Sums.addProperty atof) sums = .undefined) := by
  induction properties with
  | nil => exact fun sums => ⟨fun _ => rfl, fun h => absurd (List.forall_mem_nil _) h⟩
  | cons p properties ih =>
    intro sums
    rw [List.foldlM_cons, List.foldl_cons, List.forall_mem_cons]
    by_cases hp : Readable p
    · rw [(addProperty_eq sums p).1 hp, Outcome.ok_bind, and_iff_right hp]
      exact ih _
    · rw [(addProperty_eq sums p).2 hp]
      exact ⟨fun h => absurd h.1 hp, fun _ => rfl⟩

theorem texts_cons (key : String) (p : MetaProperty ℚ) : texts key (p :: properties) =
    (if atoi p.id = energyConsumption then (p.addInfo.get? key).toList else []) ++
      texts key properties := by
  rw [texts, energyProperties, List.filter_cons]
  by_cases hid : atoi p.id = energyConsumption
  · simp only [hid, decide_true, if_true, List.filterMap_cons]
    cases p.addInfo.get? key <;> rfl
  · simp only [hid, decide_false, if_false, Bool.false_eq_true, List.nil_append]
    rfl

theorem counts_cons (p : MetaProperty ℚ) : counts atof (p :: properties) =
    (if atoi p.id = energyConsumption then (countOf atof p.addInfo).toList else []) ++
      counts atof properties := by
  rw [counts, energyProperties, List.filter_cons]
  by_cases hid : atoi p.id = energyConsumption
  · simp only [hid, decide_true, if_true, List.filterMap_cons, countOf]
    cases p.addInfo.get? "Instances" <;> rfl
  · simp only [hid, decide_false, if_false, Bool.false_eq_true, List.nil_append]
    rfl

theorem raise_energies (sums : Sums) (count : Option (ℤ × Option ℚ)) :
    (sums.raise count).cpuEnergy = sums.cpuEnergy ∧
      (sums.raise count).nodeEnergy = sums.nodeEnergy := by
  cases count with
  | none => exact ⟨rfl, rfl⟩
  | some count =>
    rw [Sums.raise]
    split_ifs <;> exact ⟨rfl, rfl⟩

/-- The sum of the numbers of a key. -/
def sumOf (key : String) (properties : List (MetaProperty ℚ)) : ℚ :=
  ((texts key properties).map fun text => (atoi text : ℚ)).sum

theorem sumOf_cons (key : String) (p : MetaProperty ℚ) : sumOf key (p :: properties) =
    (if atoi p.id = energyConsumption then numberOf p.addInfo key else 0) +
      sumOf key properties := by
  rw [sumOf, texts_cons, List.map_append, List.sum_append]
  split_ifs <;> rfl

theorem foldl_next_energies (atof : String → ℚ) (properties : List (MetaProperty ℚ)) :
    ∀ sums : Sums, (properties.foldl (Sums.next atof) sums).cpuEnergy =
        sums.cpuEnergy + sumOf "CPUEnergy" properties ∧
      (properties.foldl (Sums.next atof) sums).nodeEnergy =
        sums.nodeEnergy + sumOf "NodeEnergy" properties := by
  induction properties with
  | nil => exact fun sums => ⟨(add_zero _).symm, (add_zero _).symm⟩
  | cons p properties ih =>
    intro sums
    rw [List.foldl_cons, (ih _).1, (ih _).2, sumOf_cons, sumOf_cons, ← add_assoc, ← add_assoc,
      Sums.next]
    split_ifs
    · rw [(raise_energies _ _).1, (raise_energies _ _).2]
      exact ⟨rfl, rfl⟩
    · rw [add_zero, add_zero]
      exact ⟨rfl, rfl⟩

theorem timeLeft_cons (highest : ℤ) (time : ℚ) (count : ℤ × Option ℚ)
    (counts : List (ℤ × Option ℚ)) : timeLeft highest time (count :: counts) =
      if highest < count.1 then timeLeft count.1 (count.2.getD time) counts
      else timeLeft highest time counts := by
  obtain ⟨c, t⟩ := count
  rw [timeLeft, raises]
  split_ifs
  · cases t with
    | none => rfl
    | some t =>
      rw [List.reduceOption_cons_of_some, List.getLast?_cons]
      rfl
  · rfl

theorem foldl_next_instances (atof : String → ℚ) (properties : List (MetaProperty ℚ)) :
    ∀ sums : Sums, (properties.foldl (Sums.next atof) sums).instances =
        ((counts atof properties).map Prod.fst).foldl max sums.instances ∧
      (properties.foldl (Sums.next atof) sums).time =
        timeLeft sums.instances sums.time (counts atof properties) := by
  induction properties with
  | nil => exact fun sums => ⟨rfl, rfl⟩
  | cons p properties ih =>
    intro sums
    rw [List.foldl_cons, (ih _).1, (ih _).2, counts_cons, Sums.next]
    split_ifs
    · cases countOf atof p.addInfo with
      | none => exact ⟨rfl, rfl⟩
      | some count =>
        rw [Option.toList_some, List.singleton_append, List.map_cons, List.foldl_cons,
          timeLeft_cons, Sums.raise]
        split_ifs with hmore
        · rw [max_eq_right hmore.le]
          exact ⟨rfl, rfl⟩
        · rw [max_eq_left (not_lt.mp hmore)]
          exact ⟨rfl, rfl⟩
    · exact ⟨rfl, rfl⟩

theorem readable_iff (properties : List (MetaProperty ℚ)) : (∀ p ∈ properties, Readable p) ↔
    (∀ p ∈ properties, FitsInt (atoi p.id)) ∧
      ∀ key ∈ ["CPUEnergy", "NodeEnergy", "Instances"], ∀ text ∈ texts key properties,
        FitsInt (atoi text) := by
  have htext : ∀ key text, text ∈ texts key properties ↔ ∃ p ∈ properties,
      atoi p.id = energyConsumption ∧ p.addInfo.get? key = some text := by
    intro key text
    simp [texts, energyProperties, and_assoc]
  constructor
  · intro h
    refine ⟨fun p hp => (h p hp).1, fun key hkey text hmem => ?_⟩
    obtain ⟨p, hp, hid, hget⟩ := (htext key text).mp hmem
    exact (h p hp).2 hid key hkey text hget
  · rintro ⟨hids, htexts⟩ p hp
    exact ⟨hids p hp, fun hid key hkey text hget =>
      htexts key hkey text ((htext key text).mpr ⟨p, hp, hid, hget⟩)⟩

theorem foldl_max_spec (cs : List ℤ) (start : ℤ) :
    cs.foldl max start ∈ start :: cs ∧ ∀ c ∈ start :: cs, c ≤ cs.foldl max start :=
  List.max?_eq_some_iff.mp List.max?_cons'

/-- The greatest count is stored unless all are negative. -/
theorem greatest_foldl_max_iff (counts : List (ℤ × Option ℚ)) :
    (Greatest counts ((counts.map Prod.fst).foldl max 0) ∨
        counts = [] ∧ (counts.map Prod.fst).foldl max 0 = 0) ↔
      counts = [] ∨ ∃ c ∈ counts.map Prod.fst, 0 ≤ c := by
  obtain ⟨hone, hall⟩ := foldl_max_spec (counts.map Prod.fst) 0
  rw [List.forall_mem_cons] at hall
  constructor
  · rintro (hgreatest | hnone)
    · exact .inr ⟨_, hgreatest.1, hall.1⟩
    · exact .inl hnone.1
  · rintro (rfl | ⟨c, hc, hpos⟩)
    · exact .inr ⟨rfl, rfl⟩
    · refine .inl ⟨(List.mem_cons.mp hone).elim (fun hzero => ?_) id, hall.2⟩
      have hle := hall.2 c hc
      rw [hzero] at hle ⊢
      rwa [← le_antisymm hle hpos]

/-- The numbers that the texts stand for are those that are added and what is cut off. -/
theorem add_sumOf_eq_iff (key : String) (stored : ℚ) :
    stored + sumOf key properties = ((texts key properties).map atof).sum ↔
      stored = ((texts key properties).map (cutOff atof)).sum := by
  have hsum : ((texts key properties).map (cutOff atof)).sum + sumOf key properties =
      ((texts key properties).map atof).sum := by
    rw [sumOf, ← List.sum_map_add]
    simp [cutOff]
  rw [← hsum, add_left_inj]

/-- What is stored is right exactly where the variables make up for what is cut off. -/
theorem extraInfoRight_iff (memory final : Sums) (extraInfo : OrdMap String ℚ)
    (hreadable : ∀ p ∈ properties, Readable p)
    (hfinal : final = properties.foldl (Sums.next atof) { memory with instances := 0 })
    (hnode : extraInfo.get? "NodeEnergy" = some final.nodeEnergy)
    (hcpu : extraInfo.get? "CPUEnergy" = some final.cpuEnergy)
    (hinstances : extraInfo.get? "Instances" = some (final.instances : ℚ))
    (htime : extraInfo.get? "ExecTime" = some final.time) :
    ExtraInfoRight atof properties extraInfo ↔ Undisturbed atof memory properties := by
  obtain ⟨hids, htexts⟩ := (readable_iff properties).mp hreadable
  obtain ⟨hcpuSum, hnodeSum⟩ :=
    foldl_next_energies atof properties { memory with instances := 0 }
  obtain ⟨hmax, hlast⟩ := foldl_next_instances atof properties { memory with instances := 0 }
  rw [← hfinal] at hcpuSum hnodeSum hmax hlast
  have hgreatest := greatest_foldl_max_iff (counts atof properties)
  rw [← hmax] at hgreatest
  constructor
  · intro h
    refine ⟨hids, htexts, ?_, ?_, hgreatest.mp ?_, ?_⟩
    · rw [← add_sumOf_eq_iff]
      exact hnodeSum.symm.trans (Option.some.inj (hnode.symm.trans h.nodeEnergy))
    · rw [← add_sumOf_eq_iff]
      exact hcpuSum.symm.trans (Option.some.inj (hcpu.symm.trans h.cpuEnergy))
    · obtain ⟨c, hc, hcount⟩ := h.instances
      rw [hinstances, Option.some.injEq, Int.cast_inj] at hc
      rwa [hc]
    · obtain ⟨t, ht, hcount⟩ := h.execTime
      rw [htime, Option.some.injEq] at ht
      rw [← ht, hlast] at hcount
      refine hcount.imp_right fun hnone => ⟨hnone.1, ?_⟩
      have hzero := hnone.2
      rwa [hnone.1] at hzero
  · intro h
    refine ⟨?_, ?_, ⟨final.instances, hinstances, hgreatest.mpr h.counted⟩, final.time, htime, ?_⟩
    · rw [hnode, hnodeSum, Option.some.injEq, add_sumOf_eq_iff]
      exact h.nodeEnergy
    · rw [hcpu, hcpuSum, Option.some.injEq, add_sumOf_eq_iff]
      exact h.cpuEnergy
    · rw [hlast]
      refine h.time.imp_right fun hnone => ⟨hnone.1, ?_⟩
      rw [hnone.1]
      exact hnone.2

/-- One result of the phase. -/
theorem insertExtraInfo_right_iff (memory : Sums) (properties : List (MetaProperty ℚ)) :
    (∃ sums extraInfo, insertExtraInfo atof properties { memory with instances := 0 } .empty =
        .ok (sums, extraInfo) ∧ ExtraInfoRight atof properties extraInfo) ↔
      Undisturbed atof memory properties := by
  obtain ⟨hruns, hstops⟩ := foldlM_addProperty atof properties { memory with instances := 0 }
  by_cases hreadable : ∀ p ∈ properties, Readable p
  · have hright := fun extraInfo =>
      @extraInfoRight_iff atof properties memory _ extraInfo hreadable rfl
    rw [insertExtraInfo, hruns hreadable, Outcome.ok_bind]
    constructor
    · rintro ⟨sums, extraInfo, hstored, hinfo⟩
      cases hstored
      refine (hright _ ?_ ?_ ?_ ?_).mp hinfo <;> simp [OrdMap.get?_insertNew, OrdMap.get?_empty]
    · intro h
      refine ⟨_, _, rfl, (hright _ ?_ ?_ ?_ ?_).mpr h⟩ <;>
        simp [OrdMap.get?_insertNew, OrdMap.get?_empty]
  · rw [insertExtraInfo, hstops hreadable]
    refine iff_of_false ?_ fun h => ?_
    · rintro ⟨sums, extraInfo, hstored, -⟩
      cases hstored
    · exact hreadable ((readable_iff properties).mpr ⟨h.ids, h.readable⟩)

end Properties

section Rounds
variable {atof : String → ℚ} {pool : ScenarioResultsPool ℚ} {memory : ConfigType → Sums}

/-- What a round computes for a result. -/
def RoundGives (atof : String → ℚ) (pool : ScenarioResultsPool ℚ) (memory : ConfigType → Sums)
    (round : ConfigType × ℤ) (properties : List (MetaProperty ℚ)) (extraInfo : OrdMap String ℚ) :
    Prop :=
  pool.getScenarioResultsByID round.2 = .ok properties ∧ ∃ sums,
    insertExtraInfo atof properties { memory round.1 with instances := 0 } .empty =
      .ok (sums, extraInfo)

theorem storePhaseResult_eq_ok {results results' : OrdMap ConfigType (OrdMap String ℚ)}
    {round : ConfigType × ℤ} :
    storePhaseResult atof pool memory results round = .ok results' ↔
      ∃ properties extraInfo, RoundGives atof pool memory round properties extraInfo ∧
        results' = results.insertNew round.1 extraInfo := by
  rw [storePhaseResult]
  constructor
  · intro h
    obtain ⟨properties, hproperties, h⟩ := Outcome.bind_eq_ok.mp h
    obtain ⟨⟨sums, extraInfo⟩, hinfo, h⟩ := Outcome.bind_eq_ok.mp h
    exact ⟨properties, extraInfo, ⟨hproperties, sums, hinfo⟩, (Outcome.ok.inj h).symm⟩
  · rintro ⟨properties, extraInfo, ⟨hproperties, sums, hinfo⟩, rfl⟩
    rw [hproperties, Outcome.ok_bind, hinfo]
    rfl

/-- Different results of the plugin, none of which is there before, are all stored. -/
theorem foldlM_storePhaseResult (rounds : List (ConfigType × ℤ)) :
    ∀ {results results' : OrdMap ConfigType (OrdMap String ℚ)}, (rounds.map Prod.fst).Nodup →
      (∀ round ∈ rounds, results.get? round.1 = none) →
      rounds.foldlM (storePhaseResult atof pool memory) results = .ok results' →
      (∀ config ∉ rounds.map Prod.fst, results'.get? config = results.get? config) ∧
        ∀ round ∈ rounds, ∃ properties extraInfo,
          RoundGives atof pool memory round properties extraInfo ∧
            results'.get? round.1 = some extraInfo := by
  induction rounds with
  | nil =>
    intro results results' _ _ h
    exact ⟨fun _ _ => by rw [Outcome.ok.inj h], List.forall_mem_nil _⟩
  | cons round rounds ih =>
    intro results results' hnodup hnone h
    rw [List.foldlM_cons] at h
    obtain ⟨next, hnext, hrest⟩ := Outcome.bind_eq_ok.mp h
    obtain ⟨properties, extraInfo, hgives, rfl⟩ := storePhaseResult_eq_ok.mp hnext
    rw [List.map_cons, List.nodup_cons] at hnodup
    rw [List.forall_mem_cons] at hnone ⊢
    obtain ⟨hkept, hlater⟩ := ih hnodup.2 (fun later hlater => by
      have hother : later.1 ≠ round.1 := fun hsame =>
        hnodup.1 (hsame ▸ List.mem_map_of_mem hlater)
      rw [OrdMap.get?_insertNew, hnone.2 later hlater]
      simp [hother]) hrest
    refine ⟨fun config hconfig => ?_, ⟨properties, extraInfo, hgives, ?_⟩, hlater⟩
    · rw [List.map_cons, List.mem_cons, not_or] at hconfig
      rw [hkept config hconfig.2, OrdMap.get?_insertNew]
      simp [hconfig.1]
    · rw [hkept round.1 hnodup.1, OrdMap.get?_insertNew, hnone.1]
      simp

theorem nodup_phaseScenarios (optimumSc worstSc : ℤ) :
    ((phaseScenarios optimumSc worstSc).map Prod.fst).Nodup := by
  simp [phaseScenarios]

end Rounds

/-- The phase gets the sums of each scenario alone exactly where the variables make up for what is
cut off from the numbers. -/
theorem phaseResults_right_iff (atof : String → ℚ) (pool : ScenarioResultsPool ℚ)
    (optimumSc worstSc : ℤ) (memory : ConfigType → Sums) :
    (∃ results, storePhaseResults atof pool optimumSc worstSc memory = .ok results ∧
        ∀ round ∈ phaseScenarios optimumSc worstSc, ∃ properties extraInfo,
          pool.getScenarioResultsByID round.2 = .ok properties ∧
          results.get? round.1 = some extraInfo ∧ ExtraInfoRight atof properties extraInfo) ↔
      ∀ round ∈ phaseScenarios optimumSc worstSc, ∃ properties,
        pool.getScenarioResultsByID round.2 = .ok properties ∧
        Undisturbed atof (memory round.1) properties := by
  constructor
  · rintro ⟨results, hrun, hright⟩ round hround
    obtain ⟨properties, extraInfo, hproperties, hstored, hinfo⟩ := hright round hround
    obtain ⟨-, hgives⟩ := foldlM_storePhaseResult _ (nodup_phaseScenarios _ _) (fun _ _ => rfl) hrun
    obtain ⟨properties', extraInfo', ⟨hproperties', sums, hinserted⟩, hstored'⟩ :=
      hgives round hround
    obtain rfl := Outcome.ok.inj (hproperties.symm.trans hproperties')
    obtain rfl := Option.some.inj (hstored.symm.trans hstored')
    exact ⟨properties, hproperties, (insertExtraInfo_right_iff (memory round.1) properties).mp
      ⟨sums, extraInfo, hinserted, hinfo⟩⟩
  · intro h
    have hrounds : ∀ round ∈ phaseScenarios optimumSc worstSc, ∃ properties extraInfo,
        RoundGives atof pool memory round properties extraInfo ∧
          ExtraInfoRight atof properties extraInfo := by
      intro round hround
      obtain ⟨properties, hproperties, hundisturbed⟩ := h round hround
      obtain ⟨sums, extraInfo, hinserted, hinfo⟩ :=
        (insertExtraInfo_right_iff (memory round.1) properties).mpr hundisturbed
      exact ⟨properties, extraInfo, ⟨hproperties, sums, hinserted⟩, hinfo⟩
    obtain ⟨results, hrun⟩ : ∃ results,
        storePhaseResults atof pool optimumSc worstSc memory = .ok results := by
      refine Outcome.foldlM_returns (fun results round hround => ?_) _
      obtain ⟨properties, extraInfo, hgives, -⟩ := hrounds round hround
      exact ⟨_, storePhaseResult_eq_ok.mpr ⟨properties, extraInfo, hgives, rfl⟩⟩
    obtain ⟨-, hstored⟩ :=
      foldlM_storePhaseResult _ (nodup_phaseScenarios _ _) (fun _ _ => rfl) hrun
    refine ⟨results, hrun, fun round hround => ?_⟩
    obtain ⟨properties, extraInfo, hgives, hinfo⟩ := hrounds round hround
    obtain ⟨properties', extraInfo', hgives', hget⟩ := hstored round hround
    obtain rfl := Outcome.ok.inj (hgives.1.symm.trans hgives'.1)
    obtain ⟨sums, hinserted⟩ := hgives.2
    obtain ⟨sums', hinserted'⟩ := hgives'.2
    rw [hinserted] at hinserted'
    cases hinserted'
    exact ⟨properties, extraInfo, hgives.1, hget, hinfo⟩

/-- A property of the energy consumption with these texts. -/
def energyProperty (nodeEnergy cpuEnergy instances execTime : String) : MetaProperty ℚ :=
  { MetaProperty.emptyProp 0 with
    id := "131"
    addInfo := .ofList [("NodeEnergy", nodeEnergy), ("CPUEnergy", cpuEnergy),
      ("Instances", instances), ("ExecTime", execTime)] }

/-- One property, and 7 is left in the variable of the node energy: 12 is stored instead of 5. -/
theorem not_phaseResults_right :
    let pool : ScenarioResultsPool ℚ :=
      ⟨.empty, OrdMap.empty.set 0 ⟨[energyProperty "5" "2" "1" "3"]⟩⟩
    let memory : ConfigType → Sums := fun _ => ⟨0, 0, 7, 0⟩
    ¬ ∃ results, storePhaseResults (fun text => atoi text) pool 0 0 memory = .ok results ∧
      ∀ round ∈ phaseScenarios 0 0, ∃ properties extraInfo,
        pool.getScenarioResultsByID round.2 = .ok properties ∧
        results.get? round.1 = some extraInfo ∧
          ExtraInfoRight (fun text => atoi text) properties extraInfo := by
  rintro pool memory ⟨results, hrun, hright⟩
  obtain ⟨-, hgives⟩ := foldlM_storePhaseResult _ (nodup_phaseScenarios 0 0) (fun _ _ => rfl) hrun
  obtain ⟨properties, extraInfo, hproperties, hstored, hinfo⟩ :=
    hright (.staticBest, 0) List.mem_cons_self
  obtain ⟨properties', extraInfo', ⟨hproperties', sums, hinserted⟩, hstored'⟩ :=
    hgives (.staticBest, 0) List.mem_cons_self
  obtain rfl := Outcome.ok.inj (hproperties.symm.trans hproperties')
  obtain rfl := Option.some.inj (hstored.symm.trans hstored')
  have hundisturbed :=
    (insertExtraInfo_right_iff _ properties).mp ⟨sums, extraInfo, hinserted, hinfo⟩
  -- nothing is cut off from whole numbers
  have hwhole : (cutOff fun text => (atoi text : ℚ)) = fun _ => 0 := funext fun _ => sub_self _
  have hnode := hundisturbed.nodeEnergy
  rw [hwhole] at hnode
  simp [memory] at hnode

end ReadexPtf.Intraphase
