import ReadexPtf.Agents.MetaProperty
import ReadexPtf.Autotune.RationalArith
import ReadexPtf.Lib.Grouping
import Mathlib

/-! How a high-level agent merges the properties that it has collected. -/
namespace ReadexPtf.Agents
open ReadexPtf
variable {V : Type} (arith : Autotune.DoubleArith V)

/-- `1.5`, for severities and for confidences. -/
def clusterTh : V := arith.div (arith.ofInt 3) (arith.ofInt 2)

/-- Properties of the same kind in the same region. -/
def MetaProperty.sameKey (it1 it2 : MetaProperty V) : Bool :=
  it2.id = it1.id && it2.regionId = it1.regionId

/-- Properties that also have a similar severity and confidence. -/
def MetaProperty.similar (it1 it2 : MetaProperty V) : Bool :=
  it1.sameKey it2 &&
    arith.lt (arith.abs (arith.sub it2.severity it1.severity)) (clusterTh arith) &&
    arith.lt (arith.abs (arith.sub it2.confidence it1.confidence)) (clusterTh arith)

section MergeStrings

/-- One round for each line of `str1`. The condition reads the end of the line before. -/
def mergeLines (str1 : List Char) : ℕ → Option ℕ → Bool → List Char → List Char
  | 0, _, _, merged => merged
  | _, none, _, merged => merged
  | rounds + 1, some start, stopFound, merged =>
    if ¬stopFound then merged
    else
      let stop := findFrom ['\n'] str1 start
      let checkstr := match stop with
        | some stop => (str1.drop start).take (stop - start)
        | none => str1.drop start
      let merged := if (findFrom checkstr merged 0).isNone then merged ++ checkstr else merged
      let next := match stop with
        | some stop => findFrom ['f', ':', ' '] str1 stop
        | none => none
      mergeLines str1 rounds next stop.isSome merged

/-- The position that the first round reads as the end of a line was never set; `garbage`
tells whether it happens to be one. -/
def mergeStrings (garbage : Bool) (str1 str2 : String) : String :=
  if str1.length > 1 ∧ str2.length > 2 then
    String.ofList (mergeLines str1.toList (str1.length + 1)
      (findFrom ['f', ':', ' '] str1.toList 0) garbage str2.toList)
  else str2

/-- The first entry. -/
def MetaProperty.firstInfo (prop : MetaProperty V) : String :=
  match prop.addInfo.entries with
  | [] => ""
  | info :: _ => info.2

end MergeStrings

/-- What the loops add up. -/
structure Sums (V : Type) where
  nprop : MetaProperty V
  instances : ℤ
  sev : V
  conf : V

def Sums.add (sums : Sums V) (it2 : MetaProperty V) (instances : ℤ) : Sums V :=
  { sums with
    instances := sums.instances + instances
    sev := arith.add sums.sev it2.severity
    conf := arith.add sums.conf it2.confidence }

/-- The new property describes the same region as its first member. -/
def MetaProperty.describe (it1 : MetaProperty V) (sums : Sums V) (instances : ℤ) :
    Outcome (MetaProperty V) := do
  let nprop ← { sums.nprop with
    cluster := true
    id := it1.id
    name := it1.name
    fileId := it1.fileId
    fileName := it1.fileName
    startLine := it1.startLine }.setConfiguration it1.getConfiguration
  .ok { { nprop with regionType := it1.regionType }.setRegionId it1.regionId with
    confidence := arith.div sums.conf (arith.ofInt instances)
    severity := arith.div sums.sev (arith.ofInt instances) }

section Gather

/-- The properties of the same kind and region are marked. -/
def gatherInto (it1 : MetaProperty V) : Sums V → List (MetaProperty V) →
    Outcome (Sums V × List (MetaProperty V))
  | sums, [] => .ok (sums, [])
  | sums, it2 :: rest =>
    if it1.sameKey it2 then do
      let thread ← it2.getThread
      let result ← gatherInto it1 (sums.add arith it2 thread) rest
      .ok (result.1, { it2 with done := true } :: result.2)
    else do
      let result ← gatherInto it1 sums rest
      .ok (result.1, it2 :: result.2)

/-- One round for each property that was collected. -/
def gatherLoop : ℕ → MetaProperty V → List (MetaProperty V) → Outcome (List (MetaProperty V))
  | 0, _, _ => .ok []
  | _, _, [] => .ok []
  | rounds + 1, nprop, it1 :: rest =>
    if it1.done then gatherLoop rounds nprop rest
    else do
      let instances ← it1.getThread
      let result ← gatherInto arith it1 ⟨nprop, instances, it1.severity, it1.confidence⟩ rest
      let instances := if result.1.instances < 1 then 1 else result.1.instances
      let nprop ← it1.describe arith result.1 instances
      let props ← gatherLoop rounds nprop result.2
      .ok (nprop :: props)

end Gather

section Cluster
variable (garbage : Bool)

/-- A property that is no cluster itself is one execution object. -/
def MetaProperty.addExecObjsOf (prop : MetaProperty V) (nprop : MetaProperty V) :
    Outcome (MetaProperty V) :=
  if prop.cluster then .ok (nprop.addExecObjs prop.execObjs)
  else do
    let process ← prop.getProcess
    let thread ← prop.getThread
    .ok (nprop.addExecObj process thread)

/-- The regions that the next experiment needs are merged as well. -/
def MetaProperty.mergeInfo (it1 it2 nprop : MetaProperty V) : MetaProperty V :=
  if it1.name = "Required regions in the next experiment" then
    nprop.addExtraInfo "" (mergeStrings garbage it1.firstInfo it2.firstInfo)
  else nprop

/-- The similar properties are marked. -/
def clusterInto (it1 : MetaProperty V) : Sums V → List (MetaProperty V) →
    Outcome (Sums V × List (MetaProperty V))
  | sums, [] => .ok (sums, [])
  | sums, it2 :: rest =>
    if it2.done then do
      let result ← clusterInto it1 sums rest
      .ok (result.1, it2 :: result.2)
    else do
      let _process ← it2.getProcess
      if it1.similar arith it2 then
        let nprop ← it2.addExecObjsOf (it1.mergeInfo garbage it2 sums.nprop)
        let result ← clusterInto it1
          { sums.add arith it2 1 with nprop := { nprop with cluster := true } } rest
        .ok (result.1, { it2 with done := true } :: result.2)
      else
        let result ← clusterInto it1 sums rest
        .ok (result.1, it2 :: result.2)

/-- One round for each property that was collected. -/
def clusterLoop : ℕ → MetaProperty V → List (MetaProperty V) → Outcome (List (MetaProperty V))
  | 0, _, _ => .ok []
  | _, _, [] => .ok []
  | rounds + 1, nprop, it1 :: rest =>
    if it1.done then clusterLoop rounds nprop rest
    else do
      let _process ← it1.getProcess
      let result ← clusterInto arith garbage it1 ⟨nprop, 1, it1.severity, it1.confidence⟩ rest
      if result.1.nprop.cluster then
        let nprop ← it1.addExecObjsOf result.1.nprop
        let nprop ← it1.describe arith { result.1 with nprop := nprop } result.1.instances
        let props ← clusterLoop rounds (.emptyProp (arith.ofInt 0)) result.2
        .ok (nprop :: props)
      else
        let props ← clusterLoop rounds result.1.nprop result.2
        .ok (it1 :: props)

/-- The properties that go to the parent. -/
def clusterProps (gatherproperties : Bool) (properties : List (MetaProperty V)) :
    Outcome (List (MetaProperty V)) :=
  let nprop := MetaProperty.emptyProp (arith.ofInt 0)
  if gatherproperties then gatherLoop arith properties.length nprop properties
  else clusterLoop arith garbage properties.length nprop properties

end Cluster

/-- A property with a region, of which a process was read when it arrived. -/
structure MetaProperty.Sound (prop : MetaProperty V) : Prop where
  regionId : prop.regionId ≠ ""
  execObjs : prop.execObjs ≠ []

/-- What an agent has collected, none of it done. -/
structure MetaProperty.Collected (prop : MetaProperty V) : Prop extends prop.Sound where
  pending : prop.done = false

/-- What a property says of its kind and its region. -/
def MetaProperty.context (prop : MetaProperty V) :
    String × String × ℤ × String × ℤ × ℤ × ℤ × ℤ × String :=
  (prop.id, prop.name, prop.fileId, prop.fileName, prop.startLine, prop.maxProcs,
    prop.maxThreads, prop.regionType, prop.regionId)

/-- The execution objects that a merged property keeps of a member. -/
def MetaProperty.kept (prop : MetaProperty V) : List ExecObj :=
  if prop.cluster then prop.execObjs else prop.execObjs.take 1

/-- The execution objects of the property that is sent for a group. -/
def groupObjs (gatherproperties : Bool) (group : MetaProperty V × List (MetaProperty V)) :
    List ExecObj :=
  if gatherproperties then []
  else if group.2 = [] then group.1.execObjs
  else group.2.flatMap MetaProperty.kept ++ group.1.kept

/-- Which properties come into one group. -/
def joins (gatherproperties : Bool) : MetaProperty V → MetaProperty V → Bool :=
  if gatherproperties then MetaProperty.sameKey else MetaProperty.similar arith

/-- The property that is sent for a group. -/
def Forwards (gatherproperties : Bool) (group : MetaProperty V × List (MetaProperty V))
    (prop : MetaProperty V) : Prop :=
  prop.context = group.1.context ∧ prop.execObjs = groupObjs gatherproperties group

/-- The thread of the first execution object, where there is one. -/
def MetaProperty.firstThread (prop : MetaProperty V) : ℤ :=
  (prop.execObjs.head?.map ExecObj.thread).getD 0

/-- What a sum is divided by: one for each message, or the threads that were gathered. -/
def groupInstances (gatherproperties : Bool) (group : MetaProperty V × List (MetaProperty V)) : ℤ :=
  if gatherproperties then
    let threads := ((group.1 :: group.2).map MetaProperty.firstThread).sum
    if threads < 1 then 1 else threads
  else 1 + group.2.length

/-- The severity or the confidence of the property that is sent for a group. -/
def meanOf (gatherproperties : Bool) (value : MetaProperty V → V)
    (group : MetaProperty V × List (MetaProperty V)) : V :=
  if gatherproperties = false ∧ group.2 = [] then value group.1
  else arith.div (group.2.foldl (fun sum it2 => arith.add sum (value it2)) (value group.1))
    (arith.ofInt (groupInstances gatherproperties group))

/-- The text of the first member is merged with that of each other one. -/
def mergeInfos (garbage : Bool) (it1 : MetaProperty V) (addInfo : OrdMap String String)
    (it2 : MetaProperty V) : OrdMap String String :=
  if it1.name = "Required regions in the next experiment" then
    addInfo.insertNew "" (mergeStrings garbage it1.firstInfo it2.firstInfo)
  else addInfo

def infoOf (garbage gatherproperties : Bool) (group : MetaProperty V × List (MetaProperty V)) :
    OrdMap String String :=
  if gatherproperties then .empty
  else if group.2 = [] then group.1.addInfo
  else group.2.foldl (mergeInfos garbage group.1) .empty

/-- The property that is sent for a group, with its values. -/
structure Merges (garbage gatherproperties : Bool)
    (group : MetaProperty V × List (MetaProperty V)) (prop : MetaProperty V) : Prop where
  forwards : Forwards gatherproperties group prop
  severity : prop.severity = meanOf arith gatherproperties MetaProperty.severity group
  confidence : prop.confidence = meanOf arith gatherproperties MetaProperty.confidence group
  addInfo : prop.addInfo = infoOf garbage gatherproperties group
  pending : prop.done = false

/-- A similar property that is taken in. -/
def Sums.join (garbage : Bool) (it1 : MetaProperty V) (sums : Sums V) (it2 : MetaProperty V) :
    Sums V :=
  { sums.add arith it2 1 with
    nprop := { it1.mergeInfo garbage it2 sums.nprop with
      execObjs := sums.nprop.execObjs ++ it2.kept
      cluster := true } }

def pending (properties : List (MetaProperty V)) : List (MetaProperty V) :=
  properties.filter fun prop => !prop.done

/-- The members of the group of `it1` are done. -/
def markDone (joins : MetaProperty V → Bool) (properties : List (MetaProperty V)) :
    List (MetaProperty V) :=
  properties.map fun it2 => if !it2.done && joins it2 then { it2 with done := true } else it2

section Loops
variable {arith} {garbage : Bool} {it1 : MetaProperty V}

theorem MetaProperty.Sound.getProcess {prop : MetaProperty V} (h : prop.Sound) :
    ∃ process, prop.getProcess = .ok process := by
  unfold MetaProperty.getProcess
  cases hobjs : prop.execObjs with
  | nil => exact absurd hobjs h.execObjs
  | cons obj others => exact ⟨obj.process, rfl⟩

theorem MetaProperty.Sound.getThread_eq {prop : MetaProperty V} (h : prop.Sound) :
    prop.getThread = .ok prop.firstThread := by
  unfold MetaProperty.getThread MetaProperty.firstThread
  cases hobjs : prop.execObjs with
  | nil => exact absurd hobjs h.execObjs
  | cons obj others => rfl

theorem pending_markDone (joins : MetaProperty V → Bool) (properties : List (MetaProperty V)) :
    pending (markDone joins properties) = (pending properties).filter fun it2 => !joins it2 := by
  induction properties with
  | nil => rfl
  | cons it2 rest ih =>
    simp only [pending, markDone, List.map_cons, List.filter_cons] at ih ⊢
    rw [ih]
    cases hdone : it2.done <;> cases hjoins : joins it2 <;> simp [hdone, hjoins]

theorem markDone_cons (joins : MetaProperty V → Bool) (it2 : MetaProperty V)
    (rest : List (MetaProperty V)) :
    markDone joins (it2 :: rest) =
      (if (!it2.done && joins it2) = true then { it2 with done := true } else it2) ::
        markDone joins rest := rfl

theorem length_markDone (joins : MetaProperty V → Bool) (properties : List (MetaProperty V)) :
    (markDone joins properties).length = properties.length :=
  List.length_map _

theorem mem_markDone {joins : MetaProperty V → Bool} {properties : List (MetaProperty V)}
    {prop : MetaProperty V} (h : prop ∈ markDone joins properties) :
    prop ∈ properties ∧ (prop.done = true ∨ joins prop = false) ∨
      ∃ it2 ∈ properties, joins it2 = true ∧ prop = { it2 with done := true } := by
  obtain ⟨it2, hit2, rfl⟩ := List.mem_map.mp h
  split_ifs with hmarked
  · exact .inr ⟨it2, hit2, (Bool.and_eq_true_iff.mp hmarked).2, rfl⟩
  · refine .inl ⟨hit2, ?_⟩
    cases hdone : it2.done with
    | true => exact .inl rfl
    | false => simpa [hdone] using hmarked

theorem MetaProperty.describe_spec (h : it1.regionId ≠ "") (sums : Sums V) (instances : ℤ) :
    ∃ prop, it1.describe arith sums instances = .ok prop ∧ prop.context = it1.context ∧
      prop.execObjs = sums.nprop.execObjs ∧ prop.addInfo = sums.nprop.addInfo ∧
      prop.done = sums.nprop.done ∧
      prop.severity = arith.div sums.sev (arith.ofInt instances) ∧
      prop.confidence = arith.div sums.conf (arith.ofInt instances) := by
  rw [MetaProperty.describe, MetaProperty.setConfiguration_getConfiguration, Outcome.ok_bind,
    MetaProperty.setRegionId_of_ne h]
  exact ⟨_, rfl, rfl, rfl, rfl, rfl, rfl, rfl⟩

theorem MetaProperty.addExecObjsOf_eq {prop : MetaProperty V} (h : prop.execObjs ≠ [])
    (nprop : MetaProperty V) :
    prop.addExecObjsOf nprop = .ok { nprop with execObjs := nprop.execObjs ++ prop.kept } := by
  unfold MetaProperty.addExecObjsOf MetaProperty.kept MetaProperty.getProcess
    MetaProperty.getThread
  split
  · rfl
  · cases hobjs : prop.execObjs with
    | nil => exact absurd hobjs h
    | cons obj others => rfl

theorem markDone_sound {joins : MetaProperty V → Bool} {properties : List (MetaProperty V)}
    (h : ∀ prop ∈ properties, prop.Sound) : ∀ prop ∈ markDone joins properties, prop.Sound := by
  intro prop hprop
  obtain ⟨it2, hit2, rfl⟩ := List.mem_map.mp hprop
  split
  · exact ⟨(h it2 hit2).regionId, (h it2 hit2).execObjs⟩
  · exact h it2 hit2

/-- The gathering loop adds up and marks the properties of the key. -/
theorem gatherInto_eq {rest : List (MetaProperty V)} (sums : Sums V)
    (hrest : ∀ prop ∈ rest, prop.Sound) :
    gatherInto arith it1 sums rest =
      .ok ((rest.filter it1.sameKey).foldl (fun sums it2 => sums.add arith it2 it2.firstThread) sums,
        markDone it1.sameKey rest) := by
  induction rest generalizing sums with
  | nil => rfl
  | cons it2 rest ih =>
    have hothers : ∀ prop ∈ rest, prop.Sound := fun prop hprop =>
      hrest prop (List.mem_cons_of_mem it2 hprop)
    rw [gatherInto]
    by_cases hkey : it1.sameKey it2 = true
    · -- marking a property that is done already changes nothing
      have hmark : (if (!it2.done && it1.sameKey it2) = true then { it2 with done := true }
          else it2) = { it2 with done := true } := by
        cases hdone : it2.done with
        | true =>
          have hsame : { it2 with done := true } = it2 := by rw [← hdone]
          rw [hsame, Bool.not_true, Bool.false_and, if_neg Bool.false_ne_true]
        | false => rw [hkey, Bool.not_false, Bool.true_and, if_pos rfl]
      rw [if_pos hkey, (hrest it2 List.mem_cons_self).getThread_eq, Outcome.ok_bind, ih _ hothers,
        Outcome.ok_bind, markDone_cons, hmark, List.filter_cons_of_pos hkey, List.foldl_cons]
    · rw [if_neg hkey, ih sums hothers, Outcome.ok_bind, markDone_cons, if_neg (by simp [hkey]),
        List.filter_cons_of_neg hkey]

/-- The clustering loop takes in and marks the similar properties that are not done. -/
theorem clusterInto_eq {rest : List (MetaProperty V)} (sums : Sums V)
    (hrest : ∀ prop ∈ rest, prop.Sound) :
    clusterInto arith garbage it1 sums rest =
      .ok (((pending rest).filter (it1.similar arith)).foldl (Sums.join arith garbage it1) sums,
        markDone (it1.similar arith) rest) := by
  induction rest generalizing sums with
  | nil => rfl
  | cons it2 rest ih =>
    have hothers : ∀ prop ∈ rest, prop.Sound := fun prop hprop =>
      hrest prop (List.mem_cons_of_mem it2 hprop)
    have hobjs := (hrest it2 List.mem_cons_self).execObjs
    rw [clusterInto]
    cases hdone : it2.done with
    | true =>
      rw [if_pos rfl, ih sums hothers]
      simp [markDone, pending, hdone]
    | false =>
      obtain ⟨process, hprocess⟩ := (hrest it2 List.mem_cons_self).getProcess
      rw [if_neg Bool.false_ne_true, hprocess, Outcome.ok_bind]
      by_cases hsimilar : it1.similar arith it2 = true
      · have hmergedObjs : (it1.mergeInfo garbage it2 sums.nprop).execObjs =
            sums.nprop.execObjs := by
          rw [MetaProperty.mergeInfo]
          split <;> rfl
        rw [if_pos hsimilar, MetaProperty.addExecObjsOf_eq hobjs, Outcome.ok_bind, hmergedObjs]
        rw [ih _ hothers]
        simp [markDone, pending, hdone, hsimilar, Sums.join]
      · rw [if_neg hsimilar, ih sums hothers]
        simp [markDone, pending, hdone, hsimilar]

/-- What a group adds up to when it is gathered. -/
theorem foldl_add (members : List (MetaProperty V)) (sums : Sums V) :
    members.foldl (fun sums it2 => sums.add arith it2 it2.firstThread) sums =
      { nprop := sums.nprop
        instances := sums.instances + (members.map MetaProperty.firstThread).sum
        sev := members.foldl (fun sev it2 => arith.add sev it2.severity) sums.sev
        conf := members.foldl (fun conf it2 => arith.add conf it2.confidence) sums.conf } := by
  induction members generalizing sums with
  | nil => simp
  | cons it2 members ih =>
    rw [List.foldl_cons, ih, List.map_cons, List.sum_cons, ← add_assoc]
    rfl

theorem foldl_join (members : List (MetaProperty V)) (sums : Sums V) :
    members.foldl (Sums.join arith garbage it1) sums =
      { nprop := { sums.nprop with
          cluster := sums.nprop.cluster || !members.isEmpty
          addInfo := members.foldl (mergeInfos garbage it1) sums.nprop.addInfo
          execObjs := sums.nprop.execObjs ++ members.flatMap MetaProperty.kept }
        instances := sums.instances + members.length
        sev := members.foldl (fun sev it2 => arith.add sev it2.severity) sums.sev
        conf := members.foldl (fun conf it2 => arith.add conf it2.confidence) sums.conf } := by
  induction members generalizing sums with
  | nil => simp
  | cons it2 members ih =>
    have hinfo : it1.mergeInfo garbage it2 sums.nprop =
        { sums.nprop with addInfo := mergeInfos garbage it1 sums.nprop.addInfo it2 } := by
      rw [MetaProperty.mergeInfo, mergeInfos]
      split <;> rfl
    rw [List.foldl_cons, ih, Sums.join, hinfo]
    simp [Sums.add, add_assoc, add_comm]

theorem pending_cons_done {rest : List (MetaProperty V)} (h : it1.done = true) :
    pending (it1 :: rest) = pending rest := by
  rw [pending, List.filter_cons_of_neg (by simp [h])]
  rfl

theorem pending_cons {rest : List (MetaProperty V)} (h : it1.done = false) :
    pending (it1 :: rest) = it1 :: pending rest := by
  rw [pending, List.filter_cons_of_pos (by simp [h])]
  rfl

/-- The group of the first property, and what is left for the next rounds. -/
theorem groups_pending {joins : MetaProperty V → MetaProperty V → Bool}
    {rest : List (MetaProperty V)} (h : it1.done = false) :
    groups joins (pending (it1 :: rest)) =
      (it1, (pending rest).filter (joins it1)) :: groups joins (pending (markDone (joins it1) rest)) := by
  rw [pending_cons h, groups_cons, dissimilar, pending_markDone]

/-- A property that is done has not the key of one that is not. -/
def DoneApart (properties : List (MetaProperty V)) : Prop :=
  ∀ it1 ∈ properties, ∀ it2 ∈ properties, it1.done = false → it2.done = true →
    it1.sameKey it2 = false

theorem DoneApart.markDone {rest : List (MetaProperty V)} (h : DoneApart rest) :
    DoneApart (markDone it1.sameKey rest) := by
  intro a ha b hb hadone hbdone
  cases mem_markDone ha with
  | inr hmarked =>
    obtain ⟨a', -, -, rfl⟩ := hmarked
    cases hadone
  | inl hkept =>
    obtain ⟨ha, hother⟩ := hkept
    rw [hadone, or_iff_right (by simp)] at hother
    cases mem_markDone hb with
    | inl hb => exact h a ha b hb.1 hadone hbdone
    | inr hmarked =>
      obtain ⟨b', -, hsame, rfl⟩ := hmarked
      simp only [MetaProperty.sameKey, Bool.and_eq_true, decide_eq_true_eq, Bool.and_eq_false_iff,
        decide_eq_false_iff_not] at hsame hother ⊢
      rw [hsame.1, hsame.2]
      exact hother.imp Ne.symm Ne.symm

theorem DoneApart.filter {rest : List (MetaProperty V)} (h : DoneApart (it1 :: rest))
    (hdone : it1.done = false) :
    rest.filter it1.sameKey = (pending rest).filter it1.sameKey := by
  rw [pending, List.filter_filter]
  apply List.filter_congr
  intro it2 hit2
  cases hit2done : it2.done with
  | false => simp
  | true =>
    rw [h it1 List.mem_cons_self it2 (List.mem_cons_of_mem it1 hit2) hdone hit2done]
    rfl

theorem gatherLoop_spec {rounds : ℕ} {nprop : MetaProperty V}
    {properties : List (MetaProperty V)} (hrounds : properties.length ≤ rounds)
    (hsound : ∀ prop ∈ properties, prop.Sound) (hapart : DoneApart properties)
    (hobjs : nprop.execObjs = []) (hinfo : nprop.addInfo = .empty) (hpending : nprop.done = false) :
    ∃ props, gatherLoop arith rounds nprop properties = .ok props ∧
      List.Forall₂ (Merges arith garbage true) (groups MetaProperty.sameKey (pending properties))
        props := by
  induction rounds generalizing nprop properties with
  | zero =>
    rw [List.length_eq_zero_iff.mp (Nat.le_zero.mp hrounds)]
    exact ⟨[], rfl, by rw [pending, List.filter_nil, groups_nil]; exact .nil⟩
  | succ rounds ih =>
    cases properties with
    | nil => exact ⟨[], rfl, by rw [pending, List.filter_nil, groups_nil]; exact .nil⟩
    | cons it1 rest =>
      have hrest : ∀ prop ∈ rest, prop.Sound := fun prop hprop =>
        hsound prop (List.mem_cons_of_mem it1 hprop)
      have hlater : DoneApart rest := fun a ha b hb =>
        hapart a (List.mem_cons_of_mem it1 ha) b (List.mem_cons_of_mem it1 hb)
      have hlength : rest.length ≤ rounds := Nat.le_of_succ_le_succ hrounds
      have hfirst := hsound it1 List.mem_cons_self
      rw [gatherLoop]
      cases hdone : it1.done with
      | true =>
        rw [if_pos rfl, pending_cons_done hdone]
        exact ih hlength hrest hlater hobjs hinfo hpending
      | false =>
        have hleft : (markDone it1.sameKey rest).length ≤ rounds := by rwa [length_markDone]
        rw [if_neg Bool.false_ne_true, hfirst.getThread_eq, Outcome.ok_bind, gatherInto_eq _ hrest,
          Outcome.ok_bind, groups_pending hdone, foldl_add, hapart.filter hdone]
        generalize (pending rest).filter it1.sameKey = members
        dsimp only
        obtain ⟨merged, hdescribe, hcontext, hkept, hinfo', hdone', hsev, hconf⟩ :=
          @MetaProperty.describe_spec V arith it1 hfirst.regionId _ _
        rw [hdescribe, Outcome.ok_bind]
        rw [hobjs] at hkept
        rw [hinfo] at hinfo'
        rw [hpending] at hdone'
        obtain ⟨props, hprops, hforwards⟩ := @ih merged _ hleft (markDone_sound hrest)
          hlater.markDone hkept hinfo' hdone'
        rw [hprops]
        refine ⟨merged :: props, rfl, .cons ?_ hforwards⟩
        exact ⟨⟨hcontext, hkept⟩, by simp [hsev, meanOf, groupInstances],
          by simp [hconf, meanOf, groupInstances], hinfo', hdone'⟩

theorem clusterLoop_spec {rounds : ℕ} {properties : List (MetaProperty V)}
    (hrounds : properties.length ≤ rounds) (hsound : ∀ prop ∈ properties, prop.Sound) :
    ∃ props, clusterLoop arith garbage rounds (.emptyProp (arith.ofInt 0)) properties = .ok props ∧
      List.Forall₂ (Merges arith garbage false)
        (groups (MetaProperty.similar arith) (pending properties)) props := by
  induction rounds generalizing properties with
  | zero =>
    rw [List.length_eq_zero_iff.mp (Nat.le_zero.mp hrounds)]
    exact ⟨[], rfl, by rw [pending, List.filter_nil, groups_nil]; exact .nil⟩
  | succ rounds ih =>
    cases properties with
    | nil => exact ⟨[], rfl, by rw [pending, List.filter_nil, groups_nil]; exact .nil⟩
    | cons it1 rest =>
      have hrest : ∀ prop ∈ rest, prop.Sound := fun prop hprop =>
        hsound prop (List.mem_cons_of_mem it1 hprop)
      have hlength : rest.length ≤ rounds := Nat.le_of_succ_le_succ hrounds
      have hfirst := hsound it1 List.mem_cons_self
      rw [clusterLoop]
      cases hdone : it1.done with
      | true =>
        rw [if_pos rfl, pending_cons_done hdone]
        exact ih hlength hrest
      | false =>
        obtain ⟨process, hprocess⟩ := hfirst.getProcess
        have hleft : (markDone (it1.similar arith) rest).length ≤ rounds := by
          rwa [length_markDone]
        obtain ⟨props, hprops, hforwards⟩ := ih hleft (markDone_sound hrest)
        rw [if_neg Bool.false_ne_true, hprocess, Outcome.ok_bind, clusterInto_eq _ hrest,
          Outcome.ok_bind, groups_pending hdone]
        generalize (pending rest).filter (it1.similar arith) = members
        by_cases hmembers : members = []
        · -- no other property joins: the original is sent
          have hnone : ¬ (MetaProperty.emptyProp (arith.ofInt 0)).cluster = true :=
            Bool.false_ne_true
          rw [hmembers, List.foldl_nil, if_neg hnone, hprops]
          refine ⟨it1 :: props, rfl, .cons ?_ hforwards⟩
          exact ⟨⟨rfl, by simp [groupObjs]⟩, by simp [meanOf], by simp [meanOf], by simp [infoOf],
            hdone⟩
        · obtain ⟨after, hafter⟩ : ∃ after, after = members.foldl (Sums.join arith garbage it1)
              ⟨.emptyProp (arith.ofInt 0), 1, it1.severity, it1.confidence⟩ := ⟨_, rfl⟩
          have hsums := hafter.trans (foldl_join members _)
          have hclustered : after.nprop.cluster = true := by
            rw [hsums]
            simp [hmembers]
          rw [← hafter, if_pos hclustered, MetaProperty.addExecObjsOf_eq hfirst.execObjs,
            Outcome.ok_bind]
          obtain ⟨merged, hdescribe, hcontext, hkept, hinfo, hdone', hsev, hconf⟩ :=
            @MetaProperty.describe_spec V arith it1 hfirst.regionId { after with
              nprop := { after.nprop with execObjs := after.nprop.execObjs ++ it1.kept } }
              after.instances
          rw [hdescribe, Outcome.ok_bind, hprops]
          refine ⟨merged :: props, rfl, .cons ?_ hforwards⟩
          simp only [hsums] at hkept hinfo hdone' hsev hconf
          constructor
          · exact ⟨hcontext, by simp [hkept, groupObjs, hmembers, MetaProperty.emptyProp]⟩
          · simp [hsev, meanOf, hmembers, groupInstances]
          · simp [hconf, meanOf, hmembers, groupInstances]
          · simp [hinfo, infoOf, hmembers, MetaProperty.emptyProp]
          · exact hdone'

/-- One property is sent for each group of the collected ones. -/
theorem clusterProps_merges {gatherproperties : Bool} {properties : List (MetaProperty V)}
    (h : ∀ prop ∈ properties, prop.Collected) :
    ∃ props, clusterProps arith garbage gatherproperties properties = .ok props ∧
      List.Forall₂ (Merges arith garbage gatherproperties)
        (groups (joins arith gatherproperties) properties) props := by
  have hsound : ∀ prop ∈ properties, prop.Sound := fun prop hprop => (h prop hprop).toSound
  have hpending : pending properties = properties :=
    List.filter_eq_self.mpr fun prop hprop => by rw [(h prop hprop).pending]; rfl
  cases gatherproperties with
  | true =>
    have hapart : DoneApart properties := by
      intro a _ b hb _ hdone
      rw [(h b hb).pending] at hdone
      cases hdone
    have hspec := @gatherLoop_spec V arith garbage properties.length
      (.emptyProp (arith.ofInt 0)) properties (Nat.le_refl _) hsound hapart rfl rfl rfl
    rw [hpending] at hspec
    exact hspec
  | false =>
    have hspec := @clusterLoop_spec V arith garbage properties.length properties (Nat.le_refl _)
      hsound
    rw [hpending] at hspec
    exact hspec

theorem clusterProps_spec {gatherproperties : Bool} {properties : List (MetaProperty V)}
    (h : ∀ prop ∈ properties, prop.Collected) :
    ∃ props, clusterProps arith garbage gatherproperties properties = .ok props ∧
      List.Forall₂ (Forwards gatherproperties) (groups (joins arith gatherproperties) properties)
        props := by
  obtain ⟨props, hprops, hmerges⟩ := @clusterProps_merges V arith garbage gatherproperties _ h
  exact ⟨props, hprops, hmerges.imp fun _ _ hmerged => hmerged.forwards⟩

end Loops

/-- The execution objects of the properties of one kind in one region. -/
def objsOf (properties : List (MetaProperty V)) (id regionId : String) : List ExecObj :=
  (properties.filter fun prop => prop.id = id && prop.regionId = regionId).flatMap
    MetaProperty.execObjs

/-- For each kind and region, the properties that were sent have the execution objects of
those that were collected. -/
def ExecObjsConserved (collected sent : List (MetaProperty V)) : Prop :=
  ∀ id regionId, (objsOf sent id regionId).Perm (objsOf collected id regionId)

section Conservation
variable {arith} {gatherproperties : Bool} {id regionId : String}

/-- Parts of several lists make up all of them only if none has lost anything. -/
theorem flatMap_perm_iff {ι : Type} {parts wholes : ι → List ExecObj} {list : List ι}
    (h : ∀ i ∈ list, (parts i).Subperm (wholes i)) :
    (list.flatMap parts).Perm (list.flatMap wholes) ↔
      ∀ i ∈ list, (parts i).Perm (wholes i) := by
  induction list with
  | nil => simp
  | cons i rest ih =>
    have hrest : ∀ j ∈ rest, (parts j).Subperm (wholes j) := fun j hj =>
      h j (List.mem_cons_of_mem i hj)
    have hlengths : ∀ l : List ι, (∀ j ∈ l, (parts j).Subperm (wholes j)) →
        (l.flatMap parts).length ≤ (l.flatMap wholes).length := by
      intro l hl
      rw [List.length_flatMap, List.length_flatMap]
      exact List.sum_le_sum fun j hj => (hl j hj).length_le
    have hi := h i List.mem_cons_self
    rw [List.flatMap_cons, List.flatMap_cons, List.forall_mem_cons, ← ih hrest]
    constructor
    · intro hperm
      have hlength := hperm.length_eq
      rw [List.length_append, List.length_append] at hlength
      have hfirst := hi.length_le
      have hothers := hlengths rest hrest
      have hsame : (parts i).Perm (wholes i) := hi.perm_of_length_le (by omega)
      exact ⟨hsame, (List.perm_append_left_iff _).mp ((hsame.symm.append_right _).trans hperm)⟩
    · intro hboth
      exact hboth.1.append hboth.2

theorem Forwards.key {group : MetaProperty V × List (MetaProperty V)} {prop : MetaProperty V}
    (h : Forwards gatherproperties group prop) :
    prop.id = group.1.id ∧ prop.regionId = group.1.regionId := by
  have hcontext := h.1
  simp only [MetaProperty.context, Prod.mk.injEq] at hcontext
  exact ⟨hcontext.1, hcontext.2.2.2.2.2.2.2.2⟩

theorem objsOf_sent {groups : List (MetaProperty V × List (MetaProperty V))}
    {sent : List (MetaProperty V)} (h : List.Forall₂ (Forwards gatherproperties) groups sent) :
    objsOf sent id regionId =
      (groups.filter fun group => group.1.id = id && group.1.regionId = regionId).flatMap
        (groupObjs gatherproperties) := by
  induction h with
  | nil => rfl
  | @cons group prop groups sent hfirst hrest ih =>
    rw [objsOf, List.filter_cons, List.filter_cons, hfirst.key.1, hfirst.key.2]
    split
    · rw [List.flatMap_cons, List.flatMap_cons, hfirst.2, ← ih, objsOf]
    · exact ih

theorem sameKey_of_joins {it1 it2 : MetaProperty V}
    (h : joins arith gatherproperties it1 it2 = true) :
    it2.id = it1.id ∧ it2.regionId = it1.regionId := by
  have hkey : it1.sameKey it2 = true := by
    cases gatherproperties with
    | true => exact h
    | false =>
      simp only [joins, Bool.false_eq_true, if_false, MetaProperty.similar, Bool.and_eq_true] at h
      exact h.1.1
  simpa [MetaProperty.sameKey] using hkey

theorem objsOf_flatMap {groups : List (MetaProperty V × List (MetaProperty V))}
    (h : ∀ group ∈ groups, ∀ member ∈ group.2,
      member.id = group.1.id ∧ member.regionId = group.1.regionId) :
    objsOf (groups.flatMap fun group => group.1 :: group.2) id regionId =
      (groups.filter fun group => group.1.id = id && group.1.regionId = regionId).flatMap
        fun group => (group.1 :: group.2).flatMap MetaProperty.execObjs := by
  induction groups with
  | nil => rfl
  | cons group rest ih =>
    have hrest := ih fun other hother => h other (List.mem_cons_of_mem group hother)
    have hmembers := h group List.mem_cons_self
    rw [objsOf] at hrest
    rw [objsOf, List.flatMap_cons, List.filter_append, List.flatMap_append, hrest]
    by_cases hkey : (group.1.id = id && group.1.regionId = regionId) = true
    · have hall : (group.1 :: group.2).filter
          (fun prop => prop.id = id && prop.regionId = regionId) = group.1 :: group.2 := by
        apply List.filter_eq_self.mpr
        intro member hmember
        cases List.mem_cons.mp hmember with
        | inl heq => rw [heq]; exact hkey
        | inr hin => rw [(hmembers member hin).1, (hmembers member hin).2]; exact hkey
      rw [hall, List.filter_cons, if_pos hkey, List.flatMap_cons, List.flatMap_cons,
        List.flatMap_cons]
    · have hnone : (group.1 :: group.2).filter
          (fun prop => prop.id = id && prop.regionId = regionId) = [] := by
        apply List.filter_eq_nil_iff.mpr
        intro member hmember
        cases List.mem_cons.mp hmember with
        | inl heq => rw [heq]; exact hkey
        | inr hin => rw [(hmembers member hin).1, (hmembers member hin).2]; exact hkey
      rw [hnone, List.filter_cons, if_neg hkey, List.flatMap_nil, List.nil_append]

theorem MetaProperty.kept_sublist (prop : MetaProperty V) : prop.kept.Sublist prop.execObjs := by
  unfold MetaProperty.kept
  split
  · exact List.Sublist.refl _
  · exact List.take_sublist _ _

theorem MetaProperty.kept_perm_iff {prop : MetaProperty V} (h : prop.execObjs ≠ []) :
    prop.kept.Perm prop.execObjs ↔ prop.cluster = true ∨ prop.execObjs.length = 1 := by
  have hpos : 0 < prop.execObjs.length := List.length_pos_of_ne_nil h
  have hlength : prop.kept.Perm prop.execObjs ↔ prop.kept.length = prop.execObjs.length :=
    ⟨List.Perm.length_eq, fun heq => prop.kept_sublist.subperm.perm_of_length_le heq.ge⟩
  rw [hlength]
  unfold MetaProperty.kept
  cases prop.cluster with
  | true => simp
  | false =>
    simp only [Bool.false_eq_true, if_false, List.length_take, false_or]
    omega

/-- What is sent for a group is part of what was collected for it. -/
theorem groupObjs_subperm (group : MetaProperty V × List (MetaProperty V)) :
    (groupObjs gatherproperties group).Subperm
      ((group.1 :: group.2).flatMap MetaProperty.execObjs) := by
  have hkept := fun prop : MetaProperty V => prop.kept_sublist
  have hmembers : (group.2.flatMap MetaProperty.kept).Sublist
      (group.2.flatMap MetaProperty.execObjs) :=
    List.Sublist.flatMap_right _ fun prop _ => hkept prop
  rw [groupObjs, List.flatMap_cons]
  split
  · exact List.nil_subperm
  · split
    · exact (List.sublist_append_left _ _).subperm
    · exact List.perm_append_comm.subperm.trans ((hkept _).append hmembers).subperm

/-- No execution object is lost exactly when each group keeps all of its own. -/
theorem execObjsConserved_iff {collected sent : List (MetaProperty V)}
    (h : List.Forall₂ (Forwards gatherproperties)
      (groups (joins arith gatherproperties) collected) sent) :
    ExecObjsConserved collected sent ↔
      ∀ group ∈ groups (joins arith gatherproperties) collected,
        (groupObjs gatherproperties group).Perm
          ((group.1 :: group.2).flatMap MetaProperty.execObjs) := by
  obtain ⟨made, hmade⟩ : ∃ made, made = groups (joins arith gatherproperties) collected :=
    ⟨_, rfl⟩
  have hkeys : ∀ group ∈ made, ∀ member ∈ group.2,
      member.id = group.1.id ∧ member.regionId = group.1.regionId := by
    rw [hmade]
    exact fun group hgroup member hmember =>
      sameKey_of_joins (similar_of_mem_groups hgroup member hmember)
  have hcollected (id regionId : String) : (objsOf collected id regionId).Perm
      ((made.filter fun group => group.1.id = id && group.1.regionId = regionId).flatMap
        fun group => (group.1 :: group.2).flatMap MetaProperty.execObjs) := by
    rw [← objsOf_flatMap hkeys, hmade]
    exact ((perm_groups collected).symm.filter _).flatMap_right _
  rw [← hmade] at h ⊢
  have hkeyed (id regionId : String) : (objsOf sent id regionId).Perm
      (objsOf collected id regionId) ↔
      ∀ group ∈ made.filter fun group => group.1.id = id && group.1.regionId = regionId,
        (groupObjs gatherproperties group).Perm
          ((group.1 :: group.2).flatMap MetaProperty.execObjs) := by
    rw [objsOf_sent h, ← flatMap_perm_iff fun group _ => groupObjs_subperm group]
    exact ⟨fun hperm => hperm.trans (hcollected id regionId),
      fun hperm => hperm.trans (hcollected id regionId).symm⟩
  constructor
  · intro hall group hgroup
    exact (hkeyed group.1.id group.1.regionId).mp (hall _ _) group
      (List.mem_filter.mpr ⟨hgroup, by simp⟩)
  · intro hall id regionId
    exact (hkeyed id regionId).mpr fun group hgroup => hall group (List.mem_of_mem_filter hgroup)

/-- A group keeps its execution objects if it is one property, or if each of its members is a
cluster or one execution object. -/
theorem groupObjs_perm_iff {group : MetaProperty V × List (MetaProperty V)}
    (h : ∀ prop ∈ group.1 :: group.2, prop.execObjs ≠ []) :
    (groupObjs false group).Perm ((group.1 :: group.2).flatMap MetaProperty.execObjs) ↔
      (group.2 ≠ [] → ∀ prop ∈ group.1 :: group.2,
        prop.cluster = true ∨ prop.execObjs.length = 1) := by
  rw [groupObjs, if_neg Bool.false_ne_true]
  by_cases hmembers : group.2 = []
  · rw [if_pos hmembers, hmembers, List.flatMap_singleton]
    exact ⟨fun _ hne => absurd rfl hne, fun _ => List.Perm.refl _⟩
  · have hkept : (group.2.flatMap MetaProperty.kept ++ group.1.kept).Perm
        ((group.1 :: group.2).flatMap MetaProperty.kept) := List.perm_append_comm
    have hparts := @flatMap_perm_iff (MetaProperty V) MetaProperty.kept MetaProperty.execObjs
      (group.1 :: group.2) fun prop _ => prop.kept_sublist.subperm
    rw [if_neg hmembers]
    constructor
    · intro hperm _ prop hprop
      exact (MetaProperty.kept_perm_iff (h prop hprop)).mp
        (hparts.mp (hkept.symm.trans hperm) prop hprop)
    · intro hall
      exact hkept.trans (hparts.mpr fun prop hprop =>
        (MetaProperty.kept_perm_iff (h prop hprop)).mpr (hall hmembers prop hprop))

end Conservation

/-- Every collected property has one of its kind and region among those that are sent. -/
theorem exists_sent {arith : Autotune.DoubleArith V} {gatherproperties : Bool}
    {collected sent : List (MetaProperty V)}
    (h : List.Forall₂ (Forwards gatherproperties)
      (groups (joins arith gatherproperties) collected) sent)
    {prop : MetaProperty V} (hprop : prop ∈ collected) :
    ∃ merged ∈ sent, merged.id = prop.id ∧ merged.regionId = prop.regionId := by
  obtain ⟨group, hgroup, hmember⟩ := @exists_group _ (joins arith gatherproperties) _ _ hprop
  obtain ⟨merged, hmerged, hforwards⟩ := exists_of_forall₂ h hgroup
  have hkey : prop.id = group.1.id ∧ prop.regionId = group.1.regionId := by
    cases List.mem_cons.mp hmember with
    | inl heq => rw [heq]; exact ⟨rfl, rfl⟩
    | inr hlater => exact sameKey_of_joins (similar_of_mem_groups hgroup prop hlater)
  exact ⟨merged, hmerged, hforwards.key.1.trans hkey.1.symm, hforwards.key.2.trans hkey.2.symm⟩

/-- A property as it is kept until the next clustering. -/
abbrev CollectedProperty (V : Type) := { prop : MetaProperty V // prop.Collected }

/-- Clustering keeps all execution objects of what was collected when there is nothing to
gather, or when each property that is merged is a cluster or one execution object. -/
theorem clusterProps_conserves_iff {arith : Autotune.DoubleArith V} {garbage : Bool}
    (gatherproperties : Bool) (properties : List (CollectedProperty V)) :
    (∃ sent, clusterProps arith garbage gatherproperties (properties.map Subtype.val) = .ok sent ∧
        ExecObjsConserved (properties.map Subtype.val) sent) ↔
      if gatherproperties then properties = []
      else ∀ group ∈ groups (MetaProperty.similar arith) (properties.map Subtype.val),
        group.2 ≠ [] → ∀ prop ∈ group.1 :: group.2,
          prop.cluster = true ∨ prop.execObjs.length = 1 := by
  have hcollected : ∀ prop ∈ properties.map Subtype.val, prop.Collected := by
    intro prop hprop
    obtain ⟨kept, -, rfl⟩ := List.mem_map.mp hprop
    exact kept.2
  obtain ⟨sent, hsent, hforwards⟩ := @clusterProps_spec V arith garbage gatherproperties _
    hcollected
  have hunique : (∃ sent, clusterProps arith garbage gatherproperties
      (properties.map Subtype.val) = .ok sent ∧
        ExecObjsConserved (properties.map Subtype.val) sent) ↔
      ExecObjsConserved (properties.map Subtype.val) sent := by
    rw [hsent]
    constructor
    · intro h
      obtain ⟨other, hother, hconserved⟩ := h
      cases hother
      exact hconserved
    · exact fun h => ⟨sent, rfl, h⟩
  have hobjs : ∀ group ∈ groups (joins arith gatherproperties) (properties.map Subtype.val),
      ∀ prop ∈ group.1 :: group.2, prop.execObjs ≠ [] := fun group hgroup prop hprop =>
    (hcollected prop (mem_of_mem_groups hgroup prop hprop)).execObjs
  rw [hunique, execObjsConserved_iff hforwards]
  cases gatherproperties with
  | false => exact forall₂_congr fun group hgroup => groupObjs_perm_iff (hobjs group hgroup)
  | true =>
    cases properties with
    | nil => simp
    | cons first rest =>
      rw [if_pos rfl]
      constructor
      · intro h
        rw [List.map_cons, groups_cons] at h hobjs
        have hnone := (h _ List.mem_cons_self).symm.eq_nil
        rw [List.flatMap_cons, List.append_eq_nil_iff] at hnone
        exact absurd hnone.1 (hobjs _ List.mem_cons_self _ List.mem_cons_self)
      · intro h
        cases h

section Instances

/-- A property of the first thread of the first process. -/
def soloProp : MetaProperty ℚ :=
  { MetaProperty.emptyProp 0 with
    id := "1-0", regionId := "main.c*main*1", execObjs := [⟨0, 0⟩] }

theorem soloProp_collected : soloProp.Collected where
  regionId := by decide
  execObjs := List.cons_ne_nil _ _
  pending := rfl

theorem joins_of_near {a b : MetaProperty ℚ} (hid : b.id = a.id) (hregion : b.regionId = a.regionId)
    (hsev : |b.severity - a.severity| < 3 / 2) (hconf : |b.confidence - a.confidence| < 3 / 2) :
    joins Autotune.ratArith false a b = true := by
  have habs : ∀ q, Autotune.ratArith.abs q = |q| := by
    intro q
    show (if q < 0 then -q else q) = |q|
    split_ifs with hneg
    · exact (abs_of_neg hneg).symm
    · exact (abs_of_nonneg (not_lt.mp hneg)).symm
  have hth : clusterTh Autotune.ratArith = 3 / 2 := rfl
  have hlt : ∀ p q, Autotune.ratArith.lt p q = decide (p < q) := fun _ _ => rfl
  have hsub : ∀ p q, Autotune.ratArith.sub p q = p - q := fun _ _ => rfl
  simp only [joins, Bool.false_eq_true, if_false, MetaProperty.similar, MetaProperty.sameKey, hid,
    hregion, habs, hth, hlt, hsub, decide_true, Bool.true_and, Bool.and_eq_true, decide_eq_true_eq]
  exact ⟨hsev, hconf⟩

/-- The agent gathers one property. -/
theorem not_clusterProps_conserves : ¬∀ (gatherproperties : Bool)
    (properties : List (CollectedProperty ℚ)),
    ∃ sent, clusterProps Autotune.ratArith false gatherproperties
        (properties.map Subtype.val) = .ok sent ∧
      ExecObjsConserved (properties.map Subtype.val) sent := by
  intro h
  have hcollected : ∀ prop ∈ [soloProp], prop.Collected := by
    intro prop hprop
    rw [List.mem_singleton.mp hprop]
    exact soloProp_collected
  obtain ⟨sent, hsent, hforwards⟩ := @clusterProps_spec ℚ Autotune.ratArith false true _
    hcollected
  obtain ⟨other, hother, hconserved⟩ := h true [⟨soloProp, soloProp_collected⟩]
  rw [List.map_singleton, hsent] at hother
  cases hother
  have hkept := (execObjsConserved_iff hforwards).mp hconserved
  rw [groups_cons] at hkept
  have hempty := (hkept _ List.mem_cons_self).length_eq
  revert hempty
  decide

end Instances

end ReadexPtf.Agents
