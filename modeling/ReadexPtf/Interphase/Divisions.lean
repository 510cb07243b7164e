import ReadexPtf.Interphase.BestConfigs
import ReadexPtf.Interphase.Clustering
import ReadexPtf.Lib.Refinement
import Mathlib

/-! The way from the counts of the phases to the radius of the clustering, with every division
checked. -/
namespace ReadexPtf.Interphase
variable {V : Type} (A : Doubles V)

/-- A division, by zero too. -/
def checkedDiv (a b : V) : Outcome V := if A.eq b A.zero then .undefined else .ok (A.div a b)

namespace Checked

def calcComputeIntensity (phases : Phases V) : Outcome (Phases V) :=
  updateAll (fun i => do
    let totalInstr ← Outcome.found (i.phaseIdentifiers.get? "TotalInstr")
    let l3Misses ← Outcome.found (i.phaseIdentifiers.get? "L3Misses")
    let computeIns ← checkedDiv A totalInstr l3Misses
    return { i with phaseIdentifiers :=
      i.phaseIdentifiers.insertNew "ComputeIntensity" computeIns }) phases

def rawFeatures (i : PhaseInfo V) : Outcome (V × V) := do
  let comp ← Outcome.found (i.phaseIdentifiers.get? "ComputeIntensity")
  let branchInstr ← Outcome.found (i.phaseIdentifiers.get? "BranchInstr")
  let totalInstr ← Outcome.found (i.phaseIdentifiers.get? "TotalInstr")
  let br ← checkedDiv A branchInstr totalInstr
  return (comp, br)

/-- The place of a value in a range. -/
def normalize (range : V × V) (v : V) : Outcome V :=
  checkedDiv A (A.sub v range.1) (A.sub range.2 range.1)

def normalizeIdentifiers (phases : Phases V) : Outcome (Phases V) := do
  let (comp, br) ← phases.entries.foldlM (fun s p1 => do
    let features ← rawFeatures A p1.2
    return (widen A s.1 features.1, widen A s.2 features.2))
    ((A.dblMax, A.zero), (A.dblMax, A.zero))
  updateAll (fun i => do
    let features ← rawFeatures A i
    let first ← normalize A comp features.1
    let second ← normalize A br features.2
    return { i with
      normalizedFeatures := (first, second)
      phaseIdentifiers := i.phaseIdentifiers.insertNew "BranchInstructions" features.2 }) phases

def findKNearestNeighbors (order : Traversal V) (distancesFromPoint : List V) : Outcome V := do
  match ← A.sortBy order id distancesFromPoint with
  | d₀ :: d₁ :: d₂ :: _ => checkedDiv A (A.add (A.add d₀ d₁) d₂) (A.ofInt 3)
  | _ => .throws "vector::_M_range_check"

/-- The distances of a phase from the others. -/
def distancesFrom (ptX : Phases V) (i1 : ℕ × PhaseInfo V) : List V :=
  (ptX.entries.filter fun i2 => decide (i1.1 ≠ i2.1)).map fun i2 => featureDistance A i1.2 i2.2

def addNeighDist (order : Traversal V) (ptX : Phases V) (kNeighDist : List (ℕ × V))
    (i1 : ℕ × PhaseInfo V) : Outcome (List (ℕ × V)) :=
  if distancesFrom A ptX i1 = [] then .ok kNeighDist
  else do
    let kNDist ← findKNearestNeighbors A order (distancesFrom A ptX i1)
    return kNeighDist ++ [(i1.1, kNDist)]

def calcDistanceMatrix (order : Traversal V) (ptX : Phases V) :
    Outcome (DistMatrix V × List (ℕ × V)) := do
  let kNeighDist ← ptX.entries.foldlM (addNeighDist A order ptX) []
  return (distMatrix A ptX, kNeighDist)

/-- The distance of a point to the line with these coefficients. -/
def lineDistance (aL bL cL : V) (point : (ℕ × V) × ℕ) : Outcome (ℕ × V) := do
  let dist ← checkedDiv A (A.add (A.add (A.mul aL (A.ofInt point.2)) (A.mul bL point.1.2)) cL)
    (A.sqrt (A.add (A.mul aL aL) (A.mul bL bL)))
  return (point.2, A.abs dist)

def maxElement (distL : List (ℕ × V)) : Option ℕ :=
  (distL.foldl (fun (best : Option (ℕ × V)) p =>
    match best with
    | none => some p
    | some b => if A.lt b.2 p.2 then some p else some b) none).map Prod.fst

def farthestFromLine (kNnDist : List (ℕ × V)) (first last : V) : Outcome (Option ℕ) := do
  let aL := A.sub last first
  let bL := A.sub A.zero (A.ofInt (kNnDist.length - 1))
  let cL := A.sub (A.mul (A.sub A.zero aL) A.zero) (A.mul bL first)
  let distL ← kNnDist.zipIdx.mapM (lineDistance A aL bL cL)
  return maxElement A distL

def calculateEps (order : Traversal (ℕ × V)) (kNnDist : List (ℕ × V)) : Outcome V := do
  let sorted ← A.sortBy order Prod.snd kNnDist
  let first ← Outcome.found sorted.head?
  let last ← Outcome.found sorted.getLast?
  let farthest ← farthestFromLine A sorted first.2 last.2
  let pos ← Outcome.found farthest
  let kNn ← Outcome.elementAt sorted pos
  return kNn.2

/-- The radius from the counts of the phases. -/
def epsOf (distances : Traversal V) (neighbors : Traversal (ℕ × V)) (phases : Phases V) :
    Outcome V := do
  let phases ← calcComputeIntensity A phases
  let phases ← normalizeIdentifiers A phases
  let (_, kNeighDist) ← calcDistanceMatrix A distances phases
  calculateEps A neighbors kNeighDist

end Checked

/-- The same without checks. -/
def epsOf (distances : Traversal V) (neighbors : Traversal (ℕ × V)) (phases : Phases V) :
    Outcome V := do
  let phases ← calcComputeIntensity A phases
  let phases ← normalizeIdentifiers A phases
  let (_, kNeighDist) ← calcDistanceMatrix A distances phases
  calculateEps A neighbors kNeighDist

section Refinements
variable {A : Doubles V}
open Outcome (Refines)

theorem checkedDiv_refines (a b : V) : Refines (checkedDiv A a b) (.ok (A.div a b)) := by
  intro q h
  rw [checkedDiv] at h
  split_ifs at h
  exact h

theorem updateAll_refines {f g : PhaseInfo V → Outcome (PhaseInfo V)}
    (hfg : ∀ x, Refines (f x) (g x)) (phases : Phases V) :
    Refines (updateAll f phases) (updateAll g phases) :=
  Refines.foldlM (fun _ _ => (Refines.refl _).bind fun x => (hfg x).bind fun _ => .refl _) _ _

theorem calcComputeIntensity_refines (phases : Phases V) :
    Refines (Checked.calcComputeIntensity A phases) (calcComputeIntensity A phases) :=
  updateAll_refines (fun _ => (Refines.refl _).bind fun totalInstr =>
    (Refines.refl _).bind fun l3Misses =>
      (checkedDiv_refines totalInstr l3Misses).bind fun _ => .refl _) phases

theorem rawFeatures_refines (x : PhaseInfo V) :
    Refines (Checked.rawFeatures A x) (rawFeatures A x) :=
  (Refines.refl _).bind fun _ => (Refines.refl _).bind fun branchInstr =>
    (Refines.refl _).bind fun totalInstr =>
      (checkedDiv_refines branchInstr totalInstr).bind fun _ => .refl _

theorem normalizeIdentifiers_refines (phases : Phases V) :
    Refines (Checked.normalizeIdentifiers A phases) (normalizeIdentifiers A phases) := by
  refine (Refines.foldlM (fun _ (e : ℕ × PhaseInfo V) =>
    (rawFeatures_refines e.2).bind fun _ => .refl _) _ _).bind fun ranges =>
      updateAll_refines (fun x => (rawFeatures_refines x).bind fun features => ?_) phases
  exact (checkedDiv_refines _ _).bind fun first => (checkedDiv_refines _ _).bind fun second =>
    .refl _

theorem findKNearestNeighbors_refines (order : Traversal V) (distances : List V) :
    Refines (Checked.findKNearestNeighbors A order distances)
      (findKNearestNeighbors A order distances) := by
  refine (Refines.refl _).bind fun sorted => ?_
  match sorted with
  | d₀ :: d₁ :: d₂ :: _ => exact checkedDiv_refines _ _
  | [] => exact .refl _
  | [_] => exact .refl _
  | [_, _] => exact .refl _

theorem calcDistanceMatrix_refines (order : Traversal V) (phases : Phases V) :
    Refines (Checked.calcDistanceMatrix A order phases) (calcDistanceMatrix A order phases) := by
  refine (Refines.foldlM (fun kNeighDist e => ?_) _ _).bind fun _ => .refl _
  change Refines _ (if Checked.distancesFrom A phases e = [] then .ok kNeighDist else do
    let kNDist ← findKNearestNeighbors A order (Checked.distancesFrom A phases e)
    return kNeighDist ++ [(e.1, kNDist)])
  rw [Checked.addNeighDist]
  split_ifs
  · exact .refl _
  · exact (findKNearestNeighbors_refines order _).bind fun _ => .refl _

theorem lineDistance_refines (aL bL cL : V) (point : (ℕ × V) × ℕ) :
    Refines (Checked.lineDistance A aL bL cL point) (.ok (point.2, A.abs
      (A.div (A.add (A.add (A.mul aL (A.ofInt point.2)) (A.mul bL point.1.2)) cL)
        (A.sqrt (A.add (A.mul aL aL) (A.mul bL bL)))))) :=
  (checkedDiv_refines _ _).bind fun _ => .refl _

theorem farthestFromLine_refines (kNnDist : List (ℕ × V)) (first last : V) :
    Refines (Checked.farthestFromLine A kNnDist first last)
      (.ok (farthestFromLine A kNnDist first last)) := by
  intro pos h
  obtain ⟨distL, hdistL, h⟩ := Outcome.bind_eq_ok.mp h
  have hpoints := Refines.mapM (lineDistance_refines _ _ _) kNnDist.zipIdx distL hdistL
  rw [← h, ← Outcome.ok.inj hpoints]
  rfl

theorem calculateEps_refines (order : Traversal (ℕ × V)) (kNnDist : List (ℕ × V)) :
    Refines (Checked.calculateEps A order kNnDist) (calculateEps A order kNnDist) :=
  (Refines.refl _).bind fun sorted => (Refines.refl _).bind fun first =>
    (Refines.refl _).bind fun last =>
      (farthestFromLine_refines sorted first.2 last.2).bind fun _ => .refl _

/-- The checks change nothing besides. -/
theorem epsOf_refines (distances : Traversal V) (neighbors : Traversal (ℕ × V))
    (phases : Phases V) :
    Refines (Checked.epsOf A distances neighbors phases) (epsOf A distances neighbors phases) :=
  (calcComputeIntensity_refines phases).bind fun phases =>
    (normalizeIdentifiers_refines phases).bind fun phases =>
      (calcDistanceMatrix_refines distances phases).bind fun matrix =>
        calculateEps_refines neighbors matrix.2

end Refinements

section Exact
variable {K : Type} [Field K] [LinearOrder K]

/-- The operations are those of the field, and the root of a number from 1 on is not zero. -/
structure IsExact (A : Doubles K) : Prop where
  lt : ∀ a b, A.lt a b = decide (a < b)
  eq : ∀ a b, A.eq a b = decide (a = b)
  add : ∀ a b, A.add a b = a + b
  sub : ∀ a b, A.sub a b = a - b
  mul : ∀ a b, A.mul a b = a * b
  div : ∀ a b, A.div a b = a / b
  ofInt : ∀ z : ℤ, A.ofInt z = z
  sqrt : ∀ a, 1 ≤ a → A.sqrt a ≠ 0

def countOf (x : PhaseInfo K) (tag : String) : K := (x.phaseIdentifiers.get? tag).getD 0

/-- The instructions for each cache miss. -/
def intensity (x : PhaseInfo K) : K := countOf x "TotalInstr" / countOf x "L3Misses"

/-- The branches for each instruction. -/
def branchRatio (x : PhaseInfo K) : K := countOf x "BranchInstr" / countOf x "TotalInstr"

/-- The counts of a phase that has been measured. -/
structure Counted (A : Doubles K) (x : PhaseInfo K) : Prop where
  totalInstr : ∃ n : ℕ, 0 < n ∧ (n : K) ≤ A.dblMax ∧
    x.phaseIdentifiers.get? "TotalInstr" = some (n : K)
  l3Misses : ∃ n : ℕ, 0 < n ∧ x.phaseIdentifiers.get? "L3Misses" = some (n : K)
  branchInstr : ∃ n : ℕ, (n : K) ≤ A.dblMax ∧
    x.phaseIdentifiers.get? "BranchInstr" = some (n : K)
  fresh : x.phaseIdentifiers.get? "ComputeIntensity" = none

/-- Not all phases have the same value. -/
def Differs (value : PhaseInfo K → K) (phases : Phases K) : Prop :=
  ∃ e ∈ phases.entries, ∃ e' ∈ phases.entries, value e.2 ≠ value e'.2

variable {A : Doubles K}

theorem IsExact.zero (hA : IsExact A) : A.zero = 0 := by
  rw [Doubles.zero, hA.ofInt, Int.cast_zero]

theorem IsExact.checkedDiv (hA : IsExact A) (a b : K) :
    checkedDiv A a b = if b = 0 then .undefined else .ok (a / b) := by
  simp [Interphase.checkedDiv, hA.eq, hA.zero, hA.div]

theorem IsExact.widen (hA : IsExact A) (range : K × K) (v : K) :
    widen A range v = (min range.1 v, max range.2 v) := by
  simp only [Interphase.widen, hA.lt, decide_eq_true_eq]
  rw [min_comm, min_def_lt, max_def_lt]

theorem IsExact.sortBy {α : Type} (hA : IsExact A) (order : Traversal α) (key : α → K)
    (l : List α) :
    A.sortBy order key l = .ok (order.sort (fun a b => A.lt (key a) (key b)) l) := by
  have hall : (l.all fun a => A.eq (key a) (key a)) = true := by
    simp [hA.eq]
  rw [Doubles.sortBy, if_pos hall]

/-- The least and the largest value are where the range starts or in the list. -/
structure IsRange (start : K × K) (vs : List K) (range : K × K) : Prop where
  lower : ∀ v ∈ vs, range.1 ≤ v
  upper : ∀ v ∈ vs, v ≤ range.2
  least : range.1 = start.1 ∨ range.1 ∈ vs
  largest : range.2 = start.2 ∨ range.2 ∈ vs

theorem IsExact.foldl_widen (hA : IsExact A) (start : K × K) (vs : List K) :
    IsRange start vs (vs.foldl (Interphase.widen A) start) ∧
      (vs.foldl (Interphase.widen A) start).1 ≤ start.1 ∧
      start.2 ≤ (vs.foldl (Interphase.widen A) start).2 := by
  induction vs using List.reverseRecOn with
  | nil => exact ⟨⟨by simp, by simp, .inl rfl, .inl rfl⟩, le_rfl, le_rfl⟩
  | append_singleton vs v ih =>
    obtain ⟨⟨hlower, hupper, hleast, hlargest⟩, hle, hge⟩ := ih
    rw [List.foldl_concat, hA.widen]
    refine ⟨⟨fun w hw => ?_, fun w hw => ?_, ?_, ?_⟩, min_le_of_left_le hle, le_max_of_le_left hge⟩
    · rcases List.mem_append.mp hw with hold | hnew
      · exact min_le_of_left_le (hlower w hold)
      · exact min_le_of_right_le (List.mem_singleton.mp hnew).ge
    · rcases List.mem_append.mp hw with hold | hnew
      · exact le_max_of_le_left (hupper w hold)
      · exact le_max_of_le_right (List.mem_singleton.mp hnew).le
    · rcases min_choice (vs.foldl (Interphase.widen A) start).1 v with hmin | hmin
      · rw [hmin]
        exact hleast.imp_right (List.mem_append_left _)
      · exact .inr (by simp [hmin])
    · rcases max_choice (vs.foldl (Interphase.widen A) start).2 v with hmax | hmax
      · rw [hmax]
        exact hlargest.imp_right (List.mem_append_left _)
      · exact .inr (by simp [hmax])

/-- The range of numbers that double has is empty if and only if they are all the same. -/
theorem IsExact.range_empty_iff (hA : IsExact A) {vs : List K} (hne : vs ≠ [])
    (hfit : ∀ v ∈ vs, 0 ≤ v ∧ v ≤ A.dblMax) :
    (vs.foldl (Interphase.widen A) (A.dblMax, 0)).2 -
        (vs.foldl (Interphase.widen A) (A.dblMax, 0)).1 = 0 ↔
      ∀ v ∈ vs, ∀ w ∈ vs, v = w := by
  obtain ⟨⟨hlower, hupper, hleast, hlargest⟩, hle, hge⟩ := hA.foldl_widen (A.dblMax, 0) vs
  set range := vs.foldl (Interphase.widen A) (A.dblMax, 0)
  obtain ⟨v, hv⟩ := List.exists_mem_of_ne_nil vs hne
  rw [sub_eq_zero]
  constructor
  · intro heq v hv w hw
    have hv' := le_antisymm (hupper v hv) (heq ▸ hlower v hv)
    have hw' := le_antisymm (hupper w hw) (heq ▸ hlower w hw)
    exact hv'.trans hw'.symm
  · intro hall
    have hfirst : range.1 = v := by
      rcases hleast with hstart | hmem
      · exact le_antisymm (hlower v hv) (hstart ▸ (hfit v hv).2)
      · exact hall _ hmem v hv
    have hsecond : range.2 = v := by
      rcases hlargest with hstart | hmem
      · exact le_antisymm (hstart ▸ (hfit v hv).1) (hupper v hv)
      · exact hall _ hmem v hv
    rw [hfirst, hsecond]

/-- A phase after its intensity has been computed. -/
def withIntensity (x : PhaseInfo K) : PhaseInfo K :=
  { x with
    phaseIdentifiers := x.phaseIdentifiers.insertNew "ComputeIntensity" (intensity x) }

theorem features_withIntensity {x : PhaseInfo K} (h : Counted A x) :
    countOf (withIntensity x) "ComputeIntensity" = intensity x ∧
      branchRatio (withIntensity x) = branchRatio x := by
  constructor
  · simp [countOf, withIntensity, OrdMap.get?_insertNew, h.fresh]
  · simp [branchRatio, countOf, withIntensity, OrdMap.get?_insertNew]

variable [IsStrictOrderedRing K]

theorem Counted.intensity_fits {x : PhaseInfo K} (h : Counted A x) :
    0 ≤ intensity x ∧ intensity x ≤ A.dblMax := by
  obtain ⟨n, -, hmax, hn⟩ := h.totalInstr
  obtain ⟨m, hpos, hm⟩ := h.l3Misses
  rw [intensity, countOf, countOf, hn, hm, Option.getD_some, Option.getD_some]
  have hone : (1 : K) ≤ m := by exact_mod_cast hpos
  exact ⟨by positivity, (div_le_self (Nat.cast_nonneg n) hone).trans hmax⟩

theorem Counted.branchRatio_fits {x : PhaseInfo K} (h : Counted A x) :
    0 ≤ branchRatio x ∧ branchRatio x ≤ A.dblMax := by
  obtain ⟨n, hmax, hn⟩ := h.branchInstr
  obtain ⟨m, hpos, -, hm⟩ := h.totalInstr
  rw [branchRatio, countOf, countOf, hn, hm, Option.getD_some, Option.getD_some]
  have hone : (1 : K) ≤ m := by exact_mod_cast hpos
  exact ⟨by positivity, (div_le_self (Nat.cast_nonneg n) hone).trans hmax⟩

theorem calcComputeIntensity_ok (hA : IsExact A) {phases : Phases K}
    (h : ∀ e ∈ phases.entries, Counted A e.2) :
    ∃ phases', Checked.calcComputeIntensity A phases = .ok phases' ∧
      ∀ p, phases'.get? p = (phases.get? p).map withIntensity := by
  refine updateAll_ok fun p x hx => ?_
  have hx := h (p, x) (OrdMap.get?_eq_some.mp hx)
  obtain ⟨n, -, -, hn⟩ := hx.totalInstr
  obtain ⟨m, hpos, hm⟩ := hx.l3Misses
  have hne : (m : K) ≠ 0 := Nat.cast_ne_zero.mpr hpos.ne'
  rw [hn, hm, Outcome.found, Outcome.found, Outcome.ok_bind, Outcome.ok_bind, hA.checkedDiv,
    if_neg hne, Outcome.ok_bind, withIntensity, intensity, countOf, countOf, hn, hm]
  rfl

theorem rawFeatures_withIntensity (hA : IsExact A) {x : PhaseInfo K} (h : Counted A x) :
    Checked.rawFeatures A (withIntensity x) = .ok (intensity x, branchRatio x) := by
  obtain ⟨n, hpos, -, hn⟩ := h.totalInstr
  obtain ⟨b, -, hb⟩ := h.branchInstr
  have hne : (n : K) ≠ 0 := Nat.cast_ne_zero.mpr hpos.ne'
  have hcomp : (withIntensity x).phaseIdentifiers.get? "ComputeIntensity" =
      some (intensity x) := by
    simp [withIntensity, OrdMap.get?_insertNew, h.fresh]
  have hbranch : (withIntensity x).phaseIdentifiers.get? "BranchInstr" = some (b : K) := by
    simp [withIntensity, OrdMap.get?_insertNew, hb]
  have htotal : (withIntensity x).phaseIdentifiers.get? "TotalInstr" = some (n : K) := by
    simp [withIntensity, OrdMap.get?_insertNew, hn]
  rw [Checked.rawFeatures, hcomp, hbranch, htotal]
  simp only [Outcome.found, Outcome.ok_bind, hA.checkedDiv, if_neg hne, branchRatio, countOf, hb,
    hn, Option.getD_some, Outcome.pure_eq]

end Exact

section Loops
variable {A : Doubles V} {f : PhaseInfo V → Outcome (PhaseInfo V)} {phases phases' : Phases V}

theorem entries_eq_map {g : PhaseInfo V → PhaseInfo V}
    (h : ∀ p, phases'.get? p = (phases.get? p).map g) :
    phases'.entries = phases.entries.map fun e => (e.1, g e.2) := by
  have hsorted : (phases.entries.map fun e => (e.1, g e.2)).Pairwise fun a b => a.1 < b.1 :=
    List.pairwise_map.mpr phases.sorted
  have heq : phases' = ⟨_, hsorted⟩ := by
    refine OrdMap.ext_get? fun p => Option.ext fun x => ?_
    rw [h p, OrdMap.get?_eq_some, Option.map_eq_some_iff, List.mem_map]
    constructor
    · rintro ⟨y, hy, rfl⟩
      exact ⟨(p, y), OrdMap.get?_eq_some.mp hy, rfl⟩
    · rintro ⟨⟨q, y⟩, hy, heq⟩
      obtain ⟨rfl, rfl⟩ := Prod.mk.inj heq
      exact ⟨y, OrdMap.get?_eq_some.mpr hy, rfl⟩
  rw [heq]

/-- The first record can be changed, whatever comes after it. -/
theorem updateAll_first {e : ℕ × PhaseInfo V} {es : List (ℕ × PhaseInfo V)}
    (hentries : phases.entries = e :: es) (h : updateAll f phases = .ok phases') :
    ∃ x, f e.2 = .ok x := by
  have hkeys : phases.keys = e.1 :: es.map Prod.fst := by
    rw [OrdMap.keys, hentries, List.map_cons]
  have hget : phases.get? e.1 = some e.2 :=
    OrdMap.get?_eq_some.mpr (hentries ▸ List.mem_cons_self)
  rw [updateAll, hkeys, List.foldlM_cons] at h
  obtain ⟨next, hnext, -⟩ := Outcome.bind_eq_ok.mp h
  rw [hget, Outcome.found, Outcome.ok_bind] at hnext
  obtain ⟨x, hx, -⟩ := Outcome.bind_eq_ok.mp hnext
  exact ⟨x, hx⟩

theorem keys_updateAll (h : updateAll f phases = .ok phases') : phases'.keys = phases.keys := by
  refine OrdMap.keys_eq fun k => ?_
  refine Outcome.foldlM_invariant (fun s : Phases V => k ∈ s.keys ↔ k ∈ phases.keys)
    (fun s p s' hs hstep => ?_) _ _ _ Iff.rfl h
  obtain ⟨x, hx, hstep⟩ := Outcome.bind_eq_ok.mp hstep
  obtain ⟨y, -, hstep⟩ := Outcome.bind_eq_ok.mp hstep
  have hp : p ∈ s.keys := OrdMap.mem_keys.mpr ⟨x, Outcome.found_eq_ok.mp hx⟩
  rw [← Outcome.ok.inj hstep, OrdMap.mem_keys_set, ← hs]
  exact or_iff_right_of_imp fun hk => hk ▸ hp

theorem foldl_ranges (A : Doubles V) (features : PhaseInfo V → V × V)
    (entries : List (ℕ × PhaseInfo V)) : ∀ s : (V × V) × (V × V),
    entries.foldl (fun s e => (widen A s.1 (features e.2).1, widen A s.2 (features e.2).2)) s =
      ((entries.map fun e => (features e.2).1).foldl (widen A) s.1,
        (entries.map fun e => (features e.2).2).foldl (widen A) s.2) := by
  induction entries with
  | nil => exact fun _ => rfl
  | cons e entries ih => exact fun s => ih _

/-- Two phases that differ are two phases. -/
theorem Differs.two_le {value : PhaseInfo V → V} (h : Differs value phases) :
    2 ≤ phases.entries.length := by
  obtain ⟨e, he, e', he', hne⟩ := h
  by_contra hlt
  obtain ⟨only, honly⟩ := List.length_eq_one_iff.mp
    (show phases.entries.length = 1 from le_antisymm (by omega) (List.length_pos_of_mem he))
  rw [honly, List.mem_singleton] at he he'
  exact hne (by rw [he, he'])

theorem differs_map {value value' : PhaseInfo V → V} {g : PhaseInfo V → PhaseInfo V}
    (hentries : phases'.entries = phases.entries.map fun e => (e.1, g e.2))
    (hvalue : ∀ e ∈ phases.entries, value' (g e.2) = value e.2) :
    Differs value' phases' ↔ Differs value phases := by
  rw [Differs, Differs, hentries]
  constructor
  · rintro ⟨_, hmem, _, hmem', hne⟩
    obtain ⟨e, he, rfl⟩ := List.mem_map.mp hmem
    obtain ⟨e', he', rfl⟩ := List.mem_map.mp hmem'
    exact ⟨e, he, e', he', by rwa [hvalue e he, hvalue e' he'] at hne⟩
  · rintro ⟨e, he, e', he', hne⟩
    exact ⟨_, List.mem_map_of_mem he, _, List.mem_map_of_mem he', by
      rwa [hvalue e he, hvalue e' he']⟩

theorem keys_normalizeIdentifiers
    (h : Checked.normalizeIdentifiers A phases = .ok phases') : phases'.keys = phases.keys := by
  obtain ⟨⟨comp, br⟩, -, h⟩ := Outcome.bind_eq_ok.mp h
  exact keys_updateAll h

/-- All phases but one. -/
theorem length_others {e : ℕ × PhaseInfo V} (he : e ∈ phases.entries) :
    (phases.entries.filter fun i2 => decide (e.1 ≠ i2.1)).length = phases.entries.length - 1 := by
  have hmem : e.1 ∈ phases.keys := List.mem_map_of_mem he
  calc (phases.entries.filter fun i2 => decide (e.1 ≠ i2.1)).length
      = (phases.keys.filter fun k => decide (e.1 ≠ k)).length := by
        rw [OrdMap.keys, List.filter_map, List.length_map]
        rfl
    _ = (phases.keys.erase e.1).length := by
        rw [phases.keys_nodup.erase_eq_filter]
        congr 2
        funext k
        rw [bne, beq_eq_decide, ← decide_not]
        exact decide_eq_decide.mpr ne_comm
    _ = phases.entries.length - 1 := by
        rw [List.length_erase_of_mem hmem, OrdMap.keys, List.length_map]

theorem length_distancesFrom {e : ℕ × PhaseInfo V} (he : e ∈ phases.entries) :
    (Checked.distancesFrom A phases e).length = phases.entries.length - 1 := by
  rw [Checked.distancesFrom, List.length_map, length_others he]

theorem addNeighDist_eq (A : Doubles V) (order : Traversal V)
    (htwo : 2 ≤ phases.entries.length) {e : ℕ × PhaseInfo V} (he : e ∈ phases.entries)
    (kNeighDist : List (ℕ × V)) :
    Checked.addNeighDist A order phases kNeighDist e = do
      let kNDist ← Checked.findKNearestNeighbors A order (Checked.distancesFrom A phases e)
      return kNeighDist ++ [(e.1, kNDist)] := by
  have hlength := length_distancesFrom (A := A) he
  have hne : Checked.distancesFrom A phases e ≠ [] := List.ne_nil_of_length_pos (by omega)
  rw [Checked.addNeighDist, if_neg hne]

/-- There is one mean distance for each phase. -/
theorem length_calcDistanceMatrix {order : Traversal V}
    (htwo : 2 ≤ phases.entries.length) {res : DistMatrix V × List (ℕ × V)}
    (h : Checked.calcDistanceMatrix A order phases = .ok res) :
    res.2.length = phases.entries.length := by
  have hrounds : ∀ (es : List (ℕ × PhaseInfo V)) (kNeighDist res : List (ℕ × V)),
      (∀ e ∈ es, e ∈ phases.entries) →
      es.foldlM (Checked.addNeighDist A order phases) kNeighDist = .ok res →
      res.length = kNeighDist.length + es.length := by
    intro es
    induction es with
    | nil =>
      intro kNeighDist res _ h
      rw [← Outcome.ok.inj h]
      rfl
    | cons e es ih =>
      intro kNeighDist res hes h
      obtain ⟨he, hes⟩ := List.forall_mem_cons.mp hes
      rw [List.foldlM_cons, addNeighDist_eq A order htwo he] at h
      obtain ⟨next, hnext, hrest⟩ := Outcome.bind_eq_ok.mp h
      obtain ⟨kNDist, -, hnext⟩ := Outcome.bind_eq_ok.mp hnext
      rw [ih next res hes hrest, ← Outcome.ok.inj hnext, List.length_append,
        List.length_singleton, List.length_cons]
      omega
  obtain ⟨kNeighDist, hloop, hres⟩ := Outcome.bind_eq_ok.mp h
  rw [← Outcome.ok.inj hres, hrounds _ _ _ (fun _ he => he) hloop, List.length_nil, Nat.zero_add]

/-- `max_element` gives a place of the list. -/
theorem exists_maxElement {distL : List (ℕ × V)} (hne : distL ≠ []) :
    ∃ p ∈ distL, Checked.maxElement A distL = some p.1 := by
  have hfold : ∀ (rest : List (ℕ × V)) (best : ℕ × V), ∃ p ∈ best :: rest,
      rest.foldl (fun (best : Option (ℕ × V)) p =>
        match best with
        | none => some p
        | some b => if A.lt b.2 p.2 then some p else some b) (some best) = some p := by
    intro rest
    induction rest with
    | nil => exact fun best => ⟨best, List.mem_cons_self, rfl⟩
    | cons q rest ih =>
      intro best
      rw [List.foldl_cons]
      dsimp only
      split_ifs
      · obtain ⟨p, hp, hrun⟩ := ih q
        exact ⟨p, List.mem_cons_of_mem _ hp, hrun⟩
      · obtain ⟨p, hp, hrun⟩ := ih best
        refine ⟨p, ?_, hrun⟩
        rcases List.mem_cons.mp hp with rfl | hrest
        · exact List.mem_cons_self
        · exact List.mem_cons_of_mem _ (List.mem_cons_of_mem _ hrest)
  obtain ⟨first, rest, rfl⟩ := List.exists_cons_of_ne_nil hne
  obtain ⟨p, hp, hrun⟩ := hfold rest first
  refine ⟨p, hp, ?_⟩
  rw [Checked.maxElement, List.foldl_cons, hrun, Option.map_some]

end Loops

section Radius
variable {K : Type} [Field K] [LinearOrder K] {A : Doubles K}

/-- The identifiers can be normalized if and only if both features differ. -/
theorem normalizeIdentifiers_returns_iff (hA : IsExact A) {phases : Phases K}
    (features : PhaseInfo K → K × K) (hne : phases.entries ≠ [])
    (hraw : ∀ e ∈ phases.entries, Checked.rawFeatures A e.2 = .ok (features e.2))
    (hfirst : ∀ e ∈ phases.entries, 0 ≤ (features e.2).1 ∧ (features e.2).1 ≤ A.dblMax)
    (hsecond : ∀ e ∈ phases.entries, 0 ≤ (features e.2).2 ∧ (features e.2).2 ≤ A.dblMax) :
    (∃ phases', Checked.normalizeIdentifiers A phases = .ok phases') ↔
      Differs (fun x => (features x).1) phases ∧ Differs (fun x => (features x).2) phases := by
  have hrange : ∀ value : PhaseInfo K → K,
      (∀ e ∈ phases.entries, 0 ≤ value e.2 ∧ value e.2 ≤ A.dblMax) →
      (((phases.entries.map fun e => value e.2).foldl (widen A) (A.dblMax, 0)).2 -
        ((phases.entries.map fun e => value e.2).foldl (widen A) (A.dblMax, 0)).1 ≠ 0 ↔
          Differs value phases) := by
    intro value hfit
    have hmap : phases.entries.map (fun e => value e.2) ≠ [] := mt List.map_eq_nil_iff.mp hne
    rw [Ne, hA.range_empty_iff hmap (List.forall_mem_map.mpr hfit), Differs]
    simp
  have hfold := Outcome.foldlM_eq_foldl
    (f := fun (s : (K × K) × (K × K)) (p1 : ℕ × PhaseInfo K) => do
      let features ← Checked.rawFeatures A p1.2
      return (widen A s.1 features.1, widen A s.2 features.2))
    (g := fun s e => (widen A s.1 (features e.2).1, widen A s.2 (features e.2).2))
    (fun s e he => by rw [hraw e he]; rfl) ((A.dblMax, A.zero), (A.dblMax, A.zero))
  rw [foldl_ranges, hA.zero] at hfold
  rw [← hrange _ hfirst, ← hrange _ hsecond, Checked.normalizeIdentifiers, hA.zero, hfold,
    Outcome.ok_bind]
  generalize (phases.entries.map fun e => (features e.2).1).foldl (widen A) (A.dblMax, 0) = comp
  generalize (phases.entries.map fun e => (features e.2).2).foldl (widen A) (A.dblMax, 0) = br
  have hnormalize : ∀ (range : K × K) (v : K), Checked.normalize A range v =
      if range.2 - range.1 = 0 then .undefined
      else .ok ((v - range.1) / (range.2 - range.1)) := by
    intro range v
    rw [Checked.normalize, hA.checkedDiv, hA.sub, hA.sub]
  constructor
  · rintro ⟨phases', h⟩
    obtain ⟨e, es, hentries⟩ := List.exists_cons_of_ne_nil hne
    obtain ⟨x, hx⟩ := updateAll_first hentries h
    obtain ⟨raw, -, hx⟩ := Outcome.bind_eq_ok.mp hx
    obtain ⟨first, hcomp, hx⟩ := Outcome.bind_eq_ok.mp hx
    obtain ⟨second, hbr, -⟩ := Outcome.bind_eq_ok.mp hx
    rw [hnormalize] at hcomp hbr
    constructor
    · intro hzero
      rw [if_pos hzero] at hcomp
      cases hcomp
    · intro hzero
      rw [if_pos hzero] at hbr
      cases hbr
  · rintro ⟨hcomp, hbr⟩
    have hrun : ∀ p x, phases.get? p = some x → (do
        let features ← Checked.rawFeatures A x
        let first ← Checked.normalize A comp features.1
        let second ← Checked.normalize A br features.2
        return { x with
          normalizedFeatures := (first, second)
          phaseIdentifiers := x.phaseIdentifiers.insertNew "BranchInstructions" features.2 }) =
        .ok { x with
          normalizedFeatures := (((features x).1 - comp.1) / (comp.2 - comp.1),
            ((features x).2 - br.1) / (br.2 - br.1))
          phaseIdentifiers :=
            x.phaseIdentifiers.insertNew "BranchInstructions" (features x).2 } := by
      intro p x hx
      rw [hraw (p, x) (OrdMap.get?_eq_some.mp hx), Outcome.ok_bind, hnormalize, if_neg hcomp,
        Outcome.ok_bind, hnormalize, if_neg hbr]
      rfl
    obtain ⟨phases', h, -⟩ := updateAll_ok hrun
    exact ⟨phases', h⟩

variable [IsStrictOrderedRing K]

theorem findKNearestNeighbors_returns_iff (hA : IsExact A) (order : Traversal K)
    {distances : List K} :
    (∃ v, Checked.findKNearestNeighbors A order distances = .ok v) ↔ 3 ≤ distances.length := by
  have hlength := (order.sort_perm (fun a b => A.lt (id a) (id b)) distances).length_eq
  rw [Checked.findKNearestNeighbors, hA.sortBy, Outcome.ok_bind, ← hlength]
  match order.sort (fun a b => A.lt (id a) (id b)) distances with
  | [] => simp
  | [_] => simp
  | [_, _] => simp
  | d₀ :: d₁ :: d₂ :: rest =>
    have hthree : A.ofInt 3 ≠ 0 := by
      rw [hA.ofInt]
      norm_num
    refine iff_of_true ⟨A.add (A.add d₀ d₁) d₂ / A.ofInt 3, ?_⟩ (by simp)
    dsimp only
    rw [hA.checkedDiv, if_neg hthree]

/-- With two phases or more, the neighbours of each are there if and only if there are four. -/
theorem calcDistanceMatrix_returns_iff (hA : IsExact A) (order : Traversal K) {phases : Phases K}
    (htwo : 2 ≤ phases.entries.length) :
    (∃ res, Checked.calcDistanceMatrix A order phases = .ok res) ↔ 4 ≤ phases.entries.length := by
  have hround : ∀ kNeighDist, ∀ e ∈ phases.entries,
      (∃ v, Checked.addNeighDist A order phases kNeighDist e = .ok v) ↔
        4 ≤ phases.entries.length := by
    intro kNeighDist e he
    have hiff : 3 ≤ (Checked.distancesFrom A phases e).length ↔ 4 ≤ phases.entries.length := by
      rw [length_distancesFrom he]
      omega
    rw [addNeighDist_eq A order htwo he, Outcome.bind_returns_iff, ← hiff,
      ← findKNearestNeighbors_returns_iff hA order]
    exact exists_congr fun kNDist => and_iff_left ⟨_, rfl⟩
  have hloop := Outcome.foldlM_returns_iff hround []
  obtain ⟨e, he⟩ := List.exists_mem_of_length_pos (by omega : 0 < phases.entries.length)
  rw [Checked.calcDistanceMatrix, Outcome.bind_returns_iff]
  constructor
  · rintro ⟨kNeighDist, h, -⟩
    exact hloop.mp ⟨kNeighDist, h⟩ e he
  · intro hfour
    obtain ⟨kNeighDist, h⟩ := hloop.mpr fun _ _ => hfour
    exact ⟨kNeighDist, h, _, rfl⟩

theorem lineDistance_returns (hA : IsExact A) (aL : K) {bL : K} (hbL : 1 ≤ bL * bL) (cL : K)
    (point : (ℕ × K) × ℕ) :
    ∃ dist, Checked.lineDistance A aL bL cL point = .ok (point.2, dist) := by
  have hone : 1 ≤ aL * aL + bL * bL := le_add_of_nonneg_of_le (mul_self_nonneg aL) hbL
  have hne : A.sqrt (A.add (A.mul aL aL) (A.mul bL bL)) ≠ 0 := by
    rw [hA.add, hA.mul, hA.mul]
    exact hA.sqrt _ hone
  rw [Checked.lineDistance, hA.checkedDiv, if_neg hne]
  exact ⟨_, rfl⟩

theorem farthestFromLine_returns (hA : IsExact A) {kNnDist : List (ℕ × K)}
    (htwo : 2 ≤ kNnDist.length) (first last : K) : ∃ pos < kNnDist.length,
      Checked.farthestFromLine A kNnDist first last = .ok (some pos) := by
  have hbL : 1 ≤ A.sub A.zero (A.ofInt (kNnDist.length - 1)) *
      A.sub A.zero (A.ofInt (kNnDist.length - 1)) := by
    have hcast : (2 : K) ≤ kNnDist.length := by exact_mod_cast htwo
    rw [hA.sub, hA.zero, hA.ofInt, zero_sub, neg_mul_neg]
    push_cast
    nlinarith
  rw [Checked.farthestFromLine]
  generalize A.sub A.zero (A.ofInt (kNnDist.length - 1)) = bL at hbL ⊢
  generalize A.sub last first = aL
  generalize A.sub (A.mul (A.sub A.zero aL) A.zero) (A.mul bL first) = cL
  choose dist hdist using lineDistance_returns hA aL hbL cL
  rw [Outcome.mapM_eq_map fun point _ => hdist point, Outcome.ok_bind]
  have hne : kNnDist.zipIdx.map (fun point => (point.2, dist point)) ≠ [] :=
    List.ne_nil_of_length_pos (by simp; omega)
  obtain ⟨p, hp, hmax⟩ := exists_maxElement (A := A) hne
  obtain ⟨⟨kNn, pt⟩, hpoint, rfl⟩ := List.mem_map.mp hp
  exact ⟨pt, (List.mem_zipIdx' hpoint).1, by rw [hmax]; rfl⟩

/-- The radius is that of a place of the list. -/
theorem calculateEps_returns (hA : IsExact A) (order : Traversal (ℕ × K)) {kNnDist : List (ℕ × K)}
    (htwo : 2 ≤ kNnDist.length) : ∃ eps, Checked.calculateEps A order kNnDist = .ok eps := by
  have hlength := (order.sort_perm (fun a b => A.lt a.2 b.2) kNnDist).length_eq
  rw [Checked.calculateEps, hA.sortBy, Outcome.ok_bind]
  generalize order.sort (fun a b => A.lt a.2 b.2) kNnDist = sorted at hlength ⊢
  have hne : sorted ≠ [] := List.ne_nil_of_length_pos (by omega)
  have htwo' : 2 ≤ sorted.length := by omega
  obtain ⟨pos, hpos, hfarthest⟩ :=
    farthestFromLine_returns hA htwo' (sorted.head hne).2 (sorted.getLast hne).2
  rw [List.head?_eq_some_head hne, List.getLast?_eq_some_getLast hne, Outcome.found, Outcome.found,
    Outcome.ok_bind, Outcome.ok_bind, hfarthest, Outcome.ok_bind, Outcome.found, Outcome.ok_bind,
    Outcome.elementAt_natCast hpos]
  exact ⟨_, rfl⟩

/-- The features are those of the counts. -/
theorem normalizeIdentifiers_withIntensity_iff (hA : IsExact A) {phases phases₁ : Phases K}
    (hne : phases.entries ≠ []) (hcounted : ∀ e ∈ phases.entries, Counted A e.2)
    (hentries : phases₁.entries = phases.entries.map fun e => (e.1, withIntensity e.2)) :
    (∃ phases₂, Checked.normalizeIdentifiers A phases₁ = .ok phases₂) ↔
      Differs intensity phases ∧ Differs branchRatio phases := by
  have hphase : ∀ e ∈ phases₁.entries, Checked.rawFeatures A e.2 =
        .ok (countOf e.2 "ComputeIntensity", branchRatio e.2) ∧
      (0 ≤ countOf e.2 "ComputeIntensity" ∧ countOf e.2 "ComputeIntensity" ≤ A.dblMax) ∧
      0 ≤ branchRatio e.2 ∧ branchRatio e.2 ≤ A.dblMax := by
    intro e₁ he₁
    rw [hentries] at he₁
    obtain ⟨e, he, rfl⟩ := List.mem_map.mp he₁
    have h := hcounted e he
    obtain ⟨hcomp, hbranch⟩ := features_withIntensity h
    dsimp only
    rw [rawFeatures_withIntensity hA h, hcomp, hbranch]
    exact ⟨rfl, h.intensity_fits, h.branchRatio_fits⟩
  have hne₁ : phases₁.entries ≠ [] := by
    rw [hentries]
    exact mt List.map_eq_nil_iff.mp hne
  rw [normalizeIdentifiers_returns_iff hA
    (fun x => (countOf x "ComputeIntensity", branchRatio x)) hne₁ (fun e he => (hphase e he).1)
    (fun e he => (hphase e he).2.1) fun e he => (hphase e he).2.2]
  exact and_congr
    (differs_map hentries fun e he => (features_withIntensity (hcounted e he)).1)
    (differs_map hentries fun e he => (features_withIntensity (hcounted e he)).2)

/-- The radius is computed without a division by zero or a read outside of a list exactly where
there are four phases and both features differ. -/
theorem epsOf_returns_iff (hA : IsExact A) (distances : Traversal K)
    (neighbors : Traversal (ℕ × K)) (phases : Phases K) (hne : phases.entries ≠ [])
    (hcounted : ∀ e ∈ phases.entries, Counted A e.2) :
    (∃ eps, Checked.epsOf A distances neighbors phases = .ok eps) ↔
      4 ≤ phases.entries.length ∧ Differs intensity phases ∧ Differs branchRatio phases := by
  obtain ⟨phases₁, hrun, hget⟩ := calcComputeIntensity_ok hA hcounted
  have hentries := entries_eq_map hget
  have hnormalize := normalizeIdentifiers_withIntensity_iff hA hne hcounted hentries
  have hlength₂ : ∀ phases₂, Checked.normalizeIdentifiers A phases₁ = .ok phases₂ →
      phases₂.entries.length = phases.entries.length := by
    intro phases₂ h
    have hkeys := congrArg List.length (keys_normalizeIdentifiers h)
    rwa [OrdMap.keys, OrdMap.keys, List.length_map, List.length_map, hentries,
      List.length_map] at hkeys
  rw [Checked.epsOf, hrun, Outcome.ok_bind]
  constructor
  · rintro ⟨eps, h⟩
    obtain ⟨phases₂, hphases₂, h⟩ := Outcome.bind_eq_ok.mp h
    obtain ⟨matrix, hmatrix, -⟩ := Outcome.bind_eq_ok.mp h
    have hdiffers := hnormalize.mp ⟨phases₂, hphases₂⟩
    have htwo := hdiffers.1.two_le
    rw [← hlength₂ phases₂ hphases₂] at htwo ⊢
    exact ⟨(calcDistanceMatrix_returns_iff hA distances htwo).mp ⟨matrix, hmatrix⟩, hdiffers⟩
  · rintro ⟨hfour, hdiffers⟩
    obtain ⟨phases₂, hphases₂⟩ := hnormalize.mpr hdiffers
    rw [← hlength₂ phases₂ hphases₂] at hfour
    obtain ⟨matrix, hmatrix⟩ :=
      (calcDistanceMatrix_returns_iff hA distances (by omega)).mpr hfour
    have hone := length_calcDistanceMatrix (by omega) hmatrix
    rw [hphases₂, Outcome.ok_bind, hmatrix, Outcome.ok_bind]
    exact calculateEps_returns hA neighbors (by omega)

end Radius

section Rationals

theorem natSqrt_pos {n : ℕ} (hn : 0 < n) (rounds : ℕ) :
    ∀ root, 0 < root → 0 < Autotune.natSqrt n rounds root := by
  induction rounds with
  | zero => exact fun _ h => h
  | succ rounds ih =>
    intro root hroot
    have hnext : 0 < (root + n / root) / 2 := by
      rcases Nat.lt_or_ge 1 root with hlarge | hsmall
      · exact Nat.div_pos (hlarge.nat_succ_le.trans (Nat.le_add_right _ _)) two_pos
      · obtain rfl : root = 1 := by omega
        rw [Nat.div_one]
        omega
    rw [Autotune.natSqrt]
    split_ifs
    · exact ih _ hnext
    · exact hroot

theorem decimalSqrt_ne_zero {q : ℚ} (hq : 1 ≤ q) : decimalSqrt q ≠ 0 := by
  have hscaled : 0 < (q * 10 ^ 16).floor.toNat := by
    rw [Int.lt_toNat, Nat.cast_zero]
    exact Int.floor_pos.mpr (one_le_mul_of_one_le_of_one_le hq (by norm_num))
  rw [decimalSqrt, Rat.mkRat_ne_zero (by norm_num)]
  exact_mod_cast (natSqrt_pos hscaled 128 _ (Nat.succ_pos _)).ne'

theorem ratDoubles_isExact : IsExact ratDoubles where
  lt _ _ := rfl
  eq _ _ := rfl
  add _ _ := rfl
  sub _ _ := rfl
  mul _ _ := rfl
  div _ _ := rfl
  ofInt _ := rfl
  sqrt _ := decimalSqrt_ne_zero

def countedPhase (totalInstr l3Misses branchInstr : ℕ) : PhaseInfo ℚ :=
  { plainPhase 0 with
    phaseIdentifiers := .ofList [("TotalInstr", (totalInstr : ℚ)), ("L3Misses", (l3Misses : ℚ)),
      ("BranchInstr", (branchInstr : ℚ))] }

theorem countedPhase_counted {totalInstr l3Misses branchInstr : ℕ} (htotal : 0 < totalInstr)
    (hl3 : 0 < l3Misses) (hfits : (totalInstr : ℚ) ≤ ratDoubles.dblMax)
    (hfits' : (branchInstr : ℚ) ≤ ratDoubles.dblMax) :
    Counted ratDoubles (countedPhase totalInstr l3Misses branchInstr) := by
  refine ⟨⟨totalInstr, htotal, hfits, ?_⟩, ⟨l3Misses, hl3, ?_⟩, ⟨branchInstr, hfits', ?_⟩, ?_⟩ <;>
    simp [countedPhase, OrdMap.ofList, OrdMap.get?_set]

/-- Four phases with different features. -/
def fourPhases : Phases ℚ :=
  .ofList [(1, countedPhase 100 10 20), (2, countedPhase 100 20 40), (3, countedPhase 100 25 10),
    (4, countedPhase 100 50 50)]

theorem fourPhases_entries : fourPhases.entries = [(1, countedPhase 100 10 20),
    (2, countedPhase 100 20 40), (3, countedPhase 100 25 10), (4, countedPhase 100 50 50)] := rfl

theorem fourPhases_counted : ∀ e ∈ fourPhases.entries, Counted ratDoubles e.2 := by
  rw [fourPhases_entries]
  simp only [List.forall_mem_cons, List.not_mem_nil, false_imp_iff, implies_true, and_true]
  refine ⟨?_, ?_, ?_, ?_⟩ <;>
    exact countedPhase_counted (by norm_num) (by norm_num) (by decide +kernel) (by decide +kernel)

theorem fourPhases_differs {value : PhaseInfo ℚ → ℚ}
    (hne : value (countedPhase 100 10 20) ≠ value (countedPhase 100 20 40)) :
    Differs value fourPhases := by
  rw [Differs, fourPhases_entries]
  exact ⟨_, List.mem_cons_self, _, List.mem_cons_of_mem _ List.mem_cons_self, hne⟩

theorem epsOf_returns_fourPhases : IsExact ratDoubles ∧ fourPhases.entries ≠ [] ∧
    (∀ e ∈ fourPhases.entries, Counted ratDoubles e.2) ∧
    ∃ eps, Checked.epsOf ratDoubles .inserted .inserted fourPhases = .ok eps := by
  have hne : fourPhases.entries ≠ [] := by decide
  refine ⟨ratDoubles_isExact, hne, fourPhases_counted, ?_⟩
  exact (epsOf_returns_iff ratDoubles_isExact .inserted .inserted fourPhases hne
    fourPhases_counted).mpr ⟨by decide, fourPhases_differs (by decide +kernel),
      fourPhases_differs (by decide +kernel)⟩

/-- A single phase: the spread of its features, by which they are divided, is zero. -/
theorem not_epsOf_returns : ¬ ∀ phases : Phases ℚ, phases.entries ≠ [] →
    (∀ e ∈ phases.entries, Counted ratDoubles e.2) →
      ∃ eps, Checked.epsOf ratDoubles .inserted .inserted phases = .ok eps := by
  intro h
  obtain ⟨eps, heps⟩ := h (.ofList [(1, countedPhase 100 10 20)]) (by decide) (by
    intro e he
    obtain rfl := List.mem_singleton.mp he
    exact countedPhase_counted (by norm_num) (by norm_num) (by decide +kernel) (by decide +kernel))
  have hrun : Checked.epsOf ratDoubles .inserted .inserted
      (.ofList [(1, countedPhase 100 10 20)]) = .undefined := by decide +kernel
  rw [hrun] at heps
  cases heps

end Rationals

end ReadexPtf.Interphase
