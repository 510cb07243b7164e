import ReadexPtf.Interphase.Phases
import ReadexPtf.Lib.Density
import Mathlib

/-! The clustering of the phases by density: the distance matrix, the radius, and the
expansion of the clusters. -/
namespace ReadexPtf.Interphase
variable {V : Type} (A : Doubles V)

/-- `dist_matrix`, in the order of its keys. -/
abbrev DistMatrix (V : Type) := OrdMap (ℕ ×ₗ ℕ) V

def distance? (dist : DistMatrix V) (i j : ℕ) : Option V := dist.get? (toLex (i, j))

/-- The Euclidean distance of the normalized features. -/
def featureDistance (x y : PhaseInfo V) : V :=
  let second := A.sub y.normalizedFeatures.2 x.normalizedFeatures.2
  let first := A.sub y.normalizedFeatures.1 x.normalizedFeatures.1
  A.sqrt (A.add (A.mul second second) (A.mul first first))

/-- The mean distance of the three nearest neighbours; `at` throws where there are fewer. -/
def findKNearestNeighbors (order : Traversal V) (distancesFromPoint : List V) : Outcome V := do
  match ← A.sortBy order id distancesFromPoint with
  | d₀ :: d₁ :: d₂ :: _ => return A.div (A.add (A.add d₀ d₁) d₂) (A.ofInt 3)
  | _ => .throws "vector::_M_range_check"

/-- `dist_matrix`, and `k_neigh_dist` with the mean distances of the nearest neighbours. -/
def distMatrix (ptX : Phases V) : DistMatrix V :=
  (ptX.entries.flatMap fun i1 => ptX.entries.map fun i2 =>
      (toLex (i1.1, i2.1), featureDistance A i1.2 i2.2)).foldl
    (fun dist d => dist.insertNew d.1 d.2) .empty

def calcDistanceMatrix (order : Traversal V) (ptX : Phases V) :
    Outcome (DistMatrix V × List (ℕ × V)) := do
  let kNeighDist ← ptX.entries.foldlM (fun kNeighDist i1 =>
    let distances := (ptX.entries.filter fun i2 => decide (i1.1 ≠ i2.1)).map fun i2 =>
      featureDistance A i1.2 i2.2
    if distances = [] then .ok kNeighDist
    else do
      let kNDist ← findKNearestNeighbors A order distances
      return kNeighDist ++ [(i1.1, kNDist)]) []
  return (distMatrix A ptX, kNeighDist)

/-- The largest distance to the line between the first and the last point. -/
def farthestFromLine (kNnDist : List (ℕ × V)) (first last : V) : Option ℕ :=
  let aL := A.sub last first
  let bL := A.sub A.zero (A.ofInt (kNnDist.length - 1))
  let cL := A.sub (A.mul (A.sub A.zero aL) A.zero) (A.mul bL first)
  let distL := kNnDist.zipIdx.map fun (kNn, pt) =>
    (pt, A.abs (A.div (A.add (A.add (A.mul aL (A.ofInt pt)) (A.mul bL kNn.2)) cL)
      (A.sqrt (A.add (A.mul aL aL) (A.mul bL bL)))))
  -- `max_element` keeps the first of equal elements
  (distL.foldl (fun (best : Option (ℕ × V)) p =>
    match best with
    | none => some p
    | some b => if A.lt b.2 p.2 then some p else some b) none).map Prod.fst

/-- The radius, from the mean distances of the phases to their nearest neighbours. -/
def calculateEps (order : Traversal (ℕ × V)) (kNnDist : List (ℕ × V)) : Outcome V := do
  let sorted ← A.sortBy order Prod.snd kNnDist
  let first ← Outcome.found sorted.head?
  let last ← Outcome.found sorted.getLast?
  let pos ← Outcome.found (farthestFromLine A sorted first.2 last.2)
  let kNn ← Outcome.elementAt sorted pos
  return kNn.2

/-- The other phases within the radius of this one. -/
def withinEps (dist : DistMatrix V) (eps : V) (phase : ℕ) : List ℕ :=
  (dist.entries.filter fun d =>
    (ofLex d.1).1 = phase && A.le d.2 eps && decide ((ofLex d.1).2 ≠ phase)).map fun d => (ofLex d.1).2

/-- The neighbours are added to those that the phase has, all of which are returned. -/
def checkDistance (phaseI : ℕ) (dist : DistMatrix V) (eps : V) (phases : Phases V) :
    Outcome (List ℕ × Phases V) := do
  let phase ← Outcome.found (phases.get? phaseI)
  let neighbors := phase.neighbors ++ withinEps A dist eps phaseI
  return (neighbors, phases.set phaseI { phase with neighbors })

/-- The first visit of a neighbour, whose own neighbours can extend those of `input`. -/
def visitPoint (dist : DistMatrix V) (eps : V) (input next : ℕ) (phases : Phases V) :
    Outcome (Phases V) := do
  let nextPoint ← Outcome.found (phases.get? next)
  if nextPoint.visited then return phases
  else
    let (neigh, phases) ← checkDistance A next dist eps
      (phases.set next { nextPoint with visited := true })
    if minPoints ≤ neigh.length then
      let inputI ← Outcome.found (phases.get? input)
      return phases.set input { inputI with neighbors := inputI.neighbors ++ neigh }
    else return phases

/-- A point that was labelled as noise before may now be part of a new cluster. -/
def claimPoint (clusterNum : ℤ) (next : ℕ) (phases : Phases V) : Outcome (Phases V) := do
  let nextPoint ← Outcome.found (phases.get? next)
  if nextPoint.clusterID = unclassified ∨ nextPoint.clusterID = noise then
    return phases.set next { nextPoint with clusterID := clusterNum }
  else return phases

/-- One round of the loop over the neighbours of `input`. -/
def expandRound (dist : DistMatrix V) (eps : V) (clusterNum : ℤ) (input : ℕ)
    (s : ℕ × Phases V) : Outcome (ℕ × Phases V) := do
  let inputI ← Outcome.found (s.2.get? input)
  let next ← Outcome.elementAt inputI.neighbors s.1
  let phases ← visitPoint A dist eps input next s.2
  let phases ← claimPoint clusterNum next phases
  return (s.1 + 1, phases)

/-- The neighbours of `input`, as many as it has at this time. -/
def neighborsLeft (input : ℕ) (s : ℕ × Phases V) : Bool :=
  match s.2.get? input with
  | some inputI => s.1 < inputI.neighbors.length
  | none => false

def expandCluster (rounds : ℕ) (dist : DistMatrix V) (eps : V) (clusterNum : ℤ) (input : ℕ)
    (phases : Phases V) : Outcome (Phases V) := do
  let inputI ← Outcome.found (phases.get? input)
  let (_, phases) ← Outcome.whileLoop (neighborsLeft input)
    (expandRound A dist eps clusterNum input) rounds
    (0, phases.set input { inputI with clusterID := clusterNum })
  return phases

/-- One phase of the loop in `clusterPhases`. -/
def clusterPhase (rounds : ℕ) (dist : DistMatrix V) (eps : V) (s : ℤ × Phases V) (input : ℕ) :
    Outcome (ℤ × Phases V) := do
  let (clusterNum, phases) := s
  let inputI ← Outcome.found (phases.get? input)
  if inputI.visited then return s
  else
    let (neigh, phases) ← checkDistance A input dist eps
      (phases.set input { inputI with visited := true })
    if minPoints ≤ neigh.length then
      let phases ← expandCluster A rounds dist eps clusterNum input phases
      return (clusterNum + 1, phases)
    else
      let inputI ← Outcome.found (phases.get? input)
      return (clusterNum, phases.set input { inputI with clusterID := noise })

/-- The number of the next cluster and the phases with their clusters. The map keeps its
keys, so the loop runs through those it has at the start. -/
def clusterPhases (rounds : ℕ) (order : Traversal (ℕ × V)) (kNeighDist : List (ℕ × V))
    (dist : DistMatrix V) (inputData : Phases V) : Outcome (ℤ × Phases V) := do
  if inputData.entries = [] then .aborts
  else
    let eps ← calculateEps A order kNeighDist
    inputData.keys.foldlM (clusterPhase A rounds dist eps) (1, inputData)

/-- Two phases within the radius. -/
def near (dist : DistMatrix V) (eps : V) (p q : ℕ) : Bool :=
  decide (p ≠ q) && (distance? dist p q).any fun d => A.le d eps

/-- A core phase: enough other phases are within the radius. -/
def IsCore (keys : List ℕ) (dist : DistMatrix V) (eps : V) (p : ℕ) : Prop :=
  minPoints ≤ (keys.filter (near A dist eps p)).length

/-- A chain of core phases. -/
def CoreChain (keys : List ℕ) (dist : DistMatrix V) (eps : V) : ℕ → ℕ → Prop :=
  Relation.ReflTransGen fun p q =>
    IsCore A keys dist eps p ∧ IsCore A keys dist eps q ∧ near A dist eps p q

/-- What the clusters are for: `n` of them, by density. -/
structure IsDbscan (keys : List ℕ) (dist : DistMatrix V) (eps : V) (phases : Phases V) (n : ℕ) :
    Prop where
  keys_eq : phases.keys = keys
  core : ∀ p x, phases.get? p = some x → IsCore A keys dist eps p → 1 ≤ x.clusterID
  same : ∀ p x q y, phases.get? p = some x → phases.get? q = some y →
    IsCore A keys dist eps p → IsCore A keys dist eps q →
    (x.clusterID = y.clusterID ↔ CoreChain A keys dist eps p q)
  outlier : ∀ p x, phases.get? p = some x → (x.clusterID = noise ↔
    ¬ IsCore A keys dist eps p ∧ ∀ q ∈ keys, near A dist eps p q → ¬ IsCore A keys dist eps q)
  border : ∀ p x, phases.get? p = some x → ¬ IsCore A keys dist eps p → x.clusterID ≠ noise →
    ∃ q y, phases.get? q = some y ∧ IsCore A keys dist eps q ∧ near A dist eps p q ∧
      1 ≤ x.clusterID ∧ x.clusterID = y.clusterID
  ids : ∀ k : ℤ, k ≠ noise →
    ((∃ p x, phases.get? p = some x ∧ x.clusterID = k) ↔ 1 ≤ k ∧ k ≤ n)

/-- A distance for every two phases, the same in both directions. -/
structure IsMatrix (dist : DistMatrix V) (keys : List ℕ) : Prop where
  total : ∀ p q, (∃ d, distance? dist p q = some d) ↔ p ∈ keys ∧ q ∈ keys
  symm : ∀ p q, distance? dist p q = distance? dist q p

/-- The matrix holds the distance of every two phases. -/
theorem distance?_distMatrix (phases : Phases V) (p q : ℕ) :
    distance? (distMatrix A phases) p q = (phases.get? p).bind fun x =>
      (phases.get? q).map fun y => featureDistance A x y := by
  rw [distance?, distMatrix, OrdMap.get?_foldl_insertNew, OrdMap.get?_empty, Option.none_or]
  cases hfind : List.find? _ _ with
  | none =>
    have hnone := List.find?_eq_none.mp hfind
    cases hp : phases.get? p with
    | none => rfl
    | some x =>
      cases hq : phases.get? q with
      | none => rfl
      | some y =>
        have hmem : (toLex (p, q), featureDistance A x y) ∈ phases.entries.flatMap fun i1 =>
            phases.entries.map fun i2 => (toLex (i1.1, i2.1), featureDistance A i1.2 i2.2) :=
          List.mem_flatMap.mpr ⟨(p, x), OrdMap.get?_eq_some.mp hp,
            List.mem_map.mpr ⟨(q, y), OrdMap.get?_eq_some.mp hq, rfl⟩⟩
        exact absurd (decide_eq_true rfl) (hnone _ hmem)
  | some d =>
    obtain ⟨i1, hi1, hrest⟩ := List.mem_flatMap.mp (List.mem_of_find?_eq_some hfind)
    obtain ⟨i2, hi2, hd⟩ := List.mem_map.mp hrest
    have hkey : d.1 = toLex (p, q) := by simpa using List.find?_some hfind
    rw [← hd] at hkey
    have hpair := toLex.injective hkey
    have hp : phases.get? p = some i1.2 := by
      rw [OrdMap.get?_eq_some, ← (Prod.mk.inj hpair).1]
      exact hi1
    have hq : phases.get? q = some i2.2 := by
      rw [OrdMap.get?_eq_some, ← (Prod.mk.inj hpair).2]
      exact hi2
    rw [hp, hq, ← hd]
    rfl

/-- Where the distance does not depend on the order of the phases, `calcDistanceMatrix`
makes a matrix as `clusterPhases` needs it. -/
theorem distMatrix_isMatrix (hsymm : ∀ x y, featureDistance A x y = featureDistance A y x)
    (phases : Phases V) : IsMatrix (distMatrix A phases) phases.keys := by
  constructor
  · intro p q
    rw [distance?_distMatrix, OrdMap.mem_keys, OrdMap.mem_keys]
    cases phases.get? p <;> cases phases.get? q <;> simp
  · intro p q
    rw [distance?_distMatrix, distance?_distMatrix]
    cases phases.get? p <;> cases phases.get? q <;> simp [hsymm]

section Simulation

def labelOf (clusterID : ℤ) : Density.Label :=
  if clusterID = unclassified then .unclassified
  else if clusterID = noise then .noise
  else .cluster clusterID.toNat

theorem labelOf_natCast (n : ℕ) : labelOf n = .cluster n := by
  rw [labelOf, if_neg (by simp [unclassified]), if_neg (by simp [noise])]
  rfl

theorem labelOf_eq_noise {z : ℤ} : labelOf z = .noise ↔ z = noise := by
  rw [labelOf]
  split_ifs with hu hn
  · simp [hu, unclassified, noise]
  · simp [hn]
  · simp [hn]

theorem labelOf_eq_cluster {z : ℤ} {k : ℕ} (hk : 1 ≤ k) : labelOf z = .cluster k ↔ z = k := by
  constructor
  · intro h
    rw [labelOf] at h
    split_ifs at h
    have htoNat : z.toNat = k := Density.Label.cluster.inj h
    omega
  · intro h
    rw [h, labelOf_natCast]

/-- What the phases keep of the clustering. -/
def marks (phases : Phases V) : Density.Marks ℕ where
  visited p := (phases.get? p).any PhaseInfo.visited
  label p := ((phases.get? p).map fun x => labelOf x.clusterID).getD .unclassified

theorem visited_marks {phases : Phases V} {p : ℕ} {x : PhaseInfo V} (h : phases.get? p = some x) :
    (marks phases).visited p = x.visited := by
  simp [marks, h]

theorem label_marks {phases : Phases V} {p : ℕ} {x : PhaseInfo V} (h : phases.get? p = some x) :
    (marks phases).label p = labelOf x.clusterID := by
  simp [marks, h]

theorem marks_set (phases : Phases V) (k : ℕ) (x : PhaseInfo V) :
    marks (phases.set k x) = ⟨Function.update (marks phases).visited k x.visited,
      Function.update (marks phases).label k (labelOf x.clusterID)⟩ := by
  ext p
  · simp only [marks, OrdMap.get?_set, Function.update_apply]
    split_ifs <;> rfl
  · simp only [marks, OrdMap.get?_set, Function.update_apply]
    split_ifs <;> rfl

/-- All phases are there, and those that have not been visited have no neighbours yet. -/
structure Ready (keys : List ℕ) (phases : Phases V) : Prop where
  mem : ∀ p, p ∈ keys ↔ ∃ x, phases.get? p = some x
  fresh : ∀ p x, phases.get? p = some x → x.visited = false → x.neighbors = []

theorem Ready.set {keys : List ℕ} {phases : Phases V} (h : Ready keys phases) {p : ℕ}
    {x : PhaseInfo V} (hp : p ∈ keys) (hx : x.visited) : Ready keys (phases.set p x) where
  mem q := by
    rw [OrdMap.get?_set]
    split_ifs with hq
    · simp [hq, hp]
    · exact h.mem q
  fresh q y hy hv := by
    rw [OrdMap.get?_set] at hy
    split_ifs at hy with hq
    · rw [← Option.some.inj hy, hx] at hv
      exact absurd hv (by simp)
    · exact h.fresh q y hy hv

variable {A} {keys : List ℕ} {dist : DistMatrix V} {eps : V} {phases : Phases V}

theorem set_set (p : ℕ) (x y : PhaseInfo V) : (phases.set p x).set p y = phases.set p y := by
  apply OrdMap.ext_get?
  intro q
  simp only [OrdMap.get?_set]
  split_ifs <;> rfl

/-- The first visit of a phase finds its neighbours. -/
theorem checkDistance_visit {p : ℕ} {x : PhaseInfo V} (hfresh : x.neighbors = []) :
    checkDistance A p dist eps (phases.set p { x with visited := true }) =
      .ok (withinEps A dist eps p,
        phases.set p { x with visited := true, neighbors := withinEps A dist eps p }) := by
  rw [checkDistance, OrdMap.get?_set, if_pos rfl]
  simp [Outcome.found, hfresh, set_set]

/-- A phase that keeps its flag and its cluster leaves the marks as they are. -/
theorem marks_set_of_same {p : ℕ} {x x' : PhaseInfo V} (hx : phases.get? p = some x)
    (hv : x'.visited = x.visited) (hc : x'.clusterID = x.clusterID) :
    marks (phases.set p x') = marks phases := by
  rw [marks_set, hv, hc, ← visited_marks hx, ← label_marks hx, Function.update_eq_self,
    Function.update_eq_self]

theorem marks_visit_of_visited {p : ℕ} {x : PhaseInfo V} (hx : phases.get? p = some x)
    (hv : x.visited) : (marks phases).visit p = marks phases := by
  have hself := visited_marks hx
  rw [hv] at hself
  rw [Density.Marks.visit, ← hself, Function.update_eq_self]

theorem marks_set_visited {p : ℕ} {x x' : PhaseInfo V} (hx : phases.get? p = some x)
    (hv : x'.visited) (hc : x'.clusterID = x.clusterID) :
    marks (phases.set p x') = (marks phases).visit p := by
  rw [marks_set, hv, hc, ← label_marks hx, Function.update_eq_self, Density.Marks.visit]

theorem Ready.visitPoint (h : Ready keys phases) {input next : ℕ} {x : PhaseInfo V}
    (hx : phases.get? input = some x) (hvisited : x.visited) (hnext : next ∈ keys) :
    ∃ phases', Interphase.visitPoint A dist eps input next phases = .ok phases' ∧
      Ready keys phases' ∧ marks phases' = (marks phases).visit next ∧
      ∃ x', phases'.get? input = some x' ∧ x'.visited ∧ x'.neighbors = x.neighbors ++
        Density.gained (withinEps A dist eps) minPoints (marks phases) next := by
  obtain ⟨y, hy⟩ := (h.mem next).mp hnext
  have hinput : input ∈ keys := (h.mem input).mpr ⟨x, hx⟩
  rw [Interphase.visitPoint, hy]
  simp only [Outcome.found, Outcome.ok_bind]
  cases hv : y.visited with
  | true =>
    refine ⟨phases, rfl, h, (marks_visit_of_visited hy hv).symm, x, hx, hvisited, ?_⟩
    simp [Density.gained, visited_marks hy, hv]
  | false =>
    have hne : input ≠ next := by
      intro heq
      rw [heq, hy] at hx
      rw [← Option.some.inj hx, hv] at hvisited
      exact absurd hvisited (by simp)
    -- the phase with its flag and its neighbours
    obtain ⟨y', hy'⟩ : ∃ y', y' = { y with
      visited := true, neighbors := withinEps A dist eps next } := ⟨_, rfl⟩
    have hvy' : y'.visited := by rw [hy']
    have hcheck : checkDistance A next dist eps (phases.set next { y with visited := true }) =
        .ok (withinEps A dist eps next, phases.set next y') := by
      rw [checkDistance_visit (h.fresh next y hy hv), hy']
    have hready := h.set hnext hvy'
    have hmarks : marks (phases.set next y') = (marks phases).visit next :=
      marks_set_visited hy hvy' (by rw [hy'])
    have hget : (phases.set next y').get? input = some x := by
      rw [OrdMap.get?_set_ne _ _ hne, hx]
    simp only [Bool.false_eq_true, if_false, hcheck, Outcome.ok_bind]
    have hv' : (marks phases).visited next = false := (visited_marks hy).trans hv
    by_cases hcore : minPoints ≤ (withinEps A dist eps next).length
    · obtain ⟨x', hx'⟩ : ∃ x', x' = { x with
        neighbors := x.neighbors ++ withinEps A dist eps next } := ⟨_, rfl⟩
      have hvx' : x'.visited := by rw [hx', hvisited]
      rw [if_pos hcore, hget]
      refine ⟨(phases.set next y').set input x', by rw [hx']; rfl, hready.set hinput hvx', ?_, x',
        by rw [OrdMap.get?_set, if_pos rfl], hvx', ?_⟩
      · rw [marks_set_of_same hget (by rw [hx']) (by rw [hx']), hmarks]
      · rw [Density.gained, if_pos ⟨hv', hcore⟩, hx']
    · rw [if_neg hcore]
      refine ⟨_, rfl, hready, hmarks, x, hget, hvisited, ?_⟩
      rw [Density.gained, if_neg (fun hboth => hcore hboth.2), List.append_nil]

theorem claim_labelOf (n : ℕ) (z : ℤ) :
    (labelOf z).claim n = if z = unclassified ∨ z = noise then .cluster n else labelOf z := by
  rw [labelOf]
  split_ifs <;> simp_all

theorem Ready.claimPoint (h : Ready keys phases) (n : ℕ) {next : ℕ} {y : PhaseInfo V}
    (hy : phases.get? next = some y) (hvisited : y.visited) :
    ∃ phases', Interphase.claimPoint n next phases = .ok phases' ∧ Ready keys phases' ∧
      marks phases' = (marks phases).claim n next ∧
      ∀ p x, phases.get? p = some x → ∃ x', phases'.get? p = some x' ∧
        x'.visited = x.visited ∧ x'.neighbors = x.neighbors := by
  have hnext : next ∈ keys := (h.mem next).mpr ⟨y, hy⟩
  have hclaim := claim_labelOf n y.clusterID
  rw [Interphase.claimPoint, hy]
  simp only [Outcome.found, Outcome.ok_bind]
  by_cases hopen : y.clusterID = unclassified ∨ y.clusterID = noise
  · rw [if_pos hopen]
    refine ⟨_, rfl, h.set hnext hvisited, ?_, fun p x hx => ?_⟩
    · rw [marks_set, Density.Marks.claim, label_marks hy, hclaim, if_pos hopen, labelOf_natCast,
        ← visited_marks hy, Function.update_eq_self, Density.Marks.assign]
    · rw [OrdMap.get?_set]
      split_ifs with hp
      · rw [hp, hy] at hx
        rw [← Option.some.inj hx]
        exact ⟨_, rfl, rfl, rfl⟩
      · exact ⟨x, hx, rfl, rfl⟩
  · rw [if_neg hopen]
    refine ⟨_, rfl, h, ?_, fun p x hx => ⟨x, hx, rfl, rfl⟩⟩
    rw [Density.Marks.claim, label_marks hy, hclaim, if_neg hopen, ← label_marks hy,
      Density.Marks.assign, Function.update_eq_self]

/-- A round of the loop is a step along the list. -/
theorem Ready.expandRound (h : Ready keys phases) (n : ℕ) {input i q : ℕ} {rest : List ℕ}
    {x : PhaseInfo V} (hx : phases.get? input = some x) (hvisited : x.visited)
    (hlist : x.neighbors.drop i = q :: rest) (hq : q ∈ keys) :
    ∃ phases', Interphase.expandRound A dist eps n input (i, phases) = .ok (i + 1, phases') ∧
      Ready keys phases' ∧ marks phases' = ((marks phases).visit q).claim n q ∧
      ∃ x', phases'.get? input = some x' ∧ x'.visited ∧ x'.neighbors.drop (i + 1) =
        rest ++ Density.gained (withinEps A dist eps) minPoints (marks phases) q := by
  have hlt : i < x.neighbors.length := by
    by_contra hge
    rw [List.drop_eq_nil_of_le (by omega)] at hlist
    exact absurd hlist (by simp)
  have hget : x.neighbors[i] = q ∧ x.neighbors.drop (i + 1) = rest := by
    rw [List.drop_eq_getElem_cons hlt] at hlist
    exact List.cons.inj hlist
  obtain ⟨phases₁, hvisit, hready, hmarks, x₁, hx₁, hvisited₁, hneighbors⟩ :=
    @Ready.visitPoint V A keys dist eps phases h input q x hx hvisited hq
  obtain ⟨y, hy⟩ := (hready.mem q).mp hq
  have hyv : y.visited := by
    rw [← visited_marks hy, hmarks, Density.Marks.visited_visit, if_pos rfl]
  obtain ⟨phases', hclaim, hready', hmarks', hkept⟩ := hready.claimPoint n hy hyv
  obtain ⟨x', hx', hvisited', hneighbors'⟩ := hkept input x₁ hx₁
  refine ⟨phases', ?_, hready', by rw [hmarks', hmarks], x', hx', by rw [hvisited', hvisited₁], ?_⟩
  · rw [Interphase.expandRound, hx]
    simp only [Outcome.found, Outcome.ok_bind, Outcome.elementAt_natCast hlt, hget.1, hvisit,
      hclaim, Outcome.pure_eq]
  · rw [hneighbors', hneighbors, List.drop_append_of_le_length (by omega), hget.2]

theorem mem_withinEps {p q : ℕ} : q ∈ withinEps A dist eps p ↔ near A dist eps p q := by
  simp only [withinEps, List.mem_map, List.mem_filter, near, distance?, Bool.and_eq_true,
    decide_eq_true_eq, Option.any_eq_true]
  constructor
  · rintro ⟨⟨k, d⟩, ⟨hmem, ⟨hp, hle⟩, hne⟩, rfl⟩
    refine ⟨fun heq => hne (heq ▸ rfl), d, ?_, hle⟩
    rw [OrdMap.get?_eq_some, ← hp]
    exact hmem
  · rintro ⟨hne, d, hget, hle⟩
    exact ⟨(toLex (p, q), d), ⟨OrdMap.get?_eq_some.mp hget, ⟨rfl, hle⟩, fun heq => hne heq.symm⟩, rfl⟩

theorem nodup_withinEps (p : ℕ) : (withinEps A dist eps p).Nodup := by
  have hkeys : (dist.entries.map Prod.fst).Nodup := dist.keys_nodup
  rw [withinEps]
  apply List.Nodup.map_on
  · intro d hd e he hsecond
    have hfirst : (ofLex d.1).1 = (ofLex e.1).1 := by
      simp only [List.mem_filter, Bool.and_eq_true, decide_eq_true_eq] at hd he
      rw [hd.2.1.1, he.2.1.1]
    have hkey : d.1 = e.1 := ofLex.injective (Prod.ext hfirst hsecond)
    exact List.inj_on_of_nodup_map hkeys (List.mem_of_mem_filter hd) (List.mem_of_mem_filter he) hkey
  · exact (List.Nodup.of_map _ hkeys).filter _

theorem IsMatrix.mem_of_near (h : IsMatrix dist keys) {p q : ℕ} (hnear : near A dist eps p q) :
    q ∈ keys := by
  simp only [near, Bool.and_eq_true, Option.any_eq_true] at hnear
  obtain ⟨-, d, hd, -⟩ := hnear
  exact ((h.total p q).mp ⟨d, hd⟩).2

/-- In a distance matrix the neighbours are the phases that are near. -/
theorem IsMatrix.withinEps_perm (h : IsMatrix dist keys) (hkeys : keys.Nodup) (p : ℕ) :
    (withinEps A dist eps p).Perm (keys.filter (near A dist eps p)) := by
  rw [List.perm_ext_iff_of_nodup (nodup_withinEps p) (hkeys.filter _)]
  intro q
  rw [mem_withinEps, List.mem_filter]
  constructor
  · exact fun hnear => ⟨h.mem_of_near hnear, hnear⟩
  · exact And.right

theorem near_symm (h : IsMatrix dist keys) (p q : ℕ) :
    near A dist eps p q = near A dist eps q p := by
  rw [near, near, h.symm p q]
  simp only [ne_comm]

/-- The rounds of the loop walk the list to its end. -/
theorem Ready.expand (hinside : ∀ p, ∀ q ∈ withinEps A dist eps p, q ∈ keys) (n input : ℕ) :
    ∀ (rounds i : ℕ) (pending : List ℕ) (phases : Phases V) (x : PhaseInfo V)
      (m : Density.Marks ℕ), Ready keys phases → phases.get? input = some x → x.visited →
      x.neighbors.drop i = pending → (∀ q ∈ pending, q ∈ keys) →
      Density.expand (withinEps A dist eps) minPoints n rounds pending (marks phases) = some m →
      ∃ i' phases', Outcome.whileLoop (neighborsLeft input) (Interphase.expandRound A dist eps n input)
          rounds (i, phases) = .ok (i', phases') ∧ Ready keys phases' ∧ marks phases' = m := by
  intro rounds
  induction rounds with
  | zero =>
    intro i pending phases x m h hx hvisited hlist hpending hrun
    cases pending with
    | nil =>
      have hdone : neighborsLeft input (i, phases) = false := by
        simpa [neighborsLeft, hx] using hlist
      rw [Outcome.whileLoop, hdone]
      exact ⟨i, phases, rfl, h, by simpa [Density.expand] using hrun⟩
    | cons q rest => simp [Density.expand] at hrun
  | succ rounds ih =>
    intro i pending phases x m h hx hvisited hlist hpending hrun
    cases pending with
    | nil =>
      have hdone : neighborsLeft input (i, phases) = false := by
        simpa [neighborsLeft, hx] using hlist
      rw [Outcome.whileLoop, hdone]
      exact ⟨i, phases, rfl, h, by simpa [Density.expand] using hrun⟩
    | cons q rest =>
      have hleft : neighborsLeft input (i, phases) = true := by
        by_contra hdone
        have hnil : x.neighbors.drop i = [] := by simpa [neighborsLeft, hx] using hdone
        simp [hnil] at hlist
      obtain ⟨phases₁, hround, hready, hmarks, x₁, hx₁, hvisited₁, hlist₁⟩ :=
        h.expandRound n hx hvisited hlist (hpending q List.mem_cons_self)
      have hpending₁ : ∀ p ∈ rest ++
          Density.gained (withinEps A dist eps) minPoints (marks phases) q, p ∈ keys := by
        intro p hp
        cases List.mem_append.mp hp with
        | inl hrest => exact hpending p (List.mem_cons_of_mem q hrest)
        | inr hgained => exact hinside q p (Density.mem_gained hgained).2.2
      rw [Density.expand, ← hmarks] at hrun
      obtain ⟨i', phases', hloop, hready', hmarks'⟩ :=
        ih (i + 1) _ phases₁ x₁ m hready hx₁ hvisited₁ hlist₁ hpending₁ hrun
      refine ⟨i', phases', ?_, hready', hmarks'⟩
      rw [Outcome.whileLoop, hleft, hround]
      exact hloop

/-- A phase of the outer loop is a point of the algorithm. -/
theorem Ready.clusterPhase (h : Ready keys phases)
    (hinside : ∀ p, ∀ q ∈ withinEps A dist eps p, q ∈ keys) {rounds c input : ℕ}
    (hinput : input ∈ keys) {s : ℕ × Density.Marks ℕ}
    (hrun : Density.scanPoint (withinEps A dist eps) minPoints rounds (c, marks phases) input =
      some s) :
    ∃ phases', Interphase.clusterPhase A rounds dist eps ((c : ℤ), phases) input =
        .ok ((s.1 : ℤ), phases') ∧ Ready keys phases' ∧ marks phases' = s.2 := by
  obtain ⟨x, hx⟩ := (h.mem input).mp hinput
  rw [Interphase.clusterPhase, hx]
  simp only [Outcome.found, Outcome.ok_bind]
  rw [Density.scanPoint, visited_marks hx] at hrun
  cases hv : x.visited with
  | true =>
    rw [hv, if_pos rfl] at hrun
    rw [← Option.some.inj hrun]
    exact ⟨phases, rfl, h, rfl⟩
  | false =>
    obtain ⟨x', hx'⟩ : ∃ x', x' = { x with
      visited := true, neighbors := withinEps A dist eps input } := ⟨_, rfl⟩
    have hvx' : x'.visited := by rw [hx']
    have hcheck : checkDistance A input dist eps (phases.set input { x with visited := true }) =
        .ok (withinEps A dist eps input, phases.set input x') := by
      rw [checkDistance_visit (h.fresh input x hx hv), hx']
    have hready := h.set hinput hvx'
    have hmarks : marks (phases.set input x') = (marks phases).visit input :=
      marks_set_visited hx hvx' (by rw [hx'])
    have hget : (phases.set input x').get? input = some x' := by rw [OrdMap.get?_set, if_pos rfl]
    have hassign : ∀ z : ℤ, marks ((phases.set input x').set input { x' with clusterID := z }) =
        ((marks phases).visit input).assign input (labelOf z) := by
      intro z
      rw [marks_set, ← hmarks, ← visited_marks hget, Function.update_eq_self,
        Density.Marks.assign]
    have hkept : ∀ z : ℤ, Ready keys ((phases.set input x').set input { x' with clusterID := z }) :=
      fun z => hready.set hinput hvx'
    simp only [hv, Bool.false_eq_true, if_false] at hrun ⊢
    simp only [hcheck, Outcome.ok_bind]
    by_cases hcore : minPoints ≤ (withinEps A dist eps input).length
    · rw [if_pos (show Density.Core _ _ _ from hcore), ← labelOf_natCast, ← hassign] at hrun
      obtain ⟨m, hm, hs⟩ := Option.map_eq_some_iff.mp hrun
      obtain ⟨i', phases', hloop, hready', hmarks'⟩ :=
        Ready.expand hinside c input rounds 0 (withinEps A dist eps input) _
          { x' with clusterID := (c : ℤ) } m (hkept c) (by rw [OrdMap.get?_set, if_pos rfl]) hvx'
          (by rw [hx']; rfl) (hinside input) hm
      rw [if_pos hcore, expandCluster, hget]
      simp only [Outcome.found, Outcome.ok_bind, hloop, Outcome.pure_eq]
      rw [← hs]
      exact ⟨phases', by simp, hready', hmarks'⟩
    · rw [if_neg (show ¬ Density.Core _ _ _ from hcore)] at hrun
      have hnoise : labelOf noise = .noise := labelOf_eq_noise.mpr rfl
      rw [if_neg hcore, hget, ← Option.some.inj hrun]
      exact ⟨_, rfl, hkept noise, by rw [hassign, hnoise]⟩

theorem Ready.clusterPhases (hinside : ∀ p, ∀ q ∈ withinEps A dist eps p, q ∈ keys)
    {rounds : ℕ} (order : List ℕ) (horder : ∀ p ∈ order, p ∈ keys) :
    ∀ {c : ℕ} {phases : Phases V} {s : ℕ × Density.Marks ℕ}, Ready keys phases →
      Density.scan (withinEps A dist eps) minPoints rounds order (c, marks phases) = some s →
      ∃ phases', order.foldlM (Interphase.clusterPhase A rounds dist eps) ((c : ℤ), phases) =
        .ok ((s.1 : ℤ), phases') ∧ Ready keys phases' ∧ marks phases' = s.2 := by
  induction order with
  | nil =>
    intro c phases s h hrun
    rw [Density.scan, List.foldlM_nil] at hrun
    rw [← Option.some.inj hrun]
    exact ⟨phases, rfl, h, rfl⟩
  | cons input order ih =>
    intro c phases s h hrun
    rw [Density.scan, List.foldlM_cons, Option.bind_eq_bind, Option.bind_eq_some_iff] at hrun
    obtain ⟨⟨c₁, m₁⟩, hpoint, hrest⟩ := hrun
    obtain ⟨phases₁, hphase, hready, hmarks⟩ :=
      h.clusterPhase hinside (horder input List.mem_cons_self) hpoint
    simp only at hphase hmarks
    rw [← hmarks] at hrest
    obtain ⟨phases', hloop, hready', hmarks'⟩ :=
      ih (fun p hp => horder p (List.mem_cons_of_mem input hp)) hready hrest
    refine ⟨phases', ?_, hready', hmarks'⟩
    rw [List.foldlM_cons, hphase]
    exact hloop

/-- The marks of a clustering by density are the clusters of the phases. -/
theorem isDbscan_of_marks (hmatrix : IsMatrix dist keys) (hnodup : keys.Nodup)
    (hready : Ready keys phases) (hkeys : phases.keys = keys) {n : ℕ}
    (h : Density.IsClustering (withinEps A dist eps) minPoints keys.toFinset
      (marks phases).label n) : IsDbscan A keys dist eps phases n := by
  have hcore : ∀ p, IsCore A keys dist eps p ↔
      Density.Core (withinEps A dist eps) minPoints p := by
    intro p
    rw [IsCore, Density.Core, (hmatrix.withinEps_perm hnodup p).length_eq]
  have hmem : ∀ {p x}, phases.get? p = some x → p ∈ keys.toFinset := by
    intro p x hx
    rw [List.mem_toFinset, hready.mem]
    exact ⟨x, hx⟩
  have hrange : ∀ {p x}, phases.get? p = some x → ∀ {k}, (marks phases).label p = .cluster k →
      1 ≤ k ∧ x.clusterID = k := by
    intro p x hx k hk
    have hk1 := ((h.ids k).mp ⟨p, hmem hx, hk⟩).1
    rw [label_marks hx, labelOf_eq_cluster hk1] at hk
    exact ⟨hk1, hk⟩
  have hchain : CoreChain A keys dist eps = Density.Linked (withinEps A dist eps) minPoints := by
    rw [CoreChain, Density.Linked]
    congr 1
    ext p q
    rw [hcore, hcore, mem_withinEps]
  constructor
  · exact hkeys
  · intro p x hx hp
    obtain ⟨k, hk⟩ := h.core p (hmem hx) ((hcore p).mp hp)
    have hid := hrange hx hk
    omega
  · intro p x q y hx hy hp hq
    obtain ⟨k, hk⟩ := h.core p (hmem hx) ((hcore p).mp hp)
    obtain ⟨j, hj⟩ := h.core q (hmem hy) ((hcore q).mp hq)
    have hlink := h.same p (hmem hx) q (hmem hy) ((hcore p).mp hp) ((hcore q).mp hq)
    rw [hk, hj, Density.Label.cluster.injEq] at hlink
    rw [(hrange hx hk).2, (hrange hy hj).2, Nat.cast_inj, hlink, hchain]
  · intro p x hx
    have hnoise := h.noise p (hmem hx)
    rw [label_marks hx, labelOf_eq_noise] at hnoise
    rw [hnoise, hcore]
    apply and_congr_right
    intro
    constructor
    · intro hfar q hq hnear
      rw [hcore]
      exact hfar q (mem_withinEps.mpr hnear)
    · intro hfar q hq
      rw [← hcore]
      have hnear := hmatrix.mem_of_near (mem_withinEps.mp hq)
      exact hfar q hnear (mem_withinEps.mp hq)
  · intro p x hx hp hout
    have hlabel : (marks phases).label p ≠ .noise := by
      rwa [label_marks hx, Ne, labelOf_eq_noise]
    obtain ⟨q, hq, hqc, hsame, k, hk⟩ := h.border p (hmem hx) (fun hc => hp ((hcore p).mpr hc)) hlabel
    have hqk := mem_withinEps.mp hq
    obtain ⟨y, hy⟩ := (hready.mem q).mp (hmatrix.mem_of_near hqk)
    have hxk := hrange hx hk
    have hyk := hrange hy (hsame ▸ hk)
    exact ⟨q, y, hy, (hcore q).mpr hqc, hqk, by omega, by rw [hxk.2, hyk.2]⟩
  · intro k hk
    constructor
    · rintro ⟨p, x, hx, hxk⟩
      have hout : (marks phases).label p ≠ .noise := by
        rw [label_marks hx, Ne, labelOf_eq_noise, hxk]
        exact hk
      obtain ⟨j, hj⟩ := h.settled (hmem hx) hout
      have hjn := (h.ids j).mp ⟨p, hmem hx, hj⟩
      have hxj := (hrange hx hj).2
      omega
    · rintro ⟨hk1, hkn⟩
      obtain ⟨p, hp, hpk⟩ := (h.ids k.toNat).mpr ⟨by omega, by omega⟩
      obtain ⟨x, hx⟩ := (hready.mem p).mp (List.mem_toFinset.mp hp)
      have hxk := (hrange hx hpk).2
      exact ⟨p, x, hx, by omega⟩

/-- The sum of all neighbours bounds the rounds of every loop. -/
theorem IsMatrix.neighbors_le (hmatrix : IsMatrix dist keys) (hnodup : keys.Nodup) :
    ∑ p ∈ keys.toFinset, (withinEps A dist eps p).length ≤ keys.length ^ 2 := by
  have hone : ∀ p ∈ keys.toFinset, (withinEps A dist eps p).length ≤ keys.length := by
    intro p _
    rw [(hmatrix.withinEps_perm hnodup p).length_eq]
    exact List.length_filter_le _ _
  calc ∑ p ∈ keys.toFinset, (withinEps A dist eps p).length
      ≤ keys.toFinset.card • keys.length := Finset.sum_le_card_nsmul _ _ _ hone
    _ = keys.length ^ 2 := by
      rw [List.toFinset_card_of_nodup hnodup, smul_eq_mul, pow_two]

end Simulation

/-- A map of phases as `clusterPhases` gets it: at least one, all unvisited and unclassified. -/
structure IsUnclustered (phases : Phases V) : Prop where
  nonempty : phases.entries ≠ []
  fresh : ∀ p x, phases.get? p = some x →
    x.visited = false ∧ x.clusterID = unclassified ∧ x.neighbors = []

/-- For every radius, the phases are clustered by density: the loops end after as many
rounds as there are pairs of phases. -/
theorem clusterPhases_isDbscan (order : Traversal (ℕ × V)) (kNeighDist : List (ℕ × V)) (eps : V)
    (dist : DistMatrix V) (phases : Phases V) (rounds : ℕ)
    (heps : calculateEps A order kNeighDist = .ok eps) (hphases : IsUnclustered phases)
    (hmatrix : IsMatrix dist phases.keys) (hrounds : phases.keys.length ^ 2 ≤ rounds) :
    ∃ (n : ℕ) (phases' : Phases V),
      clusterPhases A rounds order kNeighDist dist phases = .ok ((n : ℤ) + 1, phases') ∧
        IsDbscan A phases.keys dist eps phases' n := by
  have hnodup := phases.keys_nodup
  have hready : Ready phases.keys phases := by
    constructor
    · exact fun p => OrdMap.mem_keys
    · exact fun p x hx _ => (hphases.fresh p x hx).2.2
  have hsymm : ∀ p q, q ∈ withinEps A dist eps p → p ∈ withinEps A dist eps q := by
    intro p q hq
    rw [mem_withinEps] at hq ⊢
    rwa [near_symm hmatrix]
  have hinside : ∀ p, ∀ q ∈ withinEps A dist eps p, q ∈ phases.keys :=
    fun p q hq => hmatrix.mem_of_near (mem_withinEps.mp hq)
  have hstart : Density.Grown (withinEps A dist eps) minPoints phases.keys.toFinset 0 []
      (marks phases) := by
    apply Density.Grown.start
    · intro p
      cases hp : phases.get? p with
      | none => simp [marks, hp]
      | some x => rw [visited_marks hp, (hphases.fresh p x hp).1]
    · intro p
      cases hp : phases.get? p with
      | none => simp [marks, hp]
      | some x => rw [label_marks hp, (hphases.fresh p x hp).2.1]; rfl
  obtain ⟨n, m, hscan, hgrown, hall, -⟩ := hstart.scan hsymm
    (fun p q hq => List.mem_toFinset.mpr (hinside p q hq))
    ((hmatrix.neighbors_le hnodup).trans hrounds) phases.keys
    (fun p hp => List.mem_toFinset.mpr hp)
  obtain ⟨phases', hrun, hready', hmarks⟩ := Ready.clusterPhases hinside phases.keys
    (fun p hp => hp) hready hscan
  refine ⟨n, phases', ?_, ?_⟩
  · rw [Interphase.clusterPhases, if_neg hphases.nonempty, heps]
    simpa using hrun
  · apply isDbscan_of_marks hmatrix hnodup hready'
    · apply OrdMap.keys_eq
      intro p
      rw [OrdMap.mem_keys, ← hready'.mem]
    · rw [hmarks]
      exact hgrown.isClustering hsymm (fun p q hq => List.mem_toFinset.mpr (hinside p q hq))
        fun p hp => hall p (List.mem_toFinset.mp hp)

/-- A phase whose features are this number, twice. -/
def plainPhase {V : Type} (v : V) : PhaseInfo V where
  scenarioID := 0
  scenarioConfig := .empty
  phaseIdentifiers := .empty
  objValues := .empty
  normalizedObj := .empty
  normalizedFeatures := (v, v)
  visited := false
  neighbors := []
  clusterID := unclassified
  defaultPhaseIdentifiers := .empty
  defaultObjValues := .empty
  rtsInfo := []

/-- Four phases that lie close together and one that does not. -/
def fivePhases : Phases ℚ :=
  .ofList [(1, plainPhase 0), (2, plainPhase 1), (3, plainPhase 2), (4, plainPhase 1),
    (5, plainPhase 50)]

theorem fivePhases_isDbscan :
    (calculateEps ratDoubles .inserted [(1, 3)] = .ok 3 ∧ IsUnclustered fivePhases ∧
      IsMatrix (distMatrix ratDoubles fivePhases) fivePhases.keys ∧
      fivePhases.keys.length ^ 2 ≤ 25) ∧
    ∃ (n : ℕ) (phases' : Phases ℚ),
      clusterPhases ratDoubles 25 .inserted [(1, 3)] (distMatrix ratDoubles fivePhases) fivePhases =
          .ok ((n : ℤ) + 1, phases') ∧
        IsDbscan ratDoubles fivePhases.keys (distMatrix ratDoubles fivePhases) 3 phases' n := by
  have heps : calculateEps ratDoubles .inserted [(1, 3)] = .ok 3 := by decide +kernel
  have hfive : IsUnclustered fivePhases := by
    constructor
    · decide
    · intro p x hx
      rw [OrdMap.get?_eq_some] at hx
      have hall : ∀ e ∈ fivePhases.entries, e.2.visited = false ∧ e.2.clusterID = unclassified ∧
          e.2.neighbors = [] := by decide
      exact hall _ hx
  have hmatrix : IsMatrix (distMatrix ratDoubles fivePhases) fivePhases.keys := by
    apply distMatrix_isMatrix
    intro x y
    have hsquare : ∀ a b : ℚ, (a - b) * (a - b) = (b - a) * (b - a) := fun a b => by ring
    simp only [featureDistance, ratDoubles, Autotune.ratArith]
    rw [hsquare y.normalizedFeatures.2, hsquare y.normalizedFeatures.1]
  have hrounds : fivePhases.keys.length ^ 2 ≤ 25 := by decide
  exact ⟨⟨heps, hfive, hmatrix, hrounds⟩,
    clusterPhases_isDbscan ratDoubles .inserted [(1, 3)] 3 _ fivePhases 25 heps hfive hmatrix hrounds⟩

end ReadexPtf.Interphase
