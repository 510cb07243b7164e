import ReadexPtf.Cluster.CutRuns
import ReadexPtf.Lib.Dbl
import Mathlib

/-! The Calinski-Harabasz index of some clusters: their variation between each other and within
each of them. -/
namespace ReadexPtf.Cluster
open ReadexPtf

/-- The vectors of the configurations, which have the same tuning parameters, and the distance of
vectors that the clusterer is given. -/
structure Vectors (ρ V : Type) [Zero V] [LE V] where
  to_vector : ρ → List V
  dimension : ℕ
  length : ∀ rts, (to_vector rts).length = dimension
  vector_d : List V → List V → V
  self : ∀ v, vector_d v v = 0
  symm : ∀ v w, vector_d v w = vector_d w v
  nonneg : ∀ v w, 0 ≤ vector_d v w

section Model
variable {ρ V : Type} [DecidableEq ρ] [Field V] [LinearOrder V]

def Vectors.between (vs : Vectors ρ V) : VectorDistance ρ V where
  between a b := vs.vector_d (vs.to_vector a) (vs.to_vector b)
  symm _ _ := vs.symm _ _
  nonneg _ _ := vs.nonneg _ _

/-- Division of numbers that are finite. -/
def quotient (x y : V) : Dbl V :=
  if y ≠ 0 then .fin (x / y) else if 0 < x then .posInf else if x < 0 then .negInf else .nan

/-- `operator+` with its assertion. -/
def addVectors (v1 v2 : List V) : Outcome (List V) :=
  if v1.length = v2.length then .ok (List.zipWith (· + ·) v1 v2) else .aborts

/-- `rts()` of a leaf. -/
def Node.rts : Node ρ V → Outcome ρ
  | .leaf rts => .ok rts
  | .branch _ _ _ => .undefined

variable (vs : Vectors ρ V) (mem : Memory (Node ρ V) V)

def elementVector (element : Node ρ V) : Outcome (List V) := do
  let rts ← element.rts
  return vs.to_vector rts

/-- The mean of the vectors of some elements, in the order they have. -/
def averageOf (elements : List (Node ρ V)) : Outcome (List V) :=
  match elements with
  | [] => .undefined
  | first :: rest => do
    let v ← elementVector vs first
    let v ← rest.foldlM (fun v element => do
      let w ← elementVector vs element
      addVectors v w) v
    return v.map (· * (1 / (elements.length : V)))

/-- `average` of a cluster. -/
def average (cluster : Node ρ V) : Outcome (List V) :=
  averageOf vs (mem.nodes.order (leaves cluster))

/-- `average` of all clusters. -/
def overallAverage (clusters : List (Node ρ V)) : Outcome (List V) :=
  averageOf vs (mem.nodes.order
    ((mem.nodes.order clusters).foldl (fun elements c => elements ∪ leaves c) []))

/-- The within-cluster variation. -/
def wcv (clusters : List (Node ρ V)) : Outcome V :=
  (mem.nodes.order clusters).foldlM (fun sum c => do
    let avg ← average vs mem c
    (mem.nodes.order (leaves c)).foldlM (fun sum element => do
      let v ← elementVector vs element
      return sum + vs.vector_d v avg * vs.vector_d v avg) sum) 0

/-- The between-cluster variation. -/
def bcv (clusters : List (Node ρ V)) : Outcome V := do
  let overall_avg ← overallAverage vs mem clusters
  (mem.nodes.order clusters).foldlM (fun sum c => do
    let avg ← average vs mem c
    return sum + c.nelements * (vs.vector_d avg overall_avg * vs.vector_d avg overall_avg)) 0

/-- The Calinski and Harabasz index of `K` clusters of `n` elements. -/
def calinskiHarabasz (n K : ℕ) (clusters : List (Node ρ V)) : Outcome (Dbl V) := do
  let b ← bcv vs mem clusters
  let w ← wcv vs mem clusters
  return match quotient w ((n - K : ℕ) : V) with
    | .fin y => quotient (b / ((K - 1 : ℕ) : V)) y
    | .nan => .nan
    | _ => .fin 0

end Model

section Leaves
variable {ρ V : Type} [DecidableEq ρ] [LinearOrder V]

theorem leaf_mem_leaves {n : Node ρ V} {a : ρ} : .leaf a ∈ leaves n ↔ a ∈ n.elements := by
  induction n with
  | leaf b => simp [leaves, Node.elements]
  | branch dist l r ihl ihr =>
    rw [leaves, List.mem_union_iff, ihl, ihr, Node.elements, List.mem_append]

theorem exists_of_mem_leaves {n l : Node ρ V} (h : l ∈ leaves n) : ∃ a, l = .leaf a := by
  induction n with
  | leaf a => exact ⟨a, List.mem_singleton.mp h⟩
  | branch dist left right ihl ihr =>
    rw [leaves, List.mem_union_iff] at h
    exact h.elim ihl ihr

theorem leaves_ne_nil (n : Node ρ V) : leaves n ≠ [] := by
  obtain ⟨a, ha⟩ := List.exists_mem_of_ne_nil _ n.elements_ne_nil
  exact List.ne_nil_of_mem (leaf_mem_leaves.mpr ha)

omit [DecidableEq ρ] [LinearOrder V] in
/-- The whole tree is one cluster. -/
theorem isCut_single (root : Node ρ V) : IsCut root 1 [root] := by
  refine ⟨rfl, fun c hc => ?_, List.pairwise_singleton _ _, fun a => by simp⟩
  rw [List.mem_singleton.mp hc]
  exact root.self_mem_nodes

end Leaves

section Averages
variable {ρ V : Type} [DecidableEq ρ] [Field V] [LinearOrder V] (vs : Vectors ρ V)
  (mem : Memory (Node ρ V) V)

theorem order_ne_nil {α : Type} (t : Traversal α) {l : List α} (h : l ≠ []) : t.order l ≠ [] :=
  fun hnil => h (List.nil_perm.mp (hnil ▸ t.perm l))

theorem order_singleton {α : Type} (t : Traversal α) (a : α) : t.order [a] = [a] :=
  List.perm_singleton.mp (t.perm [a])

omit [DecidableEq ρ] in
/-- The mean of some leaves. -/
theorem averageOf_returns {elements : List (Node ρ V)} (hne : elements ≠ [])
    (hleaves : ∀ l ∈ elements, ∃ a, l = .leaf a) : ∃ v, averageOf vs elements = .ok v := by
  obtain ⟨first, rest, rfl⟩ := List.exists_cons_of_ne_nil hne
  obtain ⟨⟨a, rfl⟩, hrest⟩ := List.forall_mem_cons.mp hleaves
  have hsum : ∀ v : List V, v.length = vs.dimension →
      ∃ v', rest.foldlM (fun v element => do
        let w ← elementVector vs element
        addVectors v w) v = .ok v' ∧ v'.length = vs.dimension := by
    refine Outcome.foldlM_total _ fun v l hl hv => ?_
    obtain ⟨b, rfl⟩ := hrest l hl
    refine ⟨List.zipWith (· + ·) v (vs.to_vector b), ?_, ?_⟩
    · rw [elementVector, Node.rts, Outcome.ok_bind, Outcome.pure_eq, Outcome.ok_bind, addVectors,
        if_pos (hv.trans (vs.length b).symm)]
    · rw [List.length_zipWith, hv, vs.length, min_self]
  obtain ⟨v, hv, -⟩ := hsum (vs.to_vector a) (vs.length a)
  have hfirst : elementVector vs (.leaf a) = .ok (vs.to_vector a) := rfl
  exact ⟨_, by rw [averageOf, hfirst, Outcome.ok_bind, hv, Outcome.ok_bind]; rfl⟩

theorem average_returns (c : Node ρ V) : ∃ v, average vs mem c = .ok v :=
  averageOf_returns vs (order_ne_nil _ (leaves_ne_nil c)) fun _ hl =>
    exists_of_mem_leaves ((mem.nodes.mem_order).mp hl)

theorem average_leaf (a : ρ) : average vs mem (.leaf a) = .ok (vs.to_vector a) := by
  rw [average, leaves, order_singleton, averageOf]
  simp [elementVector, Node.rts]

theorem overallAverage_returns {clusters : List (Node ρ V)} (hne : clusters ≠ []) :
    ∃ v, overallAverage vs mem clusters = .ok v := by
  have hmem : ∀ (cs elements : List (Node ρ V)) (l : Node ρ V),
      l ∈ cs.foldl (fun elements c => elements ∪ leaves c) elements ↔
        l ∈ elements ∨ ∃ c ∈ cs, l ∈ leaves c := by
    intro cs
    induction cs with
    | nil => simp
    | cons c cs ih =>
      intro elements l
      rw [List.foldl_cons, ih, List.mem_union_iff, List.exists_mem_cons_iff, or_assoc]
  obtain ⟨c, hc⟩ := List.exists_mem_of_ne_nil _ hne
  obtain ⟨l, hl⟩ := List.exists_mem_of_ne_nil _ (leaves_ne_nil c)
  refine averageOf_returns vs (order_ne_nil _ (List.ne_nil_of_mem (a := l) ?_)) fun l' hl' => ?_
  · exact (hmem _ _ l).mpr (.inr ⟨c, (mem.nodes.mem_order).mpr hc, hl⟩)
  · rw [Traversal.mem_order, hmem] at hl'
    obtain ⟨c', -, hleaf⟩ := hl'.resolve_left List.not_mem_nil
    exact exists_of_mem_leaves hleaf

/-- The variation of clusters, whatever they are. -/
theorem wcv_returns (clusters : List (Node ρ V)) : ∃ w, wcv vs mem clusters = .ok w := by
  refine Outcome.foldlM_returns (fun sum c _ => ?_) 0
  obtain ⟨avg, havg⟩ := average_returns vs mem c
  rw [havg, Outcome.ok_bind]
  refine Outcome.foldlM_returns (fun sum l hl => ?_) sum
  obtain ⟨a, rfl⟩ := exists_of_mem_leaves ((mem.nodes.mem_order).mp hl)
  exact ⟨_, rfl⟩

theorem bcv_returns {clusters : List (Node ρ V)} (hne : clusters ≠ []) :
    ∃ b, bcv vs mem clusters = .ok b := by
  obtain ⟨overall, hoverall⟩ := overallAverage_returns vs mem hne
  rw [bcv, hoverall, Outcome.ok_bind]
  refine Outcome.foldlM_returns (fun sum c _ => ?_) 0
  obtain ⟨avg, havg⟩ := average_returns vs mem c
  exact ⟨_, by rw [havg, Outcome.ok_bind]; rfl⟩

theorem calinskiHarabasz_returns (n K : ℕ) {clusters : List (Node ρ V)} (hne : clusters ≠ []) :
    ∃ ch, calinskiHarabasz vs mem n K clusters = .ok ch := by
  obtain ⟨b, hb⟩ := bcv_returns vs mem hne
  obtain ⟨w, hw⟩ := wcv_returns vs mem clusters
  exact ⟨_, by rw [calinskiHarabasz, hb, hw]; rfl⟩

/-- Single elements do not vary. -/
theorem wcv_leaves {clusters : List (Node ρ V)} (h : ∀ c ∈ clusters, ∃ a, c = .leaf a) :
    wcv vs mem clusters = .ok 0 := by
  have hstep : ∀ sum : V, ∀ c ∈ mem.nodes.order clusters, (do
      let avg ← average vs mem c
      (mem.nodes.order (leaves c)).foldlM (fun sum element => do
        let v ← elementVector vs element
        return sum + vs.vector_d v avg * vs.vector_d v avg) sum) = Outcome.ok sum := by
    intro sum c hc
    obtain ⟨a, rfl⟩ := h c ((mem.nodes.mem_order).mp hc)
    rw [average_leaf vs mem, leaves, order_singleton]
    simp [elementVector, Node.rts, vs.self]
  rw [wcv, Outcome.foldlM_eq_foldl hstep, List.foldl_fixed]

/-- With as many clusters as elements the index is 0 / 0. -/
theorem calinskiHarabasz_all (n : ℕ) {clusters : List (Node ρ V)} (hne : clusters ≠ [])
    (h : ∀ c ∈ clusters, ∃ a, c = .leaf a) : calinskiHarabasz vs mem n n clusters = .ok .nan := by
  obtain ⟨b, hb⟩ := bcv_returns vs mem hne
  rw [calinskiHarabasz, hb, wcv_leaves vs mem h]
  simp [quotient]

end Averages

section Euclidean

noncomputable def euclidean_distance (v1 v2 : List ℝ) : ℝ :=
  √(List.zipWith (fun x y => (x - y) * (x - y)) v1 v2).sum

/-- The vectors with the distance that the clusterer is called with. -/
noncomputable def Vectors.euclidean {ρ : Type} (to_vector : ρ → List ℝ) (dimension : ℕ)
    (length : ∀ rts, (to_vector rts).length = dimension) : Vectors ρ ℝ where
  to_vector := to_vector
  dimension := dimension
  length := length
  vector_d := euclidean_distance
  self v := by simp [euclidean_distance, List.zipWith_self]
  symm v w := by
    rw [euclidean_distance, euclidean_distance, List.zipWith_comm]
    congr 3
    funext x y
    ring
  nonneg _ _ := Real.sqrt_nonneg _

theorem sum_squares_nonneg (v w : List ℝ) :
    0 ≤ (List.zipWith (fun x y => (x - y) * (x - y)) v w).sum := by
  induction v generalizing w with
  | nil => simp
  | cons x v ih =>
    cases w with
    | nil => simp
    | cons y w =>
      rw [List.zipWith_cons_cons, List.sum_cons]
      exact add_nonneg (mul_self_nonneg _) (ih w)

/-- Different configurations are apart. -/
theorem euclidean_distance_eq_zero_iff : ∀ {v w : List ℝ}, v.length = w.length →
    (euclidean_distance v w = 0 ↔ v = w) := by
  intro v
  induction v with
  | nil =>
    intro w h
    rw [List.length_nil, eq_comm, List.length_eq_zero_iff] at h
    simp [euclidean_distance, h]
  | cons x v ih =>
    intro w h
    cases w with
    | nil => simp at h
    | cons y w =>
      have hih := ih (Nat.succ.inj h)
      have hrest := sum_squares_nonneg v w
      rw [euclidean_distance, Real.sqrt_eq_zero hrest] at hih
      rw [euclidean_distance, Real.sqrt_eq_zero (sum_squares_nonneg _ _), List.zipWith_cons_cons,
        List.sum_cons, add_eq_zero_iff_of_nonneg (mul_self_nonneg _) hrest, mul_self_eq_zero,
        sub_eq_zero, hih, List.cons.injEq]

end Euclidean

end ReadexPtf.Cluster
