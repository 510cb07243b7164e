import ReadexPtf.CubeTools.CallTree
import ReadexPtf.Lib.Closure
import ReadexPtf.Lib.Outcome
import ReadexPtf.Lib.Peeling
import ReadexPtf.Lib.SortedSets
import Mathlib

/-! The adjacency matrix of the candidate regions: filled from one occurrence of each
name and closed under transitivity in place. -/
namespace ReadexPtf.CubeTools
open ReadexPtf Relation Peeling

/-- `size_t**` holding zeros and ones. -/
abbrev Matrix := Nat → Nat → Bool

namespace Matrix

def set (m : Matrix) (i j : Nat) (b : Bool) : Matrix :=
  fun i' j' => if i' = i ∧ j' = j then b else m i' j'

/-- `AdjacencyMatrix( n )`. -/
def zero : Matrix := fun _ _ => false

end Matrix

/-- `can_sig_regions`: the region names by their index. -/
abbrev Regions := List String

/-- `-1` where the name is not among the regions is `none`. -/
def getIndex (node_name : String) (regions : Regions) : Option Nat :=
  regions.findIdx? fun sig_r_name => node_name = sig_r_name

def getRegionName (idx : Nat) (regions : Regions) : Outcome String :=
  Outcome.elementAt regions idx

def addEdge (src dst n : Nat) (adjMatrix : Matrix) : Matrix :=
  if src < n ∧ dst < n then adjMatrix.set src dst true else adjMatrix

/-- Closes row `i` over the pivot `k`, left to right. -/
def closeRow (size k i : Nat) (adjMatrix : Matrix) : Matrix :=
  (List.range size).foldl (fun m j => m.set i j (m i j || (m i k && m k j))) adjMatrix

def transitiveClosure (size : Nat) (adjMatrix : Matrix) : Matrix :=
  (List.range size).foldl (fun m k =>
    (List.range size).foldl (fun m i => closeRow size k i m) m) adjMatrix

section Tree
variable {t : CallTree} (get_whole_subtree : t.Cnode → List t.Cnode)

/-- The first node of the list that calls the region; `NULL` is `none`. -/
def getCnode (c_name : String) (s_nodes : List t.Cnode) : Option t.Cnode :=
  s_nodes.find? fun c => t.callee c = c_name

def updateMatrix (call_node : Option t.Cnode) (adjMatrix : Matrix) (can_sig_regions : Regions) :
    Outcome Matrix :=
  match call_node with
  | none => .undefined
  | some c =>
    match getIndex (t.callee c) can_sig_regions with
    | none => .ok adjMatrix
    | some from_idx =>
      .ok ((get_whole_subtree c).foldl (fun m cnode =>
        match getIndex (t.callee cnode) can_sig_regions with
        | none => m
        | some to_idx => addEdge from_idx to_idx can_sig_regions.length m) adjMatrix)

/-- The node whose subtree stands for all nodes of the name. -/
def occurrence (phase_node : t.Cnode) (name : String) : Option t.Cnode :=
  if name = t.callee phase_node then some phase_node
  else getCnode name (get_whole_subtree phase_node)

def generateAdjacencyMatrix (matrix_size : Nat) (phase_node : t.Cnode) (sig_regions : Regions) :
    Outcome Matrix := do
  let adj_matrix ← sig_regions.foldlM (fun m name =>
    updateMatrix get_whole_subtree (occurrence get_whole_subtree phase_node name) m sig_regions)
    Matrix.zero
  .ok (transitiveClosure matrix_size adj_matrix)

end Tree

/-- The regions that call region `dst` and are not in `parent_names` yet. -/
def getParentRegName (dst size : Nat) (a_m : Matrix) (regions : Regions)
    (parent_names : List String) : Outcome (List String) :=
  (List.range size).foldlM (fun p_names src =>
    if a_m src dst then do
      let name ← getRegionName src regions
      .ok (if name ∈ parent_names then p_names else p_names ++ [name])
    else .ok p_names) []

/-- Takes the names of both lists out of the candidates. The first and the last of the
three vectors are sorted on the way. -/
def getRestCandidates (sig_nodes parent_nodes can_sig_regions : List String) :
    List String × List String :=
  let parent_nodes := (parent_nodes ++ sig_nodes).insertionSort (· ≤ ·)
  let sig_nodes := sig_nodes.insertionSort (· ≤ ·)
  let can_sig_regions := can_sig_regions.insertionSort (· ≤ ·)
  let common := setIntersection can_sig_regions parent_nodes
  (sig_nodes, setDifference can_sig_regions common)

/-- What remains of distinct candidates is what neither list names. -/
theorem getRestCandidates_spec (sig_nodes parent_nodes : List String)
    {can_sig_regions : List String} (hnodup : can_sig_regions.Nodup) :
    (getRestCandidates sig_nodes parent_nodes can_sig_regions).1.Perm sig_nodes ∧
    (getRestCandidates sig_nodes parent_nodes can_sig_regions).2.Nodup ∧
    ∀ x, x ∈ (getRestCandidates sig_nodes parent_nodes can_sig_regions).2 ↔
      x ∈ can_sig_regions ∧ x ∉ sig_nodes ∧ x ∉ parent_nodes := by
  have hsorted : ∀ l : List String, (l.insertionSort (· ≤ ·)).Pairwise (· ≤ ·) :=
    fun l => List.pairwise_insertionSort _ l
  have hperm : ∀ l : List String, (l.insertionSort (· ≤ ·)).Perm l :=
    fun l => List.perm_insertionSort _ l
  have hstrict : (can_sig_regions.insertionSort (· ≤ ·)).Pairwise (· < ·) :=
    (List.Pairwise.and (hsorted _) ((hperm _).nodup_iff.mpr hnodup)).imp fun h =>
      lt_of_le_of_ne h.1 h.2
  have hcommon : (setIntersection (can_sig_regions.insertionSort (· ≤ ·))
      ((parent_nodes ++ sig_nodes).insertionSort (· ≤ ·))).Pairwise (· ≤ ·) :=
    (hsorted _).sublist (setIntersection_sublist _ _)
  refine ⟨hperm _, ?_, fun x => ?_⟩
  · exact ((hperm _).nodup_iff.mpr hnodup).sublist (setDifference_sublist _ _)
  · rw [getRestCandidates, mem_setDifference hstrict hcommon,
      mem_setIntersection (hsorted _) (hsorted _), (hperm _).mem_iff, (hperm _).mem_iff,
      List.mem_append]
    constructor
    · exact fun ⟨hx, hnot⟩ => ⟨hx, fun h => hnot ⟨hx, .inr h⟩, fun h => hnot ⟨hx, .inl h⟩⟩
    · exact fun ⟨hx, hsig, hparent⟩ => ⟨hx, fun h => h.2.elim hparent hsig⟩

theorem Matrix.set_apply (m : Matrix) (i j : Nat) (v : Bool) (a b : Nat) :
    m.set i j v a b = if a = i ∧ b = j then v else m a b := rfl

/-- Column `k` of the row being closed reads the same before and after its own update. -/
theorem set_pivot (m : Matrix) (i j k : Nat) :
    m.set i j (m i j || (m i k && m k j)) i k = m i k := by
  rw [Matrix.set_apply]
  by_cases hk : k = j
  · subst hk
    cases m i k <;> simp
  · simp [hk]

/-- One row of a pivot, although it is updated while it is read. -/
theorem closeRow_apply (size k i : Nat) (m : Matrix) (a b : Nat) :
    closeRow size k i m a b =
      if a = i ∧ b < size then (m a b || (m a k && m k b)) else m a b := by
  have hfold : ∀ (js : List Nat) (m : Matrix), js.Nodup →
      js.foldl (fun m j => m.set i j (m i j || (m i k && m k j))) m a b =
        if a = i ∧ b ∈ js then (m a b || (m a k && m k b)) else m a b := by
    intro js
    induction js with
    | nil => simp
    | cons j js ih =>
      intro m hnodup
      obtain ⟨hj, hjs⟩ := List.nodup_cons.mp hnodup
      rw [List.foldl_cons, ih _ hjs]
      by_cases ha : a = i
      · subst ha
        rw [set_pivot]
        by_cases hb : b = j
        · simp [hb, hj, Matrix.set_apply]
        · simp [hb, Matrix.set_apply]
      · simp [ha, Matrix.set_apply]
  rw [closeRow, hfold _ _ List.nodup_range]
  simp only [List.mem_range]

/-- Row `k` reads the same before and after it is closed over the pivot `k`. -/
theorem closeRow_pivot (size k i : Nat) (m : Matrix) (b : Nat) :
    closeRow size k i m k b = m k b := by
  rw [closeRow_apply]
  split_ifs
  · cases m k b <;> cases m k k <;> rfl
  · rfl

/-- One pivot of the closure, although it is updated while it is read. -/
theorem closePivot_apply (size k : Nat) (m : Matrix) (a b : Nat) :
    (List.range size).foldl (fun m i => closeRow size k i m) m a b =
      if a < size ∧ b < size then (m a b || (m a k && m k b)) else m a b := by
  have hfold : ∀ (is : List Nat) (m : Matrix), is.Nodup →
      is.foldl (fun m i => closeRow size k i m) m a b =
        if a ∈ is ∧ b < size then (m a b || (m a k && m k b)) else m a b := by
    intro is
    induction is with
    | nil => simp
    | cons i is ih =>
      intro m hnodup
      obtain ⟨hi, his⟩ := List.nodup_cons.mp hnodup
      rw [List.foldl_cons, ih _ his, closeRow_pivot]
      by_cases ha : a = i
      · simp [ha, hi, closeRow_apply]
      · simp [ha, closeRow_apply]
  rw [hfold _ _ List.nodup_range]
  simp only [List.mem_range]

/-- The entry of the closed matrix says whether a path of one edge or more leads there. -/
theorem transitiveClosure_iff {size : Nat} {m : Matrix}
    (hm : ∀ i j, m i j = true → i < size ∧ j < size) (i j : Nat) :
    transitiveClosure size m i j = true ↔ TransGen (fun i j => m i j = true) i j := by
  have hfold : ∀ (ks : List Nat) (m : Matrix), (∀ i j, m i j = true → i < size ∧ j < size) →
      ∀ i j, ks.foldl (fun m k => (List.range size).foldl (fun m i => closeRow size k i m) m) m
        i j = true ↔ closeOver (fun i j => m i j = true) ks i j := by
    intro ks
    induction ks with
    | nil => exact fun m _ i j => Iff.rfl
    | cons k ks ih =>
      intro m hm i j
      have hpivot : ∀ a b, (List.range size).foldl (fun m i => closeRow size k i m) m a b = true ↔
          throughPivot (fun i j => m i j = true) k a b := by
        intro a b
        rw [closePivot_apply, throughPivot]
        by_cases hbound : a < size ∧ b < size
        · simp [hbound]
        · have hedge : ¬ m a b = true := fun h => hbound (hm a b h)
          have hroute : ¬ (m a k = true ∧ m k b = true) := fun h =>
            hbound ⟨(hm a k h.1).1, (hm k b h.2).2⟩
          simp [hbound, hedge, hroute]
      have hrel : (fun a b => (List.range size).foldl (fun m i => closeRow size k i m) m a b = true) =
          throughPivot (fun i j => m i j = true) k := by
        funext a b
        exact propext (hpivot a b)
      rw [List.foldl_cons, ih, hrel]
      · rfl
      · intro a b hab
        rw [closePivot_apply] at hab
        split_ifs at hab with hbound
        · exact hbound
        · exact hm a b hab
  rw [transitiveClosure, hfold _ _ hm]
  exact closeOver_iff fun i j h => List.mem_range.mpr (hm i j h).2

/-- What lies inside the array depends on nothing outside it. -/
theorem transitiveClosure_congr {size : Nat} {m m' : Matrix}
    (hm : ∀ i j, i < size → j < size → m i j = m' i j) :
    ∀ i j, i < size → j < size →
      transitiveClosure size m i j = transitiveClosure size m' i j := by
  have hfold : ∀ (ks : List Nat) (m m' : Matrix), (∀ k ∈ ks, k < size) →
      (∀ i j, i < size → j < size → m i j = m' i j) → ∀ i j, i < size → j < size →
        ks.foldl (fun m k => (List.range size).foldl (fun m i => closeRow size k i m) m) m i j =
          ks.foldl (fun m k => (List.range size).foldl (fun m i => closeRow size k i m) m)
            m' i j := by
    intro ks
    induction ks with
    | nil => exact fun m m' _ hm => hm
    | cons k ks ih =>
      intro m m' hks hm
      rw [List.forall_mem_cons] at hks
      apply ih _ _ hks.2
      intro i j hi hj
      beta_reduce
      rw [closePivot_apply, closePivot_apply, hm i j hi hj, hm i k hi hks.1, hm k j hks.1 hj]
  exact hfold _ m m' (fun k hk => List.mem_range.mp hk) hm

/-- Afterwards an entry is set if and only if a path of one edge or more leads there. -/
theorem transitiveClosure_reaches (size : Nat) (adjMatrix : Matrix) (i j : Fin size) :
    transitiveClosure size adjMatrix i j = true ↔
      TransGen (fun a b : Fin size => adjMatrix a b = true) i j := by
  -- the entries outside the array, which no graph has, are cleared for the argument
  let inside : Matrix := fun a b => decide (a < size ∧ b < size) && adjMatrix a b
  have hinside : ∀ a b, inside a b = true ↔ (a < size ∧ b < size) ∧ adjMatrix a b = true := by
    simp [inside]
  rw [@transitiveClosure_congr size adjMatrix inside (by simp +contextual [inside]) i j i.2 j.2,
    transitiveClosure_iff fun a b h => ((hinside a b).mp h).1]
  constructor
  · intro h
    have hpath : ∀ b, TransGen (fun a b => inside a b = true) i.1 b → ∃ hb : b < size,
        TransGen (fun a b : Fin size => adjMatrix a b = true) i ⟨b, hb⟩ := by
      intro b hb
      induction hb with
      | single hedge =>
        have h := (hinside _ _).mp hedge
        exact ⟨h.1.2, .single h.2⟩
      | tail _ hedge ih =>
        have h := (hinside _ _).mp hedge
        exact ⟨h.1.2, ih.choose_spec.tail h.2⟩
    exact (hpath j h).choose_spec
  · intro h
    exact TransGen.lift (fun a : Fin size => a.1)
      (fun a b hab => (hinside a b).mpr ⟨⟨a.2, b.2⟩, hab⟩) i j h

/-- Indices and names of distinct regions determine each other. -/
theorem getIndex_eq_some {regions : Regions} (hnodup : regions.Nodup) {name : String} {i : Nat} :
    getIndex name regions = some i ↔ regions[i]? = some name := by
  rw [getIndex, List.findIdx?_eq_some_iff_getElem]
  constructor
  · intro ⟨hi, heq, _⟩
    rw [List.getElem?_eq_getElem hi]
    exact congrArg some (of_decide_eq_true heq).symm
  · intro h
    obtain ⟨hi, heq⟩ := List.getElem?_eq_some_iff.mp h
    refine ⟨hi, decide_eq_true heq.symm, fun j hj => ?_⟩
    simp only [decide_eq_true_eq]
    intro hsame
    exact hj.ne ((hnodup.getElem_inj_iff).mp (hsame.symm.trans heq.symm))

section Spec
variable {t : CallTree} {get_whole_subtree : t.Cnode → List t.Cnode} {phase_node : t.Cnode}

/-- Region `b` occurs in the subtree of the node that stands for `a`. -/
def Calls (get_whole_subtree : t.Cnode → List t.Cnode) (phase_node : t.Cnode) (a b : String) :
    Prop :=
  ∃ c, occurrence get_whole_subtree phase_node a = some c ∧
    ∃ d ∈ get_whole_subtree c, t.callee d = b

theorem callee_getCnode {name : String} {nodes : List t.Cnode} {c : t.Cnode}
    (h : getCnode name nodes = some c) : c ∈ nodes ∧ t.callee c = name := by
  rw [getCnode] at h
  exact ⟨List.mem_of_find?_eq_some h, by simpa using List.find?_some h⟩

theorem callee_occurrence {name : String} {c : t.Cnode}
    (h : occurrence get_whole_subtree phase_node name = some c) : t.callee c = name := by
  rw [occurrence] at h
  split_ifs at h with hphase
  · exact Option.some.inj h ▸ hphase.symm
  · exact (callee_getCnode h).2

theorem updateMatrix_spec {regions : Regions} (hnodup : regions.Nodup) {name : String}
    {c : t.Cnode} (hc : occurrence get_whole_subtree phase_node name = some c) {i : Nat}
    (hi : regions[i]? = some name) (m : Matrix) :
    ∃ m', updateMatrix get_whole_subtree (some c) m regions = .ok m' ∧
      ∀ a b, m' a b = true ↔ m a b = true ∨
        a = i ∧ ∃ y, regions[b]? = some y ∧ Calls get_whole_subtree phase_node name y := by
  have hindex : getIndex (t.callee c) regions = some i := by
    rw [callee_occurrence hc]
    exact (getIndex_eq_some hnodup).mpr hi
  have hlt : ∀ {j y}, regions[j]? = some y → j < regions.length := fun h =>
    (List.getElem?_eq_some_iff.mp h).1
  have hupdate : updateMatrix get_whole_subtree (some c) m regions =
      .ok ((get_whole_subtree c).foldl (fun m cnode =>
        match getIndex (t.callee cnode) regions with
        | none => m
        | some to_idx => addEdge i to_idx regions.length m) m) := by
    simp only [updateMatrix, hindex]
  refine ⟨_, hupdate, fun a b => ?_⟩
  have hfold : ∀ (nodes : List t.Cnode) (m : Matrix),
      (nodes.foldl (fun m cnode =>
        match getIndex (t.callee cnode) regions with
        | none => m
        | some to_idx => addEdge i to_idx regions.length m) m) a b = true ↔
      m a b = true ∨ a = i ∧ ∃ d ∈ nodes, regions[b]? = some (t.callee d) := by
    intro nodes
    induction nodes with
    | nil => simp
    | cons d nodes ih =>
      intro m
      rw [List.foldl_cons, ih]
      cases hd : getIndex (t.callee d) regions with
      | none =>
        have hnot : regions[b]? ≠ some (t.callee d) := fun h => by
          rw [(getIndex_eq_some hnodup).mpr h] at hd
          exact absurd hd (Option.some_ne_none b)
        simp [hnot]
      | some j =>
        have hj := (getIndex_eq_some hnodup).mp hd
        have hsame : regions[b]? = some (t.callee d) ↔ b = j := by
          rw [← getIndex_eq_some hnodup, hd, Option.some.injEq, eq_comm]
        simp only [addEdge, hlt hi, hlt hj, and_self, if_true, Matrix.set_apply, List.mem_cons,
          exists_eq_or_imp, hsame]
        by_cases hab : a = i ∧ b = j
        · simp [hab]
        · simp only [hab, if_false]
          by_cases ha : a = i <;> by_cases hb : b = j <;> simp_all
  rw [hfold]
  refine or_congr_right (and_congr_right fun _ => ?_)
  constructor
  · exact fun ⟨d, hd, hb⟩ => ⟨_, hb, c, hc, d, hd, rfl⟩
  · intro ⟨y, hb, c', hc', d, hd, heq⟩
    have hcc : c = c' := Option.some.inj (hc.symm.trans hc')
    exact ⟨d, hcc ▸ hd, heq ▸ hb⟩

/-- Paths over the indices are routes over the names. -/
theorem transGen_index {R : String → String → Prop} {regions : Regions}
    {i j : Nat} :
    TransGen (fun i j => ∃ a b, regions[i]? = some a ∧ regions[j]? = some b ∧ R a b) i j ↔
      ∃ a b, regions[i]? = some a ∧ regions[j]? = some b ∧ Within R regions.toFinset a b := by
  have hmem : ∀ {k x}, regions[k]? = some x → x ∈ regions.toFinset := fun h =>
    List.mem_toFinset.mpr (List.mem_of_getElem? h)
  constructor
  · intro h
    induction h with
    | single hedge =>
      obtain ⟨a, b, ha, hb, hR⟩ := hedge
      exact ⟨a, b, ha, hb, .single ⟨hR, hmem ha, hmem hb⟩⟩
    | tail _ hedge ih =>
      obtain ⟨a, b, ha, hb, hwithin⟩ := ih
      obtain ⟨b', c, hb', hc, hR⟩ := hedge
      have heq : b' = b := Option.some.inj (hb'.symm.trans hb)
      exact ⟨a, c, ha, hc, hwithin.tail ⟨heq ▸ hR, hmem hb, hmem hc⟩⟩
  · intro ⟨a, b, ha, hb, hwithin⟩
    induction hwithin generalizing j with
    | single hedge => exact .single ⟨a, _, ha, hb, hedge.1⟩
    | tail _ hedge ih =>
      obtain ⟨k, hk⟩ := List.mem_iff_getElem?.mp (List.mem_toFinset.mp hedge.2.1)
      exact (ih hk).tail ⟨_, _, hk, hb, hedge.1⟩

/-- The matrix of distinct candidates that occur: the routes among them. -/
theorem generateAdjacencyMatrix_spec {regions : Regions} (hnodup : regions.Nodup)
    (hoccur : ∀ name ∈ regions, ∃ c, occurrence get_whole_subtree phase_node name = some c) :
    ∃ m, generateAdjacencyMatrix get_whole_subtree regions.length phase_node regions = .ok m ∧
      ∀ i j, m i j = true ↔ ∃ a b, regions[i]? = some a ∧ regions[j]? = some b ∧
        Within (Calls get_whole_subtree phase_node) regions.toFinset a b := by
  have hfold : ∀ (names : List String), (∀ name ∈ names, name ∈ regions) → ∀ m : Matrix,
      ∃ m', names.foldlM (fun m name => updateMatrix get_whole_subtree
          (occurrence get_whole_subtree phase_node name) m regions) m = .ok m' ∧
        ∀ i j, m' i j = true ↔ m i j = true ∨ ∃ a b, a ∈ names ∧ regions[i]? = some a ∧
          regions[j]? = some b ∧ Calls get_whole_subtree phase_node a b := by
    intro names
    induction names with
    | nil => exact fun _ m => ⟨m, rfl, by simp⟩
    | cons name names ih =>
      intro hnames m
      obtain ⟨hname, hrest⟩ := List.forall_mem_cons.mp hnames
      obtain ⟨c, hc⟩ := hoccur name hname
      obtain ⟨k, hk⟩ := List.mem_iff_getElem?.mp hname
      obtain ⟨m₁, hupdate, hm₁⟩ := updateMatrix_spec hnodup hc hk m
      obtain ⟨m', hrun, hm'⟩ := ih hrest m₁
      refine ⟨m', by rw [List.foldlM_cons, hc, hupdate, Outcome.ok_bind, hrun], fun i j => ?_⟩
      rw [hm', hm₁, or_assoc]
      refine or_congr_right ?_
      constructor
      · intro h
        cases h with
        | inl hedge =>
          obtain ⟨hik, b, hb, hcalls⟩ := hedge
          exact ⟨name, b, List.mem_cons_self, hik ▸ hk, hb, hcalls⟩
        | inr hold =>
          obtain ⟨a, b, ha, hedge⟩ := hold
          exact ⟨a, b, List.mem_cons_of_mem name ha, hedge⟩
      · intro ⟨a, b, ha, hia, hb, hcalls⟩
        cases List.mem_cons.mp ha with
        | inl hself =>
          have hik : i = k := by
            have hi := (getIndex_eq_some hnodup).mpr (hself ▸ hia)
            exact Option.some.inj (hi.symm.trans ((getIndex_eq_some hnodup).mpr hk))
          exact .inl ⟨hik, b, hb, hself ▸ hcalls⟩
        | inr hin => exact .inr ⟨a, b, hin, hia, hb, hcalls⟩
  obtain ⟨m, hrun, hm⟩ := hfold regions (fun _ h => h) .zero
  have hedges : (fun i j => m i j = true) = fun i j => ∃ a b, regions[i]? = some a ∧
      regions[j]? = some b ∧ Calls get_whole_subtree phase_node a b := by
    funext i j
    rw [hm]
    refine propext ⟨fun h => ?_, fun ⟨a, b, ha, hb, hcalls⟩ => ?_⟩
    · cases h with
      | inl hzero => exact absurd hzero (by simp [Matrix.zero])
      | inr hedge =>
        obtain ⟨a, b, _, ha, hb, hcalls⟩ := hedge
        exact ⟨a, b, ha, hb, hcalls⟩
    · exact .inr ⟨a, b, List.mem_of_getElem? ha, ha, hb, hcalls⟩
  have hbound : ∀ i j, m i j = true → i < regions.length ∧ j < regions.length := by
    intro i j h
    obtain ⟨a, b, ha, hb, _⟩ := (congrFun (congrFun hedges i) j).mp h
    exact ⟨(List.getElem?_eq_some_iff.mp ha).1, (List.getElem?_eq_some_iff.mp hb).1⟩
  refine ⟨_, by rw [generateAdjacencyMatrix, hrun, Outcome.ok_bind], fun i j => ?_⟩
  rw [transitiveClosure_iff hbound, hedges, transGen_index]

end Spec
end ReadexPtf.CubeTools
