import ReadexPtf.Rts.AgentRuns
import ReadexPtf.Rts.Frontend
import Mathlib

/-! When the frontend's tree is the agent's: which nodes a received node is put below, and
that an insertion at another node is never taken back. -/
namespace ReadexPtf.Rtstree
open ReadexPtf

/-- The node that is sent for a node of the agent. -/
def sent (data : Rts) : Rts := { data with isValidRts := false }

/-- A node and all nodes below it. -/
inductive Under (tree : Cells Rts) : ℕ → ℕ → Prop
  | here (v : ℕ) : Under tree v v
  | down (v c q : ℕ) (hparent : parentOf tree c = some v) (hunder : Under tree c q) : Under tree v q

theorem Under.snoc {tree : Cells Rts} {v p q : ℕ} (h : Under tree v p)
    (hparent : parentOf tree q = some p) : Under tree v q := by
  induction h with
  | here v => exact .down v q q hparent (.here q)
  | down v c p hc _ ih => exact .down v c q hc (ih hparent)

theorem Under.le {tree : Cells Rts} (hr : tree.Rooted) {v q : ℕ} (h : Under tree v q) : v ≤ q := by
  induction h with
  | here v => exact le_rfl
  | down v c q hparent _ ih => exact (parent_lt hr hparent).1.le.trans ih

theorem under_root {tree : Cells Rts} (hr : tree.Rooted) (q : ℕ) (hq : q < tree.length) :
    Under tree 0 q := by
  induction q using Nat.strongRecOn with
  | ind q ih =>
    by_cases hzero : q = 0
    · subst hzero
      exact .here 0
    · obtain ⟨p, hp, hlt, -⟩ := hr.up q tree[q] (List.getElem?_eq_getElem hq) hzero
      have hparent : parentOf tree q = some p := by
        rw [parentOf, List.getElem?_eq_getElem hq]
        exact hp
      exact (ih p hlt (by omega)).snoc hparent

namespace SentTree
variable (tree : SentTree)

/-- The first `k` nodes that are children of `p`. -/
def upto (k p : ℕ) : List ℕ := (List.range k).filter fun c => parentOf tree.cells c = some p

variable {tree}

theorem mem_upto {k p c : ℕ} : c ∈ tree.upto k p ↔ c < k ∧ parentOf tree.cells c = some p := by
  simp [upto]

theorem upto_succ (k p : ℕ) : tree.upto (k + 1) p =
    tree.upto k p ++ if parentOf tree.cells k = some p then [k] else [] := by
  rw [upto, List.range_succ, List.filter_append, upto]
  congr 1
  by_cases h : parentOf tree.cells k = some p <;> simp [h]

/-- The call-path string of a node below another one is longer. -/
theorem callpath_length {v q : ℕ} (h : Under tree.cells v q) :
    v = q ∨ (callpathOf tree.cells v).length < (callpathOf tree.cells q).length := by
  induction h with
  | here v => exact .inl rfl
  | down v c q hparent _ ih =>
    have hstring := congrArg String.length (tree.callpaths c v hparent)
    rw [String.length_append, String.length_append] at hstring
    have hslash : ("/" : String).length = 1 := rfl
    right
    cases ih with
    | inl heq =>
      subst heq
      omega
    | inr hlt => omega

end SentTree

/-- The nodes that the node `k` is put below: their string fits, and no child has it yet. -/
def Target (tree : SentTree) (k q : ℕ) : Prop :=
  callpathOf tree.cells k = callpathOf tree.cells q ++ "/" ++ regionNameOf tree.cells k ∧
    ∀ j < k, parentOf tree.cells j = some q → callpathOf tree.cells j ≠ callpathOf tree.cells k

/-- Below a target there is no other node whose string fits. -/
theorem Target.eq_of_under {tree : SentTree} {k v q : ℕ}
    (hv : callpathOf tree.cells k = callpathOf tree.cells v ++ "/" ++ regionNameOf tree.cells k)
    (hq : Target tree k q) (hunder : Under tree.cells v q) : v = q := by
  have hsame : callpathOf tree.cells v = callpathOf tree.cells q :=
    string_append_right_cancel (string_append_right_cancel (hv.symm.trans hq.1))
  cases tree.callpath_length hunder with
  | inl heq => exact heq
  | inr hlt =>
    rw [hsame] at hlt
    omega

/-- The frontend's heap while the node `k` is inserted: it has been put below the nodes `S`. -/
structure Pushed (tree : SentTree) (k : ℕ) (S : Finset ℕ) (heap : Cells Rts) : Prop where
  size : heap.length = k + 1
  data : ∀ a ≤ k, dataOf heap a = (dataOf tree.cells a).map sent
  parents : ∀ a < k, parentOf heap a = parentOf tree.cells a
  children : ∀ p, heap.childrenOf p = tree.upto k p ++ if p ∈ S then [k] else []
  targets : ∀ q ∈ S, Target tree k q
  parent : ∀ q, parentOf heap k = some q → q ∈ S
  placed : S.Nonempty → ∃ q, parentOf heap k = some q

section Insertion
variable {tree : SentTree} {k : ℕ}

theorem callpathOf_of_data {heap : Cells Rts} {a : ℕ}
    (h : dataOf heap a = (dataOf tree.cells a).map sent) :
    callpathOf heap a = callpathOf tree.cells a := by
  rw [callpathOf, h, Option.map_map]
  rfl

theorem regionNameOf_of_data {heap : Cells Rts} {a : ℕ}
    (h : dataOf heap a = (dataOf tree.cells a).map sent) :
    regionNameOf heap a = regionNameOf tree.cells a := by
  rw [regionNameOf, h, Option.map_map]
  rfl

/-- One more target. -/
theorem Pushed.adopt {S : Finset ℕ} {heap : Cells Rts} (h : Pushed tree k S heap) {v : ℕ}
    (hv : v < k) (htarget : Target tree k v) (hnew : v ∉ S) :
    Pushed tree k (insert v S) (adopt heap v k) := by
  have hsize := h.size
  constructor
  · rw [length_adopt, hsize]
  · intro a ha
    rw [dataOf_adopt, h.data a ha]
  · intro a ha
    rw [parentOf_adopt heap a (by omega), if_neg (by omega), h.parents a ha]
  · intro p
    rw [childrenOf_adopt heap p (by omega), h.children p]
    by_cases heq : v = p
    · subst heq
      simp [hnew]
    · simp [heq, Ne.symm heq]
  · intro q hq
    cases Finset.mem_insert.mp hq with
    | inl heq => exact heq ▸ htarget
    | inr hold => exact h.targets q hold
  · intro q hq
    rw [parentOf_adopt heap k (by omega), if_pos rfl, Option.some.injEq] at hq
    exact hq ▸ Finset.mem_insert_self v S
  · intro _
    rw [parentOf_adopt heap k (by omega), if_pos rfl]
    exact ⟨v, rfl⟩

/-- The search finds the targets below a node. -/
theorem insertFrontendNode_pushed :
    ∀ (depth v : ℕ) (heap : Cells Rts) (S : Finset ℕ), Pushed tree k S heap → v < k →
      k ≤ v + depth → ∃ heap' S', insertFrontendNode depth v k heap = .ok heap' ∧
        Pushed tree k S' heap' ∧
        ∀ q, q ∈ S' ↔ q ∈ S ∨ (Under tree.cells v q ∧ q < k ∧ Target tree k q) := by
  intro depth
  induction depth with
  | zero =>
    intro v heap S h hv hdepth
    omega
  | succ depth ih =>
    intro v heap S h hv hdepth
    rw [insertFrontendNode, callpathOf_of_data (h.data k le_rfl),
      callpathOf_of_data (h.data v hv.le), regionNameOf_of_data (h.data k le_rfl)]
    split_ifs with hmatch
    · cases hfind : findFrontendNode heap v k with
      | some c =>
        -- the node has been put here before, or a child with its string has come earlier
        refine ⟨heap, S, rfl, h, fun q => ⟨.inl, fun hq => hq.elim id ?_⟩⟩
        intro hq
        obtain ⟨hunder, hlt, htarget⟩ := hq
        have heq := htarget.eq_of_under hmatch hunder
        subst heq
        by_contra hnot
        have hchild := List.mem_of_find?_eq_some hfind
        rw [h.children v, if_neg hnot, List.append_nil, SentTree.mem_upto] at hchild
        have hstring := List.find?_some hfind
        rw [callpathOf_of_data (h.data k le_rfl), callpathOf_of_data (h.data c hchild.1.le),
          beq_iff_eq] at hstring
        exact htarget.2 c hchild.1 hchild.2 hstring
      | none =>
        have hnone := List.find?_eq_none.mp hfind
        have hnew : v ∉ S := by
          intro hin
          have hself : k ∈ heap.childrenOf v := by
            rw [h.children v, if_pos hin]
            simp
          exact hnone k hself (by simp)
        have htarget : Target tree k v := by
          refine ⟨hmatch, fun j hj hparent hstring => ?_⟩
          have hchild : j ∈ heap.childrenOf v := by
            rw [h.children v]
            exact List.mem_append_left _ (SentTree.mem_upto.mpr ⟨hj, hparent⟩)
          apply hnone j hchild
          rw [callpathOf_of_data (h.data k le_rfl), callpathOf_of_data (h.data j hj.le), hstring,
            beq_self_eq_true]
        refine ⟨_, insert v S, rfl, h.adopt hv htarget hnew, fun q => ?_⟩
        rw [Finset.mem_insert]
        constructor
        · intro hq
          cases hq with
          | inl heq =>
            subst heq
            exact .inr ⟨.here q, hv, htarget⟩
          | inr hold => exact .inl hold
        · intro hq
          cases hq with
          | inl hold => exact .inr hold
          | inr hbelow => exact .inl (hbelow.2.2.eq_of_under hmatch hbelow.1).symm
    · have hnot : ¬ Target tree k v := fun htarget => hmatch htarget.1
      have hchildren : heap.childrenOf v = tree.upto k v := by
        rw [h.children v, if_neg fun hin => hnot (h.targets v hin), List.append_nil]
      rw [hchildren]
      have hloop : ∀ (cs : List ℕ) (heap : Cells Rts) (S : Finset ℕ), (∀ c ∈ cs, c ∈ tree.upto k v) →
          Pushed tree k S heap → ∃ heap' S',
            cs.foldlM (fun heap child => insertFrontendNode depth child k heap) heap = .ok heap' ∧
            Pushed tree k S' heap' ∧ ∀ q, q ∈ S' ↔ q ∈ S ∨
              ∃ c ∈ cs, Under tree.cells c q ∧ q < k ∧ Target tree k q := by
        intro cs
        induction cs with
        | nil => exact fun heap S _ h => ⟨heap, S, rfl, h, fun q => by simp⟩
        | cons c cs ihcs =>
          intro heap S hcs h
          have hc := SentTree.mem_upto.mp (hcs c List.mem_cons_self)
          have hlt := (parent_lt tree.rooted hc.2).1
          obtain ⟨heap₁, S₁, hrun₁, h₁, hmem₁⟩ := ih c heap S h hc.1 (by omega)
          obtain ⟨heap₂, S₂, hrun₂, h₂, hmem₂⟩ := ihcs heap₁ S₁
            (fun d hd => hcs d (List.mem_cons_of_mem c hd)) h₁
          refine ⟨heap₂, S₂, ?_, h₂, fun q => ?_⟩
          · rw [List.foldlM_cons, hrun₁, Outcome.ok_bind, hrun₂]
          · rw [hmem₂, hmem₁, List.exists_mem_cons_iff, or_assoc]
      obtain ⟨heap', S', hrun, hpushed, hmem⟩ := hloop (tree.upto k v) heap S (fun c hc => hc) h
      refine ⟨heap', S', hrun, hpushed, fun q => ?_⟩
      rw [hmem]
      apply or_congr_right
      constructor
      · intro hq'
        obtain ⟨c, hc, hunder, hq⟩ := hq'
        exact ⟨.down v c q (SentTree.mem_upto.mp hc).2 hunder, hq⟩
      · intro hq'
        obtain ⟨hunder, hlt, htarget⟩ := hq'
        cases hunder with
        | here => exact absurd htarget hnot
        | down _ c _ hparent hunder =>
          have hle := hunder.le tree.rooted
          exact ⟨c, SentTree.mem_upto.mpr ⟨by omega, hparent⟩, hunder, hlt, htarget⟩

end Insertion
section Receiving
variable {tree : SentTree}

/-- The frontend has the first `k` nodes as the agent has them. -/
structure Faithful (tree : SentTree) (k : ℕ) (fe : Frontend) : Prop where
  root : fe.calltreeRoot = some 0
  size : fe.heap.length = k
  data : ∀ a < k, dataOf fe.heap a = (dataOf tree.cells a).map sent
  parents : ∀ a < k, parentOf fe.heap a = parentOf tree.cells a
  children : ∀ p, fe.heap.childrenOf p = tree.upto k p

/-- The condition for one node. -/
def LocatableAt (tree : SentTree) (k : ℕ) : Prop :=
  ∀ p q, parentOf tree.cells k = some p → q < k →
    callpathOf tree.cells q = callpathOf tree.cells p →
    (q ≠ p ↔ ∃ j < k, parentOf tree.cells j = some q ∧
      callpathOf tree.cells j = callpathOf tree.cells k)

theorem getElem?_arrived (heap : Cells Rts) (cell : Cell Rts) (a : ℕ) :
    (heap ++ [cell])[a]? = if a = heap.length then some cell else heap[a]? := by
  by_cases hlt : a < heap.length
  · rw [List.getElem?_append_left hlt, if_neg (by omega)]
  · by_cases heq : a = heap.length
    · subst heq
      simp
    · rw [if_neg heq, List.getElem?_eq_none (by simp; omega), List.getElem?_eq_none (by omega)]

theorem childrenOf_arrived (heap : Cells Rts) (data : Rts) (p : ℕ) :
    Cells.childrenOf (heap ++ [⟨data, none, []⟩]) p = heap.childrenOf p := by
  rw [Cells.childrenOf, Cells.childrenOf, getElem?_arrived]
  split_ifs with heq
  · rw [heq, List.getElem?_eq_none (by omega)]
    rfl
  · rfl

theorem Faithful.arrived {k : ℕ} {fe : Frontend} (h : Faithful tree k fe) {data : Rts}
    (hdata : dataOf tree.cells k = some data) :
    Pushed tree k ∅ (fe.heap ++ [⟨sent data, none, []⟩]) := by
  have hsize := h.size
  constructor
  · rw [List.length_append, hsize]
    rfl
  · intro a ha
    rw [dataOf, getElem?_arrived]
    split_ifs with heq
    · have hak : a = k := heq.trans hsize
      rw [hak, hdata]
      rfl
    · exact h.data a (by omega)
  · intro a ha
    rw [parentOf, getElem?_arrived, if_neg (by omega)]
    exact h.parents a ha
  · intro p
    rw [childrenOf_arrived, h.children]
    simp
  · exact fun q hq => absurd hq (Finset.notMem_empty q)
  · intro q hq
    rw [parentOf, getElem?_arrived, if_pos hsize.symm] at hq
    exact absurd hq (by simp)
  · exact fun hne => absurd hne (by simp)

/-- The next node goes below its targets. -/
theorem Faithful.step {k : ℕ} {fe : Frontend} (h : Faithful tree k fe) {data : Rts}
    (hdata : dataOf tree.cells k = some data) (hk : k ≠ 0) :
    ∃ heap S, fe.constructCalltree (sent data) = .ok ⟨heap, some 0⟩ ∧ Pushed tree k S heap ∧
      ∀ q, q ∈ S ↔ q < k ∧ Target tree k q := by
  have hpushed := h.arrived hdata
  have hlength := hpushed.size
  have hklen : k < tree.cells.length := by
    by_contra hnot
    rw [dataOf, List.getElem?_eq_none (by omega)] at hdata
    exact absurd hdata (by simp)
  obtain ⟨heap, S, hrun, hS, hmem⟩ := insertFrontendNode_pushed
    (fe.heap ++ [(⟨sent data, none, []⟩ : Cell Rts)]).length 0 _ ∅ hpushed (by omega) (by omega)
  have hid : (sent data).parentScorepId ≠ 0 := fun heq => hk ((tree.parentIds k data hdata).mp heq)
  refine ⟨heap, S, ?_, hS, fun q => ?_⟩
  · rw [Frontend.constructCalltree]
    simp only [hid, if_false, h.root, Outcome.found, Outcome.ok_bind, h.size, hrun]
    rfl
  · rw [hmem]
    constructor
    · intro hq
      exact (hq.resolve_left (Finset.notMem_empty q)).2
    · intro hq
      exact .inr ⟨under_root tree.rooted q (by omega), hq⟩

/-- The parent is the only target exactly if the node is locatable. -/
theorem targets_iff {k p : ℕ} (hparent : parentOf tree.cells k = some p) :
    (∀ q, (q < k ∧ Target tree k q) ↔ q = p) ↔ LocatableAt tree k := by
  have hlt := (parent_lt tree.rooted hparent).1
  have hstring := tree.callpaths k p hparent
  have htarget : ∀ q, Target tree k q ↔ callpathOf tree.cells q = callpathOf tree.cells p ∧
      ¬ ∃ j < k, parentOf tree.cells j = some q ∧
        callpathOf tree.cells j = callpathOf tree.cells k := by
    intro q
    rw [Target]
    constructor
    · intro ⟨hmatch, hchildren⟩
      refine ⟨string_append_right_cancel (string_append_right_cancel (hmatch.symm.trans hstring)), ?_⟩
      intro ⟨j, hj, hjq, hsame⟩
      exact hchildren j hj hjq hsame
    · intro ⟨hsame, hchildren⟩
      exact ⟨by rw [hsame]; exact hstring, fun j hj hjq heq => hchildren ⟨j, hj, hjq, heq⟩⟩
  constructor
  · intro h p' q hp' hq hsame
    have heq : p' = p := Option.some.inj (hp'.symm.trans hparent)
    subst heq
    rw [ne_eq, ← h q, htarget]
    simp only [hq, hsame, true_and, not_not]
  · intro h q
    rw [htarget]
    constructor
    · intro ⟨hq, hsame, hnone⟩
      by_contra hne
      exact hnone ((h p q hparent hq hsame).mp hne)
    · intro heq
      subst heq
      exact ⟨hlt, rfl, fun hsome => (h q q hparent hlt rfl).mpr hsome rfl⟩

theorem Faithful.succ {k p : ℕ} {heap : Cells Rts} {S : Finset ℕ} (h : Pushed tree k S heap)
    (hparent : parentOf tree.cells k = some p) (hS : ∀ q, q ∈ S ↔ q = p) :
    Faithful tree (k + 1) ⟨heap, some 0⟩ := by
  constructor
  · rfl
  · exact h.size
  · exact fun a ha => h.data a (by omega)
  · intro a ha
    by_cases heq : a = k
    · subst heq
      obtain ⟨q, hq⟩ := h.placed ⟨p, (hS p).mpr rfl⟩
      rw [hparent, hq, (hS q).mp (h.parent q hq)]
    · exact h.parents a (by omega)
  · intro q
    rw [h.children, SentTree.upto_succ, hparent]
    by_cases heq : q = p
    · subst heq
      simp [(hS q).mpr rfl]
    · have hnot : q ∉ S := fun hin => heq ((hS q).mp hin)
      simp [hnot, Ne.symm heq]

/-- A frontend that may have gone wrong. -/
structure Loose (fe : Frontend) : Prop where
  root : fe.calltreeRoot = some 0
  nonempty : 0 < fe.heap.length
  ordered : Ordered fe.heap

/-- What has been received before stays where it is. -/
structure Later (fe fe' : Frontend) : Prop where
  parents : ∀ c < fe.heap.length, parentOf fe'.heap c = parentOf fe.heap c
  counts : ∀ p, ∀ c < fe.heap.length,
    (fe'.heap.childrenOf p).count c = (fe.heap.childrenOf p).count c
  size : fe.heap.length ≤ fe'.heap.length

theorem Loose.step {fe : Frontend} (h : Loose fe) {data : Rts} (hid : data.parentScorepId ≠ 0) :
    ∃ fe', fe.constructCalltree data = .ok fe' ∧ Loose fe' ∧ Later fe fe' := by
  have hnonempty := h.nonempty
  have hlength : (fe.heap ++ [(⟨data, none, []⟩ : Cell Rts)]).length = fe.heap.length + 1 := by
    simp
  have hordered : Ordered (fe.heap ++ [⟨data, none, []⟩]) := by
    intro p c hc
    rw [childrenOf_arrived] at hc
    have := h.ordered p c hc
    omega
  obtain ⟨heap, hrun, hbesides, hordered'⟩ := insertFrontendNode_returns
    (fe.heap ++ [(⟨data, none, []⟩ : Cell Rts)]).length 0 _ hordered hlength (by omega) (by omega)
  have hsize := hbesides.size
  refine ⟨⟨heap, some 0⟩, ?_, ⟨rfl, ?_, hordered'⟩, ⟨?_, ?_, ?_⟩⟩
  · rw [Frontend.constructCalltree]
    simp only [hid, if_false, h.root, Outcome.found, Outcome.ok_bind, hrun]
    rfl
  · show 0 < heap.length
    omega
  · intro c hc
    show parentOf heap c = _
    rw [hbesides.parents c (by omega), parentOf, getElem?_arrived, if_neg (by omega)]
    rfl
  · intro p c hc
    show (heap.childrenOf p).count c = _
    rw [hbesides.counts p c (by omega), childrenOf_arrived]
  · show fe.heap.length ≤ heap.length
    omega

theorem Loose.run {datas : List Rts} : ∀ {fe : Frontend}, Loose fe →
    (∀ data ∈ datas, data.parentScorepId ≠ 0) →
    ∃ fe', datas.foldlM Frontend.constructCalltree fe = .ok fe' ∧ Later fe fe' := by
  induction datas with
  | nil => exact fun _ _ => ⟨_, rfl, ⟨fun _ _ => rfl, fun _ _ _ => rfl, le_rfl⟩⟩
  | cons data datas ih =>
    intro fe h hids
    obtain ⟨fe₁, hstep, h₁, hlater₁⟩ := h.step (hids data List.mem_cons_self)
    obtain ⟨fe₂, hrun, hlater₂⟩ := ih h₁ fun d hd => hids d (List.mem_cons_of_mem data hd)
    have hsize := hlater₁.size
    refine ⟨fe₂, by rw [List.foldlM_cons, hstep, Outcome.ok_bind, hrun], ?_, ?_, ?_⟩
    · intro c hc
      rw [hlater₂.parents c (by omega), hlater₁.parents c hc]
    · intro p c hc
      rw [hlater₂.counts p c (by omega), hlater₁.counts p c hc]
    · exact hsize.trans hlater₂.size

theorem Pushed.loose {k : ℕ} {S : Finset ℕ} {heap : Cells Rts} (h : Pushed tree k S heap)
    (hS : ∀ q ∈ S, q < k) : Loose ⟨heap, some 0⟩ := by
  have hsize := h.size
  refine ⟨rfl, ?_, ?_⟩
  · show 0 < heap.length
    omega
  · intro p c hc
    show p < c ∧ c < heap.length
    have hc' : c ∈ heap.childrenOf p := hc
    rw [h.children] at hc'
    cases List.mem_append.mp hc' with
    | inl hold =>
      obtain ⟨hlt, hparent⟩ := SentTree.mem_upto.mp hold
      have := (parent_lt tree.rooted hparent).1
      omega
    | inr hnew =>
      split_ifs at hnew with hin
      · rw [List.mem_singleton.mp hnew]
        have := hS p hin
        omega
      · exact absurd hnew List.not_mem_nil

theorem count_upto (k p c : ℕ) :
    (tree.upto k p).count c = if c < k ∧ parentOf tree.cells c = some p then 1 else 0 := by
  have hnodup : (tree.upto k p).Nodup := List.nodup_range.filter _
  rw [hnodup.count]
  simp only [SentTree.mem_upto]

theorem Faithful.isomorphic {fe : Frontend} (h : Faithful tree tree.cells.length fe) :
    Isomorphic tree fe := by
  have hsize := h.size
  have hnone : ∀ (heap : Cells Rts) a, heap.length ≤ a → heap[a]? = none :=
    fun heap a ha => List.getElem?_eq_none ha
  refine ⟨h.root, h.size, fun a => ?_, fun a => ?_, fun p c => ?_⟩
  · by_cases ha : a < tree.cells.length
    · rw [nameOf, h.data a ha, nameOf, Option.map_map]
      rfl
    · rw [nameOf, nameOf, dataOf, dataOf, hnone _ _ (by omega), hnone _ _ (by omega)]
  · by_cases ha : a < tree.cells.length
    · exact h.parents a ha
    · rw [parentOf, parentOf, hnone _ _ (by omega), hnone _ _ (by omega)]
  · rw [h.children, count_upto]
    by_cases hparent : parentOf tree.cells c = some p
    · have hlt := (parent_lt tree.rooted hparent).2
      simp [hparent, hlt]
    · simp [hparent]

/-- A node with other targets than its parent stays at them. -/
theorem not_isomorphic_of_later {k p : ℕ} {heap : Cells Rts} {S : Finset ℕ} {fe : Frontend}
    (h : Pushed tree k S heap) (hparent : parentOf tree.cells k = some p)
    (hlater : Later ⟨heap, some 0⟩ fe) (hiso : Isomorphic tree fe) (q : ℕ) : q ∈ S ↔ q = p := by
  have hsize := h.size
  have hcount := hlater.counts q k (show k < heap.length by omega)
  have hnone : (tree.upto k q).count k = 0 := by
    rw [count_upto]
    simp
  rw [hiso.once, hparent] at hcount
  have hheap : (heap.childrenOf q).count k = if q ∈ S then 1 else 0 := by
    rw [h.children, List.count_append, hnone, Nat.zero_add]
    split_ifs <;> simp
  have hboth : (if some p = some q then 1 else 0) = if q ∈ S then 1 else 0 := hcount.trans hheap
  by_cases hq : q ∈ S
  · rw [if_pos hq] at hboth
    split_ifs at hboth with heq
    exact iff_of_true hq (Option.some.inj heq).symm
  · rw [if_neg hq] at hboth
    split_ifs at hboth with heq
    exact iff_of_false hq fun h => heq (congrArg some h.symm)

/-- Once the first nodes are right, the tree is right in the end if the others are locatable. -/
theorem Faithful.run : ∀ (rest : List (Cell Rts)) {k : ℕ} {fe : Frontend}, k ≠ 0 →
    k ≤ tree.cells.length → tree.cells.drop k = rest → Faithful tree k fe →
    ∃ fe', (rest.map fun cell => sent cell.data).foldlM Frontend.constructCalltree fe = .ok fe' ∧
      (Isomorphic tree fe' ↔ ∀ j, k ≤ j → j < tree.cells.length → LocatableAt tree j) := by
  intro rest
  induction rest with
  | nil =>
    intro k fe hk hle hrest h
    have heq : k = tree.cells.length := le_antisymm hle (List.drop_eq_nil_iff.mp hrest)
    subst heq
    exact ⟨fe, rfl, iff_of_true h.isomorphic fun j hj hlt => by omega⟩
  | cons cell rest ih =>
    intro k fe hk hle hrest h
    have hlt : k < tree.cells.length := by
      by_contra hnot
      rw [List.drop_eq_nil_iff.mpr (by omega)] at hrest
      exact absurd hrest (by simp)
    rw [List.drop_eq_getElem_cons hlt, List.cons.injEq] at hrest
    have hcell : tree.cells[k]? = some cell := by rw [List.getElem?_eq_getElem hlt, hrest.1]
    have hdata : dataOf tree.cells k = some cell.data := by
      rw [dataOf, hcell]
      rfl
    obtain ⟨p, hp, -, -⟩ := tree.rooted.up k cell hcell hk
    have hparent : parentOf tree.cells k = some p := by
      rw [parentOf, hcell]
      exact hp
    obtain ⟨heap, S, hstep, hpushed, hmem⟩ := h.step hdata hk
    rw [List.map_cons, List.foldlM_cons, hstep, Outcome.ok_bind]
    by_cases hlocatable : LocatableAt tree k
    · have hS : ∀ q, q ∈ S ↔ q = p := fun q =>
        (hmem q).trans ((targets_iff hparent).mpr hlocatable q)
      obtain ⟨fe', hrun, hiff⟩ := ih (Nat.succ_ne_zero k) hlt hrest.2 (Faithful.succ hpushed hparent hS)
      refine ⟨fe', hrun, hiff.trans ?_⟩
      constructor
      · intro hall j hj hjlt
        by_cases heq : j = k
        · exact heq ▸ hlocatable
        · exact hall j (by omega) hjlt
      · exact fun hall j hj hjlt => hall j (by omega) hjlt
    · have hids : ∀ data ∈ rest.map fun cell => sent cell.data, data.parentScorepId ≠ 0 := by
        intro data hin
        obtain ⟨c, hc, rfl⟩ := List.mem_map.mp hin
        rw [← hrest.2] at hc
        obtain ⟨j, hj⟩ := List.mem_iff_getElem?.mp hc
        rw [List.getElem?_drop] at hj
        have hdataj : dataOf tree.cells (k + 1 + j) = some c.data := by
          rw [dataOf, hj]
          rfl
        exact fun hzero => absurd ((tree.parentIds _ _ hdataj).mp hzero) (by omega)
      obtain ⟨fe', hrun, hlater⟩ :=
        (hpushed.loose fun q hq => ((hmem q).mp hq).1).run hids
      refine ⟨fe', hrun, iff_of_false (fun hiso => hlocatable ?_) fun hall =>
        hlocatable (hall k le_rfl hlt)⟩
      apply (targets_iff hparent).mp
      intro q
      rw [← hmem q]
      exact not_isomorphic_of_later hpushed hparent hlater hiso q

/-- The frontend's tree is isomorphic to the agent's exactly if every node is locatable. -/
theorem send_isomorphic_iff (tree : SentTree) :
    ∃ fe, tree.send = .ok fe ∧ (Isomorphic tree fe ↔ Locatable tree) := by
  obtain ⟨root, hroot, hnone⟩ := tree.rooted.root
  have hlength := tree.rooted.nonempty
  have hdata : dataOf tree.cells 0 = some root.data := by
    rw [dataOf, hroot]
    rfl
  have hparent : parentOf tree.cells 0 = none := by
    rw [parentOf, hroot]
    exact hnone
  have hid : (sent root.data).parentScorepId = 0 := (tree.parentIds 0 root.data hdata).mpr rfl
  have hfirst : Faithful tree 1 ⟨[⟨sent root.data, none, []⟩], some 0⟩ := by
    refine ⟨rfl, rfl, fun a ha => ?_, fun a ha => ?_, fun p => ?_⟩
    · have hzero : a = 0 := by omega
      rw [hzero, hdata]
      rfl
    · have hzero : a = 0 := by omega
      rw [hzero, hparent]
      rfl
    · rw [SentTree.upto_succ, hparent]
      cases p <;> rfl
  obtain ⟨fe, hrun, hiff⟩ := hfirst.run (tree.cells.drop 1) Nat.one_ne_zero hlength rfl
  refine ⟨fe, ?_, hiff.trans ?_⟩
  · have hcells : tree.cells = root :: tree.cells.drop 1 := by
      rw [List.getElem?_eq_getElem hlength, Option.some.injEq] at hroot
      rw [← hroot]
      exact (List.drop_zero (l := tree.cells)).symm.trans (List.drop_eq_getElem_cons hlength)
    have hsend : tree.send = ((root :: tree.cells.drop 1).map fun cell =>
        sent cell.data).foldlM Frontend.constructCalltree .start := by
      rw [← hcells]
      rfl
    have hstart : Frontend.start.constructCalltree (sent root.data) =
        .ok ⟨[⟨sent root.data, none, []⟩], some 0⟩ := by
      rw [Frontend.constructCalltree]
      simp only [hid, if_true]
      rfl
    rw [hsend, List.map_cons, List.foldlM_cons, hstart, Outcome.ok_bind, hrun]
  · constructor
    · intro hall k p q hp
      have hk := parent_lt tree.rooted hp
      exact hall k (by omega) hk.2 p q hp
    · exact fun hall j _ _ => hall j

end Receiving

section AgentStrings

/-- The node has the call-path string of its call path. -/
def Labelled (h t : Cells Rts) (b : ℕ) : Prop :=
  ∀ path, CallPath h b path → callpathOf t b = makeCallpathString path

theorem makeCallpathString_append (path : List String) (name : String) :
    makeCallpathString (path ++ [name]) = makeCallpathString path ++ "/" ++ name := by
  rw [makeCallpathString, List.foldl_append, makeCallpathString, String.append_assoc]
  rfl

theorem callpathOf_write (t : Cells Rts) (a b : ℕ) (f : Rts → Rts) :
    callpathOf (t.write a f) b =
      if a = b then ((dataOf t a).map fun data => (f data).callpathstring).getD ""
      else callpathOf t b := by
  rw [callpathOf, dataOf_write, Option.map_map]
  by_cases heq : a = b
  · subst heq
    simp only [if_true]
    rfl
  · simp only [heq, if_false]
    rfl

/-- What the recursion below a node labels, and that no label is lost. -/
theorem setCallPaths_labels {h : Cells Rts} (hr : h.Rooted) :
    ∀ (depth node : ℕ) (callpathStrings : List String) (name : String)
      (s s' : Cells Rts × OrdMap ℕ String), CallPath h node (callpathStrings ++ [name]) →
      SameNodes h s.1 → setCallPaths depth node callpathStrings s = .ok s' →
      SameNodes h s'.1 ∧ (∀ b, Labelled h s.1 b → Labelled h s'.1 b) ∧
        ∀ b, Under h node b → Labelled h s'.1 b := by
  intro depth
  induction depth with
  | zero => exact fun node callpathStrings name s s' _ _ hrun => absurd hrun (by simp [setCallPaths])
  | succ depth ih =>
    intro node callpathStrings name s s' hpath hsame hrun
    obtain ⟨t, m⟩ := s
    have hnode := hpath.lt_length
    have hlength := hsame.length_eq
    simp only at hlength
    have hget : t[node]? = some t[node] := List.getElem?_eq_getElem (by omega)
    rw [setCallPaths, hget] at hrun
    simp only [Outcome.found, Outcome.ok_bind] at hrun
    have hname : t[node].data.regionName = name := by
      have ht : CallPath t node (callpathStrings ++ [name]) := hpath.of_skeleton hsame.skeleton.symm
      cases Cells.pathTo_iff.mp ht with
      | inl hroot =>
        obtain ⟨hzero, cell, hcell, heq⟩ := hroot
        rw [← hzero, hget, Option.some.injEq] at hcell
        have hlast := congrArg List.getLast? heq
        simp only [List.getLast?_append, List.getLast?_singleton, Option.some_or,
          Option.some.injEq] at hlast
        rw [hcell, hlast]
      | inr hbelow =>
        obtain ⟨p, init, cell, -, -, hcell, heq⟩ := hbelow
        rw [hget, Option.some.injEq] at hcell
        rw [hcell, (List.cons.inj (List.append_inj' heq rfl).2).1]
    have hchildren : t[node].children = h.childrenOf node := by
      rw [← hsame.childrenOf, Cells.childrenOf, hget]
      rfl
    rw [hname, hchildren] at hrun
    obtain ⟨t₁, ht₁⟩ : ∃ t₁, t₁ = t.write node fun data => { data with
        callpathstring := makeCallpathString (callpathStrings ++ [name])
        parameter := inherited (t[node].parent.bind (dataOf t)) t[node].data
        isValidRts := setValidRts t node } := ⟨_, rfl⟩
    rw [← ht₁] at hrun
    have hsame₁ : SameNodes h t₁ := by
      rw [ht₁]
      apply SameNodes.write hsame
      exact fun _ => rfl
    have hlabel₁ : ∀ b, callpathOf t₁ b = if node = b then
        makeCallpathString (callpathStrings ++ [name]) else callpathOf t b := by
      intro b
      rw [ht₁, callpathOf_write, dataOf, hget]
      rfl
    have hself : Labelled h t₁ node := by
      intro path hpath'
      rw [hlabel₁, if_pos rfl, hpath.functional hr hpath']
    have hmono₁ : ∀ b, Labelled h t b → Labelled h t₁ b := by
      intro b hb
      by_cases heq : node = b
      · exact heq ▸ hself
      · intro path hpath'
        rw [hlabel₁, if_neg heq]
        exact hb path hpath'
    have hloop : ∀ (cs : List ℕ) (s₁ s₂ : Cells Rts × OrdMap ℕ String),
        (∀ c ∈ cs, c ∈ h.childrenOf node) → SameNodes h s₁.1 →
        cs.foldlM (fun s child => setCallPaths depth child (callpathStrings ++ [name]) s) s₁ =
          .ok s₂ →
        SameNodes h s₂.1 ∧ (∀ b, Labelled h s₁.1 b → Labelled h s₂.1 b) ∧
          ∀ c ∈ cs, ∀ b, Under h c b → Labelled h s₂.1 b := by
      intro cs
      induction cs with
      | nil =>
        intro s₁ s₂ _ hs hfold
        exact Outcome.ok.inj hfold ▸ ⟨hs, fun b hb => hb, fun c hc => absurd hc List.not_mem_nil⟩
      | cons c cs ihcs =>
        intro s₁ s₂ hcs hs hfold
        rw [List.foldlM_cons] at hfold
        obtain ⟨s₃, hfirst, hrest⟩ := Outcome.bind_eq_ok.mp hfold
        have hc := hcs c List.mem_cons_self
        obtain ⟨cell, hcell, -⟩ := hr.down node c hc
        obtain ⟨hs₃, hmono₃, hbelow₃⟩ := ih c _ cell.data.regionName s₁ s₃
          (.child node c _ cell hpath hc hcell) hs hfirst
        obtain ⟨hs₂, hmono₂, hbelow₂⟩ := ihcs s₃ s₂ (fun d hd => hcs d (List.mem_cons_of_mem c hd))
          hs₃ hrest
        refine ⟨hs₂, fun b hb => hmono₂ b (hmono₃ b hb), fun d hd b hb => ?_⟩
        cases List.mem_cons.mp hd with
        | inl heq => exact hmono₂ b (hbelow₃ b (heq ▸ hb))
        | inr hin => exact hbelow₂ d hin b hb
    obtain ⟨hs', hmono, hbelow⟩ := hloop (h.childrenOf node) _ s' (fun c hc => hc) hsame₁ hrun
    refine ⟨hs', fun b hb => hmono b (hmono₁ b hb), fun b hb => ?_⟩
    cases hb with
    | here => exact hmono node hself
    | down _ c _ hparent hunder =>
      have hlt := parent_lt hr hparent
      obtain ⟨p, hp, -, hchild⟩ := hr.up c h[c] (List.getElem?_eq_getElem hlt.2) (by omega)
      rw [parentOf, List.getElem?_eq_getElem hlt.2] at hparent
      have heq : p = node := Option.some.inj (hp.symm.trans hparent)
      exact hbelow c (heq ▸ hchild) b hunder

/-- The strings of an agent's tree are as the frontend expects them. -/
theorem addNodeInfo_callpaths {agent agent' : Agent} (hr : agent.tree.Rooted)
    (h : addNodeInfo agent = .ok agent') : agent'.tree.Rooted ∧
      ∀ c p, parentOf agent'.tree c = some p → callpathOf agent'.tree c =
        callpathOf agent'.tree p ++ "/" ++ regionNameOf agent'.tree c := by
  cases hset : setCallPaths agent.tree.length 0 [] (agent.tree, agent.rtsCallpath) with
  | ok s =>
    rw [addNodeInfo, hset] at h
    have hagent' : agent'.tree = s.1 := by rw [← Outcome.ok.inj h]
    obtain ⟨root, hroot, -⟩ := hr.root
    obtain ⟨hsame, -, hbelow⟩ := setCallPaths_labels hr _ 0 [] root.data.regionName _ s
      (.root root hroot) (show SameNodes agent.tree agent.tree from rfl) hset
    rw [hagent']
    refine ⟨hr.of_skeleton hsame.skeleton.symm, fun c p hparent => ?_⟩
    have hparent' : parentOf agent.tree c = some p :=
      (parentOf_of_skeleton hsame.skeleton c).trans hparent
    have hlt := parent_lt hr hparent'
    have hexists : ∃ path, CallPath agent.tree p path := hr.exists_path p (by omega)
    obtain ⟨path, hpath⟩ := hexists
    obtain ⟨q, hq, -, hchild⟩ := hr.up c _ (List.getElem?_eq_getElem hlt.2) (by omega)
    have heq : q = p := by
      rw [parentOf, List.getElem?_eq_getElem hlt.2] at hparent'
      exact Option.some.inj (hq.symm.trans hparent')
    have hpathc : CallPath agent.tree c (path ++ [agent.tree[c].data.regionName]) :=
      .child p c path _ hpath (heq ▸ hchild) (List.getElem?_eq_getElem hlt.2)
    have hname : regionNameOf s.1 c = agent.tree[c].data.regionName := by
      obtain ⟨cell', hcell', hsamename, -⟩ := Cells.getElem?_of_skeleton hsame.skeleton.symm
        (List.getElem?_eq_getElem hlt.2)
      rw [regionNameOf, dataOf, hcell']
      exact hsamename
    rw [hbelow c (under_root hr c hlt.2) _ hpathc,
      hbelow p (under_root hr p (by omega)) _ hpath, hname, makeCallpathString_append]
  | _ => exact absurd h (by simp [addNodeInfo, hset])

end AgentStrings

/-- A region name with a slash in it makes two call paths one string. -/
def slashedCells : Cells Rts :=
  [⟨⟨"main", 1, 0, .regularRegion, some 1, [], "/main", true⟩, none, [1, 2]⟩,
    ⟨⟨"a/b", 2, 1, .regularRegion, some 2, [], "/main/a/b", true⟩, some 0, []⟩,
    ⟨⟨"a", 3, 1, .regularRegion, some 3, [], "/main/a", true⟩, some 0, [3]⟩,
    ⟨⟨"b", 4, 3, .regularRegion, some 4, [], "/main/a/b", true⟩, some 2, [4]⟩,
    ⟨⟨"c", 5, 4, .regularRegion, some 5, [], "/main/a/b/c", true⟩, some 3, []⟩]

def slashedTree : SentTree where
  cells := slashedCells
  rooted := by
    constructor
    · exact ⟨_, rfl, rfl⟩
    · intro c cell hcell hne
      have hall : ∀ c < 5, c ≠ 0 → ∃ p < c, parentOf slashedCells c = some p ∧
          c ∈ slashedCells.childrenOf p := by decide
      obtain ⟨p, hlt, hparent, hchild⟩ := hall c (List.getElem?_eq_some_iff.mp hcell).1 hne
      rw [parentOf, hcell] at hparent
      exact ⟨p, hparent, hlt, hchild⟩
    · intro p c hchild
      have hall : ∀ p < 5, ∀ c ∈ slashedCells.childrenOf p, parentOf slashedCells c = some p := by
        decide
      have hp : p < 5 := by
        by_contra hge
        have hnone : slashedCells[p]? = none := List.getElem?_eq_none (by simpa [slashedCells] using hge)
        simp [Cells.childrenOf, hnone] at hchild
      have hparent := hall p hp c hchild
      rw [parentOf] at hparent
      exact Option.bind_eq_some_iff.mp hparent
  callpaths := by
    have hall : ∀ c < 5, ∀ p < 5, parentOf slashedCells c = some p → callpathOf slashedCells c =
        callpathOf slashedCells p ++ "/" ++ regionNameOf slashedCells c := by decide
    intro c p hparent
    obtain ⟨cell, hcell, hp⟩ := Option.bind_eq_some_iff.mp hparent
    have hc : c < 5 := (List.getElem?_eq_some_iff.mp hcell).1
    have holder : ∀ c < 5, ∀ p ∈ parentOf slashedCells c, p < 5 := by decide
    exact hall c hc p (holder c hc p hparent) hparent
  parentIds := by
    intro a data hdata
    have hall : ∀ a < 5, ∀ data ∈ dataOf slashedCells a, data.parentScorepId = 0 ↔ a = 0 := by
      decide
    obtain ⟨cell, hcell, -⟩ := Option.map_eq_some_iff.mp hdata
    exact hall a (List.getElem?_eq_some_iff.mp hcell).1 data hdata

/-- The strings of that tree's nodes, slashes in the names or not. -/
theorem addNodeInfo_callpaths_slashed : ∃ agent',
    addNodeInfo ⟨slashedCells, [], .empty, .empty⟩ = .ok agent' ∧
      callpathOf agent'.tree 3 = callpathOf agent'.tree 2 ++ "/" ++ regionNameOf agent'.tree 3 := by
  obtain ⟨agent', hadd⟩ : ∃ agent', addNodeInfo ⟨slashedCells, [], .empty, .empty⟩ = .ok agent' :=
    ⟨_, rfl⟩
  have hparent : parentOf agent'.tree 3 = some 2 := by
    rw [← Outcome.ok.inj hadd]
    rfl
  exact ⟨agent', hadd, (addNodeInfo_callpaths slashedTree.rooted hadd).2 3 2 hparent⟩

/-- The node "c" comes below both nodes with the string "/main/a/b". -/
theorem send_not_isomorphic :
    ¬ ∀ tree : SentTree, ∃ fe, tree.send = .ok fe ∧ Isomorphic tree fe := by
  intro hall
  obtain ⟨fe, hsend, hiso⟩ := hall slashedTree
  have hrun : (slashedTree.send >>= fun fe => .ok ((fe.heap.childrenOf 1).count 4)) = .ok 1 := by
    decide +kernel
  rw [hsend] at hrun
  have honce := hiso.once 1 4
  have hcount : (fe.heap.childrenOf 1).count 4 = 1 := Outcome.ok.inj hrun
  rw [hcount] at honce
  exact absurd honce (by decide)

end ReadexPtf.Rtstree
