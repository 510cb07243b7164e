import ReadexPtf.Rts.AgentRuns

/-! `setCallPaths` with the vector that its calls share: every node gets the path from the
root to it, and a second traversal changes nothing. -/
namespace ReadexPtf.Rtstree
open ReadexPtf

section Traversal
variable {μ : Type} (insert : ℕ → String → μ → μ)

/-- The recursion is as deep as the tree. A call pushes its name and pops it at the end, a leaf
before and another node after its last child; `insert` is what the overload with a mapping does. -/
def setCallPathsOn : ℕ → ℕ → List String × Cells Rts × μ →
    Outcome (List String × Cells Rts × μ)
  | 0, _, _ => .undefined
  | depth + 1, node, (callpathStrings, tree, rtscallpathMapping) => do
    let cell ← Outcome.found tree[node]?
    let callpathStrings := callpathStrings ++ [cell.data.regionName]
    let callpathstring := makeCallpathString callpathStrings
    let parameter := inherited (cell.parent.bind (dataOf tree)) cell.data
    let callpathStrings :=
      if cell.children.isEmpty then callpathStrings.dropLast else callpathStrings
    let tree := tree.write node fun data => { data with
      callpathstring, parameter, isValidRts := setValidRts tree node }
    let s ← cell.children.foldlM (fun s child => setCallPathsOn depth child s)
      (callpathStrings, tree, insert node callpathstring rtscallpathMapping)
    return if cell.children.isEmpty then s else (s.1.dropLast, s.2)

end Traversal

section Propagation

theorem mem_propagate {parentParameter parameter : List Parameter} {p : Parameter} :
    p ∈ propagate parentParameter parameter ↔ p ∈ parentParameter ∨ p ∈ parameter := by
  rw [propagate]
  induction parentParameter generalizing parameter with
  | nil => simp
  | cons q parentParameter ih =>
    rw [List.foldl_cons, ih]
    split_ifs with hin
    · rw [List.mem_cons]
      constructor
      · exact fun h => h.elim (fun hp => .inl (.inr hp)) .inr
      · exact fun h => h.elim (fun hp => hp.elim (fun heq => .inr (heq ▸ hin)) .inl) .inr
    · rw [List.mem_cons, List.mem_cons]
      tauto

theorem propagate_of_subset {parentParameter parameter : List Parameter}
    (h : ∀ p ∈ parentParameter, p ∈ parameter) : propagate parentParameter parameter = parameter := by
  rw [propagate]
  induction parentParameter with
  | nil => rfl
  | cons q parentParameter ih =>
    rw [List.foldl_cons, if_pos (h q List.mem_cons_self)]
    exact ih fun p hp => h p (List.mem_cons_of_mem q hp)

/-- What a parent hands down is handed down once. -/
theorem inherited_again (parent : Option Rts) (node node' : Rts)
    (htype : node'.rtsType = node.rtsType) (hparameter : node'.parameter = inherited parent node) :
    inherited parent node' = node'.parameter := by
  cases parent with
  | none => rfl
  | some parent =>
    simp only [inherited] at hparameter ⊢
    rw [htype]
    split_ifs at hparameter ⊢ with hboth
    · apply propagate_of_subset
      intro p hp
      rw [hparameter]
      exact mem_propagate.mpr (.inl hp)
    · rfl

end Propagation

section Settled

/-- The data that a traversal does not write. -/
def Rts.unwritten (data : Rts) : Rts :=
  { data with callpathstring := "", parameter := [], isValidRts := false }

/-- The trees differ in nothing but what a traversal writes. -/
def OnlyPaths (h tree : Cells Rts) : Prop :=
  Cells.skeleton Rts.unwritten tree = Cells.skeleton Rts.unwritten h

/-- What a call leaves at its node. -/
def settledData (tree : Cells Rts) (a : ℕ) (path : List String) (data : Rts) : Rts :=
  { data with
    callpathstring := makeCallpathString path
    parameter := inherited ((parentOf tree a).bind (dataOf tree)) data
    isValidRts := setValidRts tree a }

/-- A call would leave the node as it is. -/
def Settled (tree : Cells Rts) (a : ℕ) (path : List String) : Prop :=
  ∀ data, dataOf tree a = some data → settledData tree a path data = data

variable {h tree : Cells Rts}

theorem OnlyPaths.getElem? (hsame : OnlyPaths h tree) (a : ℕ) :
    (tree[a]?).map (fun cell => (cell.data.unwritten, cell.parent, cell.children)) =
      (h[a]?).map fun cell => (cell.data.unwritten, cell.parent, cell.children) := by
  have hget := congrArg (fun l => l[a]?) hsame
  simpa [Cells.skeleton] using hget

theorem OnlyPaths.parentOf (hsame : OnlyPaths h tree) (a : ℕ) :
    Rtstree.parentOf tree a = Rtstree.parentOf h a := by
  have hget := congrArg (fun o => o.bind fun x => x.2.1) (hsame.getElem? a)
  simpa [Rtstree.parentOf, Option.bind_map, Function.comp_def] using hget

theorem OnlyPaths.childrenOf (hsame : OnlyPaths h tree) (a : ℕ) :
    tree.childrenOf a = h.childrenOf a := (Cells.childrenOf_of_skeleton hsame a).symm

theorem OnlyPaths.nameOf (hsame : OnlyPaths h tree) (a : ℕ) :
    Rtstree.nameOf tree a = Rtstree.nameOf h a := by
  have hget := congrArg (Option.map fun x => x.1.regionName) (hsame.getElem? a)
  simpa [Rtstree.nameOf, dataOf, Option.map_map, Function.comp_def, Rts.unwritten] using hget

theorem OnlyPaths.length_eq (hsame : OnlyPaths h tree) : tree.length = h.length := by
  have hlength := congrArg List.length hsame
  simpa [Cells.skeleton] using hlength

theorem setValidRts_write (tree : Cells Rts) (a b : ℕ) (f : Rts → Rts)
    (htype : ∀ data, (f data).rtsType = data.rtsType) :
    setValidRts (tree.write b f) a = setValidRts tree a := by
  have hany : hasParameterChild (tree.write b f) a = hasParameterChild tree a := by
    rw [hasParameterChild, hasParameterChild, Cells.childrenOf_write]
    congr 1
    funext c
    rw [dataOf_write]
    cases dataOf tree c with
    | none => rfl
    | some data =>
      simp only [Option.map_some]
      split_ifs
      · rw [htype]
      · rfl
  rw [setValidRts, setValidRts, hany, Cells.childrenOf_write]

theorem write_eq_self {a : ℕ} {f : Rts → Rts}
    (hf : ∀ data, dataOf tree a = some data → f data = data) : tree.write a f = tree := by
  apply List.ext_getElem?
  intro b
  rw [Cells.getElem?_write]
  cases hcell : tree[b]? with
  | none => rfl
  | some cell =>
    rw [Option.map_some]
    split_ifs with heq
    · subst heq
      have hdata : dataOf tree a = some cell.data := by
        rw [dataOf, hcell]
        rfl
      rw [hf cell.data hdata]
    · rfl

theorem OnlyPaths.visit (hsame : OnlyPaths h tree) (a : ℕ) (path : List String) :
    OnlyPaths h (tree.write a (settledData tree a path)) :=
  (Cells.skeleton_write tree a (settledData tree a path) fun _ => rfl).trans hsame

/-- A node is settled after its call. -/
theorem settled_visit (hr : tree.Rooted) (a : ℕ) (path : List String) :
    Settled (tree.write a (settledData tree a path)) a path := by
  intro data hdata
  rw [dataOf_write] at hdata
  obtain ⟨before, -, hafter⟩ := Option.map_eq_some_iff.mp hdata
  rw [if_pos rfl] at hafter
  have hparent : (parentOf (tree.write a (settledData tree a path)) a).bind
      (dataOf (tree.write a (settledData tree a path))) = (parentOf tree a).bind (dataOf tree) := by
    rw [parentOf_write]
    cases hup : parentOf tree a with
    | none => rfl
    | some p =>
      have hne : a ≠ p := by
        have := (parent_lt hr hup).1
        omega
      rw [Option.bind_some, Option.bind_some, dataOf_write]
      simp [hne]
  rw [settledData, hparent, setValidRts_write tree a a (settledData tree a path) fun _ => rfl]
  have hagain := inherited_again ((parentOf tree a).bind (dataOf tree)) before data
    (by rw [← hafter]; rfl) (by rw [← hafter]; rfl)
  rw [hagain, ← hafter]
  rfl

/-- The calls at other nodes leave a node settled, unless they are at its parent. -/
theorem Settled.visit {a b : ℕ} {path path' : List String} (hsettled : Settled tree a path)
    (hne : b ≠ a) (hparent : parentOf tree a ≠ some b) :
    Settled (tree.write b (settledData tree b path')) a path := by
  intro data hdata
  rw [dataOf_write, Option.map_eq_some_iff] at hdata
  obtain ⟨before, hbefore, hafter⟩ := hdata
  rw [if_neg hne] at hafter
  have hup : (parentOf (tree.write b (settledData tree b path')) a).bind
      (dataOf (tree.write b (settledData tree b path'))) = (parentOf tree a).bind (dataOf tree) := by
    rw [parentOf_write]
    cases hp : parentOf tree a with
    | none => rfl
    | some p =>
      have hother : ¬ b = p := fun heq => hparent (heq ▸ hp)
      rw [Option.bind_some, Option.bind_some, dataOf_write]
      simp [hother]
  rw [settledData, hup, setValidRts_write tree a b (settledData tree b path') fun _ => rfl]
  exact hafter ▸ hsettled before hbefore

end Settled

section Visits

/-- The calls of a traversal in their order, each with the path to its node. -/
def visits (h : Cells Rts) : ℕ → ℕ → List String → List (ℕ × List String)
  | 0, _, _ => []
  | depth + 1, node, callpathStrings =>
    let path := callpathStrings ++ ((nameOf h node).toList)
    (node, path) :: (h.childrenOf node).flatMap fun child => visits h depth child path

variable {μ : Type} (insert : ℕ → String → μ → μ) {h tree : Cells Rts}

def visit (s : Cells Rts × μ) (call : ℕ × List String) : Cells Rts × μ :=
  (s.1.write call.1 (settledData s.1 call.1 call.2),
    insert call.1 (makeCallpathString call.2) s.2)

theorem foldl_visit_onlyPaths (calls : List (ℕ × List String)) : ∀ (s : Cells Rts × μ),
    OnlyPaths h s.1 → OnlyPaths h (calls.foldl (visit insert) s).1 := by
  induction calls with
  | nil => exact fun _ hsame => hsame
  | cons call calls ih => exact fun s hsame => ih _ (hsame.visit call.1 call.2)

/-- The recursion makes the calls one after another and leaves the shared vector as it was. -/
theorem setCallPathsOn_eq : ∀ (depth node : ℕ) (callpathStrings : List String)
    (s : Cells Rts × μ), h.Within depth node → OnlyPaths h s.1 →
    setCallPathsOn insert depth node (callpathStrings, s) =
      .ok (callpathStrings, (visits h depth node callpathStrings).foldl (visit insert) s) := by
  intro depth
  induction depth with
  | zero => exact fun _ _ _ hwithin => absurd hwithin id
  | succ depth ih =>
    intro node callpathStrings s hwithin hsame
    obtain ⟨tree, rtscallpathMapping⟩ := s
    obtain ⟨hnode, hbelow⟩ := hwithin
    have hlength := hsame.length_eq
    simp only at hlength
    obtain ⟨cell, hcell⟩ : ∃ cell, tree[node]? = some cell :=
      ⟨_, List.getElem?_eq_getElem (by omega)⟩
    have hname : nameOf h node = some cell.data.regionName := by
      rw [← hsame.nameOf, nameOf, dataOf, hcell]
      rfl
    have hchildren : cell.children = h.childrenOf node := by
      rw [← hsame.childrenOf, Cells.childrenOf, hcell]
      rfl
    have hwrite : tree.write node (settledData tree node (callpathStrings ++ [cell.data.regionName])) =
        tree.write node fun data => { data with
          callpathstring := makeCallpathString (callpathStrings ++ [cell.data.regionName])
          parameter := inherited (cell.parent.bind (dataOf tree)) cell.data
          isValidRts := setValidRts tree node } := by
      apply List.ext_getElem?
      intro b
      rw [Cells.getElem?_write, Cells.getElem?_write]
      by_cases hb : node = b
      · subst hb
        rw [hcell, Option.map_some, Option.map_some, if_pos rfl, if_pos rfl, settledData, parentOf,
          hcell]
        rfl
      · simp [hb]
    -- the loop over the children
    have hloop : ∀ (children : List ℕ) (strings : List String) (s : Cells Rts × μ),
        (∀ c ∈ children, h.Within depth c) → OnlyPaths h s.1 →
        children.foldlM (fun s child => setCallPathsOn insert depth child s) (strings, s) =
          .ok (strings, (children.flatMap fun child => visits h depth child strings).foldl
            (visit insert) s) := by
      intro children
      induction children with
      | nil => exact fun _ _ _ _ => rfl
      | cons child children ihchildren =>
        intro strings s hwithin hsame
        rw [List.foldlM_cons, ih child strings s (hwithin child List.mem_cons_self) hsame,
          Outcome.ok_bind, List.flatMap_cons, List.foldl_append]
        exact ihchildren strings _ (fun c hc => hwithin c (List.mem_cons_of_mem child hc))
          (foldl_visit_onlyPaths insert _ s hsame)
    rw [setCallPathsOn, hcell]
    simp only [Outcome.found, Outcome.ok_bind, ← hwrite]
    rw [visits, hname, Option.toList_some, List.foldl_cons, hchildren]
    have hvisited := hsame.visit node (callpathStrings ++ [cell.data.regionName])
    rw [hloop _ _ _ hbelow hvisited, Outcome.ok_bind]
    by_cases hleaf : h.childrenOf node = []
    · simp only [hleaf, List.isEmpty_nil, if_true, List.dropLast_concat, List.flatMap_nil]
      rfl
    · have hnot : (h.childrenOf node).isEmpty = false := by
        rw [← Bool.not_eq_true, List.isEmpty_iff]
        exact hleaf
      simp only [hnot, Bool.false_eq_true, if_false, List.dropLast_concat]
      rfl

/-- The parent of every node is called before it, or was before the calls. -/
def ParentsFirst (h : Cells Rts) : List ℕ → List (ℕ × List String) → Prop
  | _, [] => True
  | seen, call :: calls =>
    (∀ p, parentOf h call.1 = some p → p ∈ seen) ∧ ParentsFirst h (call.1 :: seen) calls

theorem ParentsFirst.mono {calls : List (ℕ × List String)} : ∀ {seen seen' : List ℕ},
    ParentsFirst h seen calls → (∀ a ∈ seen, a ∈ seen') → ParentsFirst h seen' calls := by
  induction calls with
  | nil => exact fun _ _ => trivial
  | cons call calls ih =>
    intro seen seen' hfirst hsub
    refine ⟨fun p hp => hsub p (hfirst.1 p hp), ih hfirst.2 fun a ha => ?_⟩
    exact (List.mem_cons.mp ha).elim (fun heq => heq ▸ List.mem_cons_self)
      fun hin => List.mem_cons_of_mem _ (hsub a hin)

theorem ParentsFirst.append {calls calls' : List (ℕ × List String)} : ∀ {seen : List ℕ},
    ParentsFirst h seen calls → ParentsFirst h seen calls' →
    ParentsFirst h seen (calls ++ calls') := by
  induction calls with
  | nil => exact fun _ hrest => hrest
  | cons call calls ih =>
    intro seen hfirst hrest
    exact ⟨hfirst.1, ih hfirst.2 (hrest.mono fun a ha => List.mem_cons_of_mem _ ha)⟩

theorem visits_parentsFirst (hr : h.Rooted) : ∀ (depth node : ℕ) (callpathStrings : List String)
    (seen : List ℕ), (∀ p, parentOf h node = some p → p ∈ seen) →
    ParentsFirst h seen (visits h depth node callpathStrings) := by
  intro depth
  induction depth with
  | zero => exact fun _ _ _ _ => trivial
  | succ depth ih =>
    intro node callpathStrings seen hseen
    refine ⟨hseen, ?_⟩
    have hloop : ∀ children : List ℕ, (∀ c ∈ children, c ∈ h.childrenOf node) →
        ParentsFirst h (node :: seen) (children.flatMap fun child =>
          visits h depth child (callpathStrings ++ (nameOf h node).toList)) := by
      intro children
      induction children with
      | nil => exact fun _ => trivial
      | cons child children ihchildren =>
        intro hchildren
        have hup := parentOf_of_child hr (hchildren child List.mem_cons_self)
        rw [List.flatMap_cons]
        refine (ih child _ _ fun p hp => ?_).append
          (ihchildren fun c hc => hchildren c (List.mem_cons_of_mem child hc))
        rw [hup, Option.some.injEq] at hp
        exact hp ▸ List.mem_cons_self
    exact hloop (h.childrenOf node) fun c hc => hc

theorem nameOf_of_child (hr : h.Rooted) {p c : ℕ} (hc : c ∈ h.childrenOf p) :
    ∃ name, nameOf h c = some name := by
  obtain ⟨cell, hcell, -⟩ := hr.down p c hc
  refine ⟨cell.data.regionName, ?_⟩
  rw [nameOf, dataOf, hcell]
  rfl

theorem visits_callPath (hr : h.Rooted) : ∀ (depth node : ℕ) (callpathStrings : List String),
    CallPath h node (callpathStrings ++ (nameOf h node).toList) →
    ∀ call ∈ visits h depth node callpathStrings, CallPath h call.1 call.2 := by
  intro depth
  induction depth with
  | zero => exact fun _ _ _ call hcall => absurd hcall List.not_mem_nil
  | succ depth ih =>
    intro node callpathStrings hpath call hcall
    cases List.mem_cons.mp hcall with
    | inl heq => exact heq ▸ hpath
    | inr hbelow =>
      obtain ⟨child, hchild, hin⟩ := List.mem_flatMap.mp hbelow
      obtain ⟨name, hname⟩ := nameOf_of_child hr hchild
      refine ih child _ ?_ call hin
      rw [hname]
      exact callPath_child hpath hchild hname

/-- The calls reach every node. -/
theorem mem_visits {depth : ℕ} (hwithin : h.Within depth 0) {a : ℕ}
    {path : List String} (hpath : CallPath h a path) :
    (a, path) ∈ visits h depth 0 [] := by
  have hreach : ∃ rest above, h.Within rest a ∧ path = above ++ (nameOf h a).toList ∧
      ∀ call ∈ visits h rest a above, call ∈ visits h depth 0 [] := by
    induction hpath with
    | root cell hcell =>
      refine ⟨depth, [], hwithin, ?_, fun call hcall => hcall⟩
      rw [nameOf, dataOf, hcell]
      rfl
    | child p c path cell _ hchild hcell ih =>
      obtain ⟨rest, above, hrest, heq, hsub⟩ := ih
      cases rest with
      | zero => exact absurd hrest id
      | succ rest =>
        refine ⟨rest, path, hrest.2 c hchild, ?_, fun call hcall => hsub call ?_⟩
        · rw [nameOf, dataOf, hcell]
          rfl
        · rw [visits]
          exact List.mem_cons_of_mem _ (List.mem_flatMap.mpr ⟨c, hchild, heq ▸ hcall⟩)
  obtain ⟨rest, above, hrest, heq, hsub⟩ := hreach
  cases rest with
  | zero => exact absurd hrest id
  | succ rest => exact heq ▸ hsub _ List.mem_cons_self

/-- What holds between the calls: the nodes called so far are settled. -/
structure CalledSettled (h : Cells Rts) (seen : List ℕ) (tree : Cells Rts) : Prop where
  same : OnlyPaths h tree
  closed : ∀ a ∈ seen, ∀ p, parentOf h a = some p → p ∈ seen
  settled : ∀ a ∈ seen, ∀ path, CallPath h a path → Settled tree a path

theorem OnlyPaths.rooted (hsame : OnlyPaths h tree) (hr : h.Rooted) : tree.Rooted :=
  hr.of_skeleton hsame.symm

theorem CalledSettled.visit {seen : List ℕ} (hinv : CalledSettled h seen tree) (hr : h.Rooted)
    {a : ℕ} {path : List String} (hpath : CallPath h a path)
    (hparent : ∀ p, parentOf h a = some p → p ∈ seen) :
    CalledSettled h (a :: seen) (tree.write a (settledData tree a path)) := by
  refine ⟨hinv.same.visit a path, fun b hb p hp => ?_, fun b hb path' hpath' => ?_⟩
  · cases List.mem_cons.mp hb with
    | inl heq => exact List.mem_cons_of_mem a (hparent p (heq ▸ hp))
    | inr hin => exact List.mem_cons_of_mem a (hinv.closed b hin p hp)
  · by_cases heq : b = a
    · subst heq
      rw [hpath'.functional hr hpath]
      exact settled_visit (hinv.same.rooted hr) b path
    · have hin : b ∈ seen := (List.mem_cons.mp hb).resolve_left heq
      by_cases ha : a ∈ seen
      · -- a second call at the node writes what is there
        rw [write_eq_self (hinv.settled a ha path hpath)]
        exact hinv.settled b hin path' hpath'
      · apply (hinv.settled b hin path' hpath').visit (Ne.symm heq)
        intro hup
        rw [hinv.same.parentOf] at hup
        exact ha (hinv.closed b hin a hup)

theorem foldl_visit_settled (hr : h.Rooted) (calls : List (ℕ × List String)) :
    ∀ {seen : List ℕ} (s : Cells Rts × μ), CalledSettled h seen s.1 → ParentsFirst h seen calls →
      (∀ call ∈ calls, CallPath h call.1 call.2) →
      ∃ seen', CalledSettled h seen' (calls.foldl (visit insert) s).1 ∧
        ∀ a, a ∈ seen ∨ a ∈ calls.map Prod.fst → a ∈ seen' := by
  induction calls with
  | nil => exact fun {seen} s hinv _ _ => ⟨seen, hinv, fun a ha => ha.elim id (by simp)⟩
  | cons call calls ih =>
    intro seen s hinv hfirst hpaths
    obtain ⟨seen', hinv', hsub⟩ := ih (visit insert s call)
      (hinv.visit hr (hpaths call List.mem_cons_self) hfirst.1) hfirst.2
      fun c hc => hpaths c (List.mem_cons_of_mem call hc)
    refine ⟨seen', hinv', fun a ha => hsub a ?_⟩
    rw [List.map_cons, List.mem_cons] at ha
    rw [List.mem_cons]
    tauto

/-- Calls at settled nodes leave the tree. -/
theorem foldl_visit_eq_self (calls : List (ℕ × List String)) : ∀ s : Cells Rts × μ,
    (∀ call ∈ calls, Settled s.1 call.1 call.2) → (calls.foldl (visit insert) s).1 = s.1 := by
  induction calls with
  | nil => exact fun _ _ => rfl
  | cons call calls ih =>
    intro s hsettled
    have hsame : (visit insert s call).1 = s.1 :=
      write_eq_self (hsettled call List.mem_cons_self)
    rw [List.foldl_cons, ih _ fun c hc => ?_, hsame]
    rw [hsame]
    exact hsettled c (List.mem_cons_of_mem call hc)

end Visits

section Overloads

/-- The overload that enters the call-path strings of the nodes. -/
def setCallPathsMapped : ℕ → ℕ → List String × Cells Rts × OrdMap ℕ String →
    Outcome (List String × Cells Rts × OrdMap ℕ String) :=
  setCallPathsOn fun node callpathstring rtscallpathMapping =>
    rtscallpathMapping.insertNew node callpathstring

/-- The overload for the copies of a tree. -/
def setCallPathsUnmapped : ℕ → ℕ → List String × Cells Rts × Unit →
    Outcome (List String × Cells Rts × Unit) :=
  setCallPathsOn fun _ _ _ => ()

/-- The vector may be passed by value. -/
theorem setCallPathsMapped_eq : ∀ (depth node : ℕ) (callpathStrings : List String)
    (s : Cells Rts × OrdMap ℕ String), setCallPathsMapped depth node (callpathStrings, s) =
      setCallPaths depth node callpathStrings s >>= fun s' => .ok (callpathStrings, s') := by
  intro depth
  induction depth with
  | zero => exact fun _ _ _ => rfl
  | succ depth ih =>
    intro node callpathStrings s
    obtain ⟨tree, rtscallpathMapping⟩ := s
    have hloop : ∀ (children : List ℕ) (strings : List String) (s : Cells Rts × OrdMap ℕ String),
        children.foldlM (fun s child => setCallPathsMapped depth child s) (strings, s) =
          children.foldlM (fun s child => setCallPaths depth child strings s) s >>=
            fun s' => .ok (strings, s') := by
      intro children
      induction children with
      | nil => exact fun _ _ => rfl
      | cons child children ihchildren =>
        intro strings s
        rw [List.foldlM_cons, List.foldlM_cons, ih]
        cases setCallPaths depth child strings s with
        | ok s' => exact ihchildren strings s'
        | throws | aborts | undefined => rfl
    rw [setCallPathsMapped, setCallPathsOn, setCallPaths]
    cases tree[node]? with
    | none => rfl
    | some cell =>
      simp only [Outcome.found, Outcome.ok_bind]
      rw [show (fun s child => setCallPathsOn _ depth child s) =
        fun s child => setCallPathsMapped depth child s from rfl, hloop]
      by_cases hleaf : cell.children = []
      · simp [hleaf]
      · have hnot : cell.children.isEmpty = false := by
          rw [← Bool.not_eq_true, List.isEmpty_iff]
          exact hleaf
        simp only [hnot, Bool.false_eq_true, if_false]
        generalize cell.children.foldlM (fun s child => setCallPaths depth child
          (callpathStrings ++ [cell.data.regionName]) s) _ = result
        cases result with
        | ok s' => simp
        | throws | aborts | undefined => rfl

end Overloads

section Runs
variable {μ : Type}

theorem makeCallpathString_eq (path : List String) :
    makeCallpathString path = String.join (path.map fun name => "/" ++ name) := by
  rw [makeCallpathString, String.join, List.foldl_map]

/-- Every node gets the names from the root to it behind slashes, nothing but the data of a
traversal is written, and a second traversal leaves the tree as it is. -/
theorem setCallPathsOn_settles (insert : ℕ → String → μ → μ) {tree : Cells Rts}
    (hr : tree.Rooted) (rtscallpathMapping : μ) {depth : ℕ} (hdepth : tree.length ≤ depth) :
    ∃ tree' mapping', setCallPathsOn insert depth 0 ([], tree, rtscallpathMapping) =
        .ok ([], tree', mapping') ∧ OnlyPaths tree tree' ∧
      (∀ a < tree.length, ∃ path, CallPath tree a path ∧ (dataOf tree' a).map Rts.callpathstring =
        some (String.join (path.map fun name => "/" ++ name))) ∧
      ∀ mapping, ∃ mapping'', setCallPathsOn insert depth 0 ([], tree', mapping) =
        .ok ([], tree', mapping'') := by
  have hwithin : tree.Within depth 0 := hr.within hr.nonempty (by omega)
  obtain ⟨cell, hcell, hnone⟩ := hr.root
  have hname : nameOf tree 0 = some cell.data.regionName := by
    rw [nameOf, dataOf, hcell]
    rfl
  have hroot : CallPath tree 0 ([] ++ (nameOf tree 0).toList) := by
    rw [hname]
    exact callPath_root hname
  have hpaths := visits_callPath hr depth 0 [] hroot
  have hfirst := visits_parentsFirst hr depth 0 [] [] fun p hp => by
    have := (parent_lt hr hp).1
    omega
  have hstart : CalledSettled tree [] tree :=
    ⟨rfl, fun a ha => absurd ha List.not_mem_nil, fun a ha => absurd ha List.not_mem_nil⟩
  obtain ⟨seen, hinv, hsub⟩ := foldl_visit_settled insert hr _ (tree, rtscallpathMapping) hstart
    hfirst hpaths
  have hsettled : ∀ call ∈ visits tree depth 0 [], Settled
      ((visits tree depth 0 []).foldl (visit insert) (tree, rtscallpathMapping)).1 call.1 call.2 := by
    intro call hcall
    exact hinv.settled call.1 (hsub call.1 (.inr (List.mem_map_of_mem hcall))) call.2
      (hpaths call hcall)
  refine ⟨_, _, setCallPathsOn_eq insert depth 0 [] (tree, rtscallpathMapping) hwithin rfl,
    hinv.same, fun a ha => ?_, fun mapping => ?_⟩
  · obtain ⟨path, hpath⟩ : ∃ path, CallPath tree a path := hr.exists_path a ha
    refine ⟨path, hpath, ?_⟩
    obtain ⟨data, hdata⟩ : ∃ data, dataOf ((visits tree depth 0 []).foldl (visit insert)
        (tree, rtscallpathMapping)).1 a = some data := by
      have hlength := hinv.same.length_eq
      rw [dataOf, List.getElem?_eq_getElem (by omega)]
      exact ⟨_, rfl⟩
    have hdata' := hsettled (a, path) (mem_visits hwithin hpath) data hdata
    rw [hdata, Option.map_some, ← hdata', ← makeCallpathString_eq]
    rfl
  · have hagain := setCallPathsOn_eq insert depth 0 [] (_, mapping) hwithin hinv.same
    have hself := foldl_visit_eq_self insert _ (_, mapping) hsettled
    exact ⟨(List.foldl (visit insert) (_, mapping) _).2,
      hagain.trans (congrArg (fun s => Outcome.ok ([], s)) (Prod.ext hself rfl))⟩

/-- A root and a parameter below it. -/
def parameterTree : Cells Rts :=
  Cells.attach [⟨Rts.ofRecord ⟨10, "main", 1, 0⟩ 100, none, []⟩] 0
    (Rts.ofRecord ⟨20, "size=2", 2, 1⟩ 200)

theorem setCallPathsOn_settles_parameterTree :
    ∃ tree' mapping', setCallPathsOn (fun _ _ _ => ()) 2 0 ([], parameterTree, ()) =
        .ok ([], tree', mapping') ∧ OnlyPaths parameterTree tree' ∧
      (∀ a < parameterTree.length, ∃ path, CallPath parameterTree a path ∧
        (dataOf tree' a).map Rts.callpathstring =
          some (String.join (path.map fun name => "/" ++ name))) ∧
      ∀ mapping, ∃ mapping'', setCallPathsOn (fun _ _ _ => ()) 2 0 ([], tree', mapping) =
        .ok ([], tree', mapping'') :=
  setCallPathsOn_settles (fun _ _ _ => ()) ((Cells.rooted_singleton _).attach (by decide)) ()
    (by decide)

end Runs
end ReadexPtf.Rtstree
