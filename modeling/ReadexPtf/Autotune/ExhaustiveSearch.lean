import ReadexPtf.Autotune.SearchSpace
import ReadexPtf.Lib.Outcome

/-! Scenario creation of the exhaustive search. The two recursions share one list of
tuning specifications; the refinement below shows that every call gives it back as
it found it and that the leaves run through the product of the value lists. -/
namespace ReadexPtf.Autotune
open ReadexPtf

/-- The fields of a search that creating scenarios changes. -/
structure Creation where
  scenarioIds : List Nat
  pools : ScenarioPools

/-- The two lists and maps the recursions hand down by pointer, and what they create. -/
structure Walk where
  variantSS : Variant
  ts : List TuningSpecification
  creation : Creation

section Create
variable (withRtsSupport : Bool)

/-- `TuningSpecification( variant, entity_list )`. -/
def listSpecification (variant : Variant) (entityList : List String) : TuningSpecification where
  variant := variant
  contextType := if withRtsSupport then .rtsList else .regionList
  entityList := entityList

/-- The specification of one search space. Without RTS support the first region is
read unchecked. -/
def specification (space : SearchSpace) (variant : Variant) : Outcome TuningSpecification :=
  if withRtsSupport then
    .ok { variant, contextType := .rtsList, entityList := space.rtsVector.take 1 }
  else
    match space.regions with
    | [] => .undefined
    | region :: _ => .ok { variant, contextType := .regionList, entityList := [region] }

def generatescenario (ts : List TuningSpecification) (c : Creation) : Creation where
  scenarioIds := c.scenarioIds ++ [c.pools.nextId]
  pools := c.pools.create (ts.map fun t => listSpecification withRtsSupport t.variant t.entityList)

/-- `next` is the call `iterate_SS( SS_index + 1, n_SS, ts )`. -/
def iterateTP (next : List TuningSpecification → Creation →
      Outcome (List TuningSpecification × Creation)) (space : SearchSpace) :
    List TuningParameter → Walk → Outcome Walk
  | [], w => do
    let spec ← specification withRtsSupport space w.variantSS
    let (ts, creation) ← next (w.ts ++ [spec]) w.creation
    .ok { w with ts := ts.dropLast, creation }
  | tp :: tps, w =>
    let body (w : Walk) (i : Int) : Outcome Walk :=
      iterateTP next space tps { w with variantSS := w.variantSS.set tp.addr i }
    match tp.elementWise with
    | none => forRange tp.rangeTo tp.rangeStep (fun i w => body w i) tp.rangeFrom w
    | some v => v.foldlM body w

def iterateSS : List SearchSpace → List TuningSpecification → Creation →
    Outcome (List TuningSpecification × Creation)
  | [], ts, c => .ok (ts, generatescenario withRtsSupport ts c)
  | space :: rest, ts, c => do
    let w ← iterateTP withRtsSupport (iterateSS rest) space space.variantSpace ⟨.empty, ts, c⟩
    .ok (w.ts, w.creation)

end Create

/-- The body of a search space is defined: a region to read where one is read, and
no range parameter that loops past the end of `int`. -/
structure SearchSpace.Searchable (withRtsSupport : Bool) (space : SearchSpace) : Prop where
  entity : withRtsSupport = true ∨ space.regions ≠ []
  walkable : ∀ tp ∈ space.variantSpace, tp.Walkable

instance (rts : Bool) (space : SearchSpace) : Decidable (space.Searchable rts) :=
  decidable_of_iff ((rts = true ∨ space.regions ≠ []) ∧ ∀ tp ∈ space.variantSpace, tp.Walkable)
    ⟨fun h => ⟨h.1, h.2⟩, fun h => ⟨h.entity, h.walkable⟩⟩

/-- The value lists of all parameters, in the order the recursion meets them. -/
def valueLists (spaces : List SearchSpace) : List (List Int) :=
  (spaces.flatMap SearchSpace.variantSpace).map TuningParameter.values

/-- The value each parameter of the search spaces has in a scenario. -/
def combination : List SearchSpace → List TuningSpecification → List (Option Int)
  | space :: spaces, t :: ts =>
    space.variantSpace.map (fun tp => t.variant.get? tp.addr) ++ combination spaces ts
  | _, _ => []

section Spec
variable (rts : Bool)

def entityList (space : SearchSpace) : List String :=
  if rts then space.rtsVector.take 1 else space.regions.take 1

/-- The specifications of one choice of values for all parameters. -/
def specifications : List SearchSpace → List Int → List TuningSpecification
  | [], _ => []
  | space :: rest, vals =>
    listSpecification rts
        (assign .empty space.variantSpace (vals.take space.variantSpace.length))
        (entityList rts space) ::
      specifications rest (vals.drop space.variantSpace.length)

variable {rts}

theorem specification_eq {space : SearchSpace} (h : rts = true ∨ space.regions ≠ [])
    (v : Variant) :
    specification rts space v = .ok (listSpecification rts v (entityList rts space)) := by
  cases rts with
  | true => simp [specification, listSpecification, entityList]
  | false =>
    have hne : space.regions ≠ [] := h.resolve_left Bool.false_ne_true
    obtain ⟨region, rest, hregions⟩ := List.exists_cons_of_ne_nil hne
    simp [specification, listSpecification, entityList, hregions]

/-- A loop over the values of one parameter, from what one round of its body does. -/
theorem foldlM_walk {tps : List TuningParameter} {v : Variant} {ts : List TuningSpecification}
    (body : Walk → Int → Outcome Walk) (create : Int → Creation → Creation)
    (hbody : ∀ u x c, AgreeOff tps u v →
      ∃ u', AgreeOff tps u' v ∧ body ⟨u, ts, c⟩ x = .ok ⟨u', ts, create x c⟩) :
    ∀ (xs : List Int) (u : Variant) (c : Creation), AgreeOff tps u v →
      ∃ u', AgreeOff tps u' v ∧
        xs.foldlM body ⟨u, ts, c⟩ = .ok ⟨u', ts, xs.foldl (fun c x => create x c) c⟩ := by
  intro xs
  induction xs with
  | nil => exact fun u c hu => ⟨u, hu, rfl⟩
  | cons x xs ih =>
    intro u c hu
    obtain ⟨u', hu', hstep⟩ := hbody u x c hu
    obtain ⟨u'', hu'', hrest⟩ := ih u' (create x c) hu'
    exact ⟨u'', hu'', by rw [List.foldlM_cons, hstep, Outcome.ok_bind, hrest, List.foldl_cons]⟩

/-- The recursion over the parameters of one space: the shared list comes back as it
was, and the leaves are the choices of one value for each parameter. -/
theorem iterateTP_eq {space : SearchSpace} {next : List TuningSpecification → Creation →
      Outcome (List TuningSpecification × Creation)}
    {create : List TuningSpecification → Creation → Creation}
    (hentity : rts = true ∨ space.regions ≠ [])
    (hnext : ∀ ts c, next ts c = .ok (ts, create ts c)) :
    ∀ (tps : List TuningParameter), (∀ tp ∈ tps, tp.Walkable) →
      ∀ (v : Variant) (ts : List TuningSpecification) (c : Creation),
      ∃ v', AgreeOff tps v' v ∧ iterateTP rts next space tps ⟨v, ts, c⟩ =
        .ok ⟨v', ts, (lexProduct (tps.map TuningParameter.values)).foldl
          (fun c vals => create
            (ts ++ [listSpecification rts (assign v tps vals) (entityList rts space)]) c) c⟩ := by
  intro tps
  induction tps with
  | nil =>
    intro _ v ts c
    refine ⟨v, AgreeOff.refl [] v, ?_⟩
    simp [iterateTP, specification_eq hentity, hnext]
  | cons tp tps ih =>
    intro hwalk v ts c
    -- one round of the loop body, from any map the rounds before it may have left
    have hround : ∀ u x c, AgreeOff (tp :: tps) u v →
        ∃ u', AgreeOff (tp :: tps) u' v ∧
          iterateTP rts next space tps ⟨u.set tp.addr x, ts, c⟩ =
            .ok ⟨u', ts, (lexProduct (tps.map TuningParameter.values)).foldl
              (fun c vals => create (ts ++ [listSpecification rts
                (assign (v.set tp.addr x) tps vals) (entityList rts space)]) c) c⟩ := by
      intro u x c hu
      obtain ⟨u', hu', heq⟩ :=
        ih (fun t ht => hwalk t (List.mem_cons_of_mem tp ht)) (u.set tp.addr x) ts c
      refine ⟨u', (hu'.cons tp).trans ((agreeOff_set tp tps u x).trans hu), ?_⟩
      rw [heq]
      congr 2
      refine List.foldl_ext _ _ _ fun c vals hvals => ?_
      have hlen : vals.length = tps.length := by
        simpa using length_of_mem_lexProduct hvals
      rw [assign_congr hlen (hu.set x)]
    obtain ⟨v', hv', hloop⟩ := foldlM_walk
      (fun w x => iterateTP rts next space tps { w with variantSS := w.variantSS.set tp.addr x })
      (fun x c => (lexProduct (tps.map TuningParameter.values)).foldl
        (fun c vals => create (ts ++ [listSpecification rts
          (assign (v.set tp.addr x) tps vals) (entityList rts space)]) c) c)
      hround tp.values v c (AgreeOff.refl _ v)
    refine ⟨v', hv', ?_⟩
    rw [List.map_cons, foldl_lexProduct_cons]
    simp only [assign_cons]
    rw [← hloop, iterateTP]
    cases helem : tp.elementWise with
    | none =>
      obtain ⟨hstep, hfits⟩ := hwalk tp List.mem_cons_self helem
      simp only [TuningParameter.values, helem]
      exact forRange_eq_foldlM hstep tp.rangeFrom _ hfits
    | some es => simp only [TuningParameter.values, helem]

/-- The recursion over the spaces, from the recursion over the parameters of each. -/
theorem iterateSS_eq {spaces : List SearchSpace} (h : ∀ space ∈ spaces, space.Searchable rts)
    (ts : List TuningSpecification) (c : Creation) :
    iterateSS rts spaces ts c = .ok (ts, (lexProduct (valueLists spaces)).foldl
      (fun c vals => generatescenario rts (ts ++ specifications rts spaces vals) c) c) := by
  induction spaces generalizing ts c with
  | nil => simp [iterateSS, valueLists, specifications]
  | cons space rest ih =>
    have hspace := h space List.mem_cons_self
    have hnext := ih fun s hs => h s (List.mem_cons_of_mem space hs)
    obtain ⟨v', -, hwalk⟩ :=
      iterateTP_eq hspace.entity hnext space.variantSpace hspace.walkable .empty ts c
    rw [iterateSS, hwalk, Outcome.ok_bind]
    have hsplit : valueLists (space :: rest) =
        space.variantSpace.map TuningParameter.values ++ valueLists rest := by
      simp [valueLists]
    rw [hsplit, foldl_lexProduct_append]
    congr 2
    refine List.foldl_ext _ _ _ fun c vals hvals => ?_
    have hlen : vals.length = space.variantSpace.length := by
      simpa using length_of_mem_lexProduct hvals
    simp [specifications, ← hlen]

theorem iterateSS_nil_eq {spaces : List SearchSpace}
    (h : ∀ space ∈ spaces, space.Searchable rts) (c : Creation) :
    iterateSS rts spaces [] c =
      .ok ([], ((lexProduct (valueLists spaces)).map (specifications rts spaces)).foldl
        (fun c ts => generatescenario rts ts c) c) := by
  rw [iterateSS_eq h, List.foldl_map]
  rfl

/-- The scenarios created between two moments got the next ids, in turn, and every one
of these ids was queued. -/
structure Grown (c c' : Creation) : Prop where
  counter : c.pools.nextId ≤ c'.pools.nextId
  queued : c'.scenarioIds = c.scenarioIds ++
    List.range' c.pools.nextId (c'.pools.nextId - c.pools.nextId)
  pushed : ∀ first ≤ c.pools.nextId, (c'.pools.createdSince first).map Scenario.id =
    (c.pools.createdSince first).map Scenario.id ++
      List.range' c.pools.nextId (c'.pools.nextId - c.pools.nextId)

theorem Grown.refl (c : Creation) : Grown c c where
  counter := le_refl _
  queued := by simp
  pushed := by simp

theorem Grown.trans {c d e : Creation} (h : Grown c d) (h' : Grown d e) : Grown c e := by
  have hrange : List.range' c.pools.nextId (d.pools.nextId - c.pools.nextId) ++
        List.range' d.pools.nextId (e.pools.nextId - d.pools.nextId) =
      List.range' c.pools.nextId (e.pools.nextId - c.pools.nextId) := by
    have hlow := h.counter
    have hhigh := h'.counter
    rw [show e.pools.nextId - c.pools.nextId =
      (d.pools.nextId - c.pools.nextId) + (e.pools.nextId - d.pools.nextId) by omega,
      ← List.range'_append_1]
    congr 2
    omega
  refine ⟨h.counter.trans h'.counter, ?_, fun first hfirst => ?_⟩
  · rw [h'.queued, h.queued, List.append_assoc, hrange]
  · rw [h'.pushed first (hfirst.trans h.counter), h.pushed first hfirst, List.append_assoc, hrange]

theorem grown_generatescenario (ts : List TuningSpecification) (c : Creation) :
    Grown c (generatescenario rts ts c) where
  counter := Nat.le_succ _
  queued := by simp [generatescenario]
  pushed := fun first hfirst => by
    simp [generatescenario, ScenarioPools.createdSince_create _ _ hfirst]

/-- Whatever the spaces are, a recursion that returns has only grown the creation. -/
theorem iterateTP_grown {next : List TuningSpecification → Creation →
      Outcome (List TuningSpecification × Creation)} {space : SearchSpace}
    (hnext : ∀ ts c ts' c', next ts c = .ok (ts', c') → Grown c c') :
    ∀ (tps : List TuningParameter) (w w' : Walk), iterateTP rts next space tps w = .ok w' →
      Grown w.creation w'.creation := by
  intro tps
  induction tps with
  | nil =>
    intro w w' h
    obtain ⟨spec, -, h⟩ := Outcome.bind_eq_ok.mp h
    obtain ⟨⟨ts, creation⟩, hcall, h⟩ := Outcome.bind_eq_ok.mp h
    have hw' : { w with ts := ts.dropLast, creation } = w' := Outcome.ok.inj h
    exact hw' ▸ hnext _ _ _ _ hcall
  | cons tp tps ih =>
    intro w w' h
    have hround : ∀ (x : Int) (u u' : Walk), Grown w.creation u.creation →
        iterateTP rts next space tps { u with variantSS := u.variantSS.set tp.addr x } = .ok u' →
        Grown w.creation u'.creation :=
      fun x u u' hu hstep => hu.trans (ih { u with variantSS := u.variantSS.set tp.addr x } u' hstep)
    rw [iterateTP] at h
    cases helem : tp.elementWise with
    | none =>
      rw [helem] at h
      exact forRange_invariant (fun u => Grown w.creation u.creation)
        hround _ _ _ (Grown.refl _) h
    | some es =>
      rw [helem] at h
      exact Outcome.foldlM_invariant (fun u => Grown w.creation u.creation)
        (fun u x u' => hround x u u') _ _ _ (Grown.refl _) h

theorem iterateSS_grown {spaces : List SearchSpace} :
    ∀ (ts : List TuningSpecification) (c : Creation) (ts' : List TuningSpecification)
      (c' : Creation), iterateSS rts spaces ts c = .ok (ts', c') → Grown c c' := by
  induction spaces with
  | nil =>
    intro ts c ts' c' h
    have hc' : generatescenario rts ts c = c' := (Prod.mk.inj (Outcome.ok.inj h)).2
    exact hc' ▸ grown_generatescenario ts c
  | cons space rest ih =>
    intro ts c ts' c' h
    obtain ⟨w, hwalk, h⟩ := Outcome.bind_eq_ok.mp h
    have hc' : w.creation = c' := (Prod.mk.inj (Outcome.ok.inj h)).2
    exact hc' ▸ iterateTP_grown ih _ _ _ hwalk

/-- The specifications of the scenarios a list of creations pushes. -/
theorem foldl_generatescenario (rts : Bool) (tss : List (List TuningSpecification)) (c : Creation)
    {first : Nat} (hfirst : first ≤ c.pools.nextId) :
    (((tss.foldl (fun c ts => generatescenario rts ts c) c).pools.createdSince first).map
        Scenario.ts) =
      (c.pools.createdSince first).map Scenario.ts ++
        tss.map fun ts => ts.map fun t => listSpecification rts t.variant t.entityList := by
  induction tss generalizing c with
  | nil => simp
  | cons ts tss ih =>
    have hnext : first ≤ (generatescenario rts ts c).pools.nextId := Nat.le_succ_of_le hfirst
    rw [List.foldl_cons, ih _ hnext]
    simp [generatescenario, ScenarioPools.createdSince_create _ _ hfirst]

theorem rewrap_specifications (spaces : List SearchSpace) (vals : List Int) :
    (specifications rts spaces vals).map (fun t => listSpecification rts t.variant t.entityList) =
      specifications rts spaces vals := by
  induction spaces generalizing vals with
  | nil => rfl
  | cons space rest ih => exact congrArg _ (ih _)

/-- The pairwise distinct parameters of a search space. -/
def SearchSpace.Distinct (space : SearchSpace) : Prop :=
  (space.variantSpace.map TuningParameter.addr).Nodup

instance (space : SearchSpace) : Decidable space.Distinct :=
  inferInstanceAs (Decidable (List.Nodup _))

/-- A scenario made from a choice of values reads back as that choice. -/
theorem combination_specifications {spaces : List SearchSpace}
    (hdistinct : ∀ space ∈ spaces, space.Distinct) {vals : List Int}
    (hlen : vals.length = (spaces.flatMap SearchSpace.variantSpace).length) :
    combination spaces (specifications rts spaces vals) = vals.map some := by
  induction spaces generalizing vals with
  | nil =>
    have hnil : vals = [] := List.length_eq_zero_iff.mp hlen
    simp [combination, hnil]
  | cons space rest ih =>
    rw [List.flatMap_cons, List.length_append] at hlen
    have htake : (vals.take space.variantSpace.length).length = space.variantSpace.length := by
      rw [List.length_take]
      omega
    have hdrop : (vals.drop space.variantSpace.length).length =
        (rest.flatMap SearchSpace.variantSpace).length := by
      rw [List.length_drop]
      omega
    have hhead := map_get?_assign .empty (hdistinct space List.mem_cons_self) htake
    have htail := ih (fun s hs => hdistinct s (List.mem_cons_of_mem space hs)) hdrop
    simp only [combination, specifications, listSpecification, hhead, htail, ← List.map_append,
      List.take_append_drop]

end Spec

/-- The members of the search object. `-1` for a missing optimum or worst is `none`. -/
structure ExhaustiveSearch (Srp V : Type) where
  searchSpaces : List SearchSpace
  objectiveFunctions : List (Nat → Srp → V)
  scenarioIds : List Nat
  path : OrdMap Nat V
  optimum : Option Nat
  optimumValue : V
  worst : Option Nat
  worstValue : V

namespace ExhaustiveSearch
variable {Srp V : Type}

/-- The constructor, with the two limits of `double`. -/
def init (dblMax dblMin : V) : ExhaustiveSearch Srp V where
  searchSpaces := []
  objectiveFunctions := []
  scenarioIds := []
  path := .empty
  optimum := none
  optimumValue := dblMax
  worst := none
  worstValue := dblMin

def addObjectiveFunction (search : ExhaustiveSearch Srp V) (obj : Nat → Srp → V) :
    ExhaustiveSearch Srp V :=
  { search with objectiveFunctions := search.objectiveFunctions ++ [obj] }

def addSearchSpace (search : ExhaustiveSearch Srp V) (searchSpace : SearchSpace) :
    ExhaustiveSearch Srp V :=
  { search with searchSpaces := search.searchSpaces ++ [searchSpace] }

/-- `ptfMinObjective` is the `PTF_minObjective` used where no objective was given. -/
def createScenarios (withRtsSupport : Bool) (ptfMinObjective : Nat → Srp → V)
    (search : ExhaustiveSearch Srp V) (pools : ScenarioPools) :
    Outcome (ExhaustiveSearch Srp V × ScenarioPools) :=
  let objectiveFunctions :=
    if search.objectiveFunctions.isEmpty then [ptfMinObjective] else search.objectiveFunctions
  if search.searchSpaces.isEmpty then .aborts
  else do
    let (_, c) ← iterateSS withRtsSupport search.searchSpaces [] ⟨search.scenarioIds, pools⟩
    .ok ({ search with objectiveFunctions, scenarioIds := c.scenarioIds }, c.pools)

/-- All that a call of `createScenarios` that returns has done to the object and its pools. -/
theorem createScenarios_spec {rts : Bool} {ptfMinObjective : Nat → Srp → V}
    {search search' : ExhaustiveSearch Srp V} {pools pools' : ScenarioPools}
    (h : search.createScenarios rts ptfMinObjective pools = .ok (search', pools')) :
    ∃ objectiveFunctions ids, objectiveFunctions ≠ [] ∧
      search' = { search with objectiveFunctions, scenarioIds := search.scenarioIds ++ ids } ∧
      ids = (pools'.createdSince pools.nextId).map Scenario.id ∧
      ids = List.range' pools.nextId (pools'.nextId - pools.nextId) ∧
      pools.nextId ≤ pools'.nextId := by
  have hspaces : search.searchSpaces.isEmpty = false := by
    cases hempty : search.searchSpaces.isEmpty with
    | true => simp [createScenarios, hempty] at h
    | false => rfl
  simp only [createScenarios, hspaces, Bool.false_eq_true, if_false] at h
  obtain ⟨⟨ts, c⟩, hiterate, hresult⟩ := Outcome.bind_eq_ok.mp h
  obtain ⟨hsearch, hpools⟩ := Prod.mk.inj (Outcome.ok.inj hresult)
  have hgrown := iterateSS_grown _ _ _ _ hiterate
  have hcreated := hgrown.pushed pools.nextId (le_refl _)
  rw [ScenarioPools.createdSince_nextId, List.map_nil, List.nil_append] at hcreated
  refine ⟨if search.objectiveFunctions.isEmpty then [ptfMinObjective] else
    search.objectiveFunctions, _, ?_, ?_, rfl, ?_, ?_⟩
  · cases search.objectiveFunctions with
    | nil => simp
    | cons objective rest => simp
  · rw [← hsearch, ← hpools, hcreated, hgrown.queued]
  · rw [← hpools, hcreated]
  · exact hpools ▸ hgrown.counter

/-- The scenarios hold the product of the value lists: each choice of values in its
place of the lexicographic order, and nothing else. -/
structure ProductCreated (spaces : List SearchSpace) (created : List Scenario) : Prop where
  inOrder : created.map (fun s => combination spaces s.ts) =
    (lexProduct (valueLists spaces)).map (List.map some)
  noOther : ∀ s ∈ created, ∃ c, List.Forall₂ (· ∈ ·) c (valueLists spaces) ∧
    combination spaces s.ts = c.map some
  exactlyOne : (∀ vs ∈ valueLists spaces, vs.Nodup) →
    ∀ c, List.Forall₂ (· ∈ ·) c (valueLists spaces) →
      ∃! s, s ∈ created ∧ combination spaces s.ts = c.map some
  lexicographic : ∀ r : Int → Int → Prop, (∀ vs ∈ valueLists spaces, vs.Pairwise r) →
    created.Pairwise fun s t => ∃ c d, combination spaces s.ts = c.map some ∧
      combination spaces t.ts = d.map some ∧ List.Lex r c d

theorem ProductCreated.of_inOrder {spaces : List SearchSpace} {created : List Scenario}
    (h : created.map (fun s => combination spaces s.ts) =
      (lexProduct (valueLists spaces)).map (List.map some)) : ProductCreated spaces created where
  inOrder := h
  noOther := by
    intro s hs
    have hmem : combination spaces s.ts ∈ (lexProduct (valueLists spaces)).map (List.map some) :=
      h ▸ List.mem_map_of_mem hs
    obtain ⟨c, hc, heq⟩ := List.mem_map.mp hmem
    exact ⟨c, mem_lexProduct.mp hc, heq.symm⟩
  exactlyOne := by
    intro hnodup c hc
    have hinj : Function.Injective (List.map (some : Int → Option Int)) :=
      List.map_injective_iff.mpr (Option.some_injective Int)
    have hdistinct : (created.map fun s => combination spaces s.ts).Nodup :=
      h ▸ (nodup_lexProduct hnodup).map hinj
    have hmem : c.map some ∈ created.map fun s => combination spaces s.ts :=
      h ▸ List.mem_map_of_mem (mem_lexProduct.mpr hc)
    obtain ⟨s, hs, heq⟩ := List.mem_map.mp hmem
    exact ⟨s, ⟨hs, heq⟩, fun t ht =>
      List.inj_on_of_nodup_map hdistinct ht.1 hs (ht.2.trans heq.symm)⟩
  lexicographic := by
    intro r hr
    have hpair : (created.map fun s => combination spaces s.ts).Pairwise fun a b =>
        ∃ c d, a = c.map some ∧ b = d.map some ∧ List.Lex r c d := by
      rw [h, List.pairwise_map]
      exact (pairwise_lexProduct hr).imp fun hlex => ⟨_, _, rfl, rfl, hlex⟩
    exact List.pairwise_map.mp hpair

/-- `createScenarios` returns, and the scenarios it pushed hold the product. -/
def CreatesProduct (rts : Bool) (ptfMinObjective : Nat → Srp → V)
    (search : ExhaustiveSearch Srp V) (pools : ScenarioPools) : Prop :=
  ∃ search' pools', search.createScenarios rts ptfMinObjective pools = .ok (search', pools') ∧
    ProductCreated search.searchSpaces (pools'.createdSince pools.nextId) ∧
    search'.scenarioIds = search.scenarioIds ++ (pools'.createdSince pools.nextId).map Scenario.id

/-- Searchable spaces make the call return, with one scenario for each choice of values. -/
theorem createScenarios_returns {rts : Bool} {search : ExhaustiveSearch Srp V}
    (hspaces : search.searchSpaces ≠ [])
    (hsearchable : ∀ space ∈ search.searchSpaces, space.Searchable rts)
    (ptfMinObjective : Nat → Srp → V) (pools : ScenarioPools) :
    ∃ search' pools', search.createScenarios rts ptfMinObjective pools = .ok (search', pools') ∧
      ∀ first ≤ pools.nextId, (pools'.createdSince first).map Scenario.ts =
        (pools.createdSince first).map Scenario.ts ++
          (lexProduct (valueLists search.searchSpaces)).map
            (specifications rts search.searchSpaces) := by
  have hrun := iterateSS_nil_eq hsearchable ⟨search.scenarioIds, pools⟩
  have hnonempty : search.searchSpaces.isEmpty = false := by simpa using hspaces
  refine ⟨_, _, by rw [createScenarios, hnonempty, hrun]; rfl, fun first hfirst => ?_⟩
  rw [foldl_generatescenario rts _ _ hfirst, List.map_map]
  congr 1
  exact List.map_congr_left fun vals _ => rewrap_specifications _ _

theorem createScenarios_product {rts : Bool} {search : ExhaustiveSearch Srp V}
    (hspaces : search.searchSpaces ≠ [])
    (hsearchable : ∀ space ∈ search.searchSpaces, space.Searchable rts)
    (hdistinct : ∀ space ∈ search.searchSpaces, space.Distinct)
    (ptfMinObjective : Nat → Srp → V) (pools : ScenarioPools) :
    CreatesProduct rts ptfMinObjective search pools := by
  obtain ⟨search', pools', hcall, hcreated⟩ :=
    createScenarios_returns hspaces hsearchable ptfMinObjective pools
  obtain ⟨_, ids, _, hsearch, hids, _, _⟩ := createScenarios_spec hcall
  have hts := hcreated pools.nextId (le_refl _)
  rw [ScenarioPools.createdSince_nextId, List.map_nil, List.nil_append] at hts
  refine ⟨search', pools', hcall, .of_inOrder ?_, by rw [hsearch, hids]⟩
  rw [← Function.comp_def (combination search.searchSpaces), ← List.map_map, hts, List.map_map]
  refine List.map_congr_left fun vals hvals => ?_
  have hlen : vals.length = (search.searchSpaces.flatMap SearchSpace.variantSpace).length := by
    simpa [valueLists] using length_of_mem_lexProduct hvals
  exact combination_specifications hdistinct hlen

/-- A range parameter and a restricted one in one space, and a second space. -/
theorem createScenarios_product_mixed :
    CreatesProduct false (fun _ _ => 0) (((init 0 0 : ExhaustiveSearch Unit Int).addSearchSpace
      ⟨["foo"], [], [⟨0, 1, 4, 2, none⟩, ⟨1, 0, 9, 1, some ⟨2, [7, 5]⟩⟩]⟩).addSearchSpace
      ⟨["bar"], [], [⟨2, 0, 1, 1, none⟩]⟩) .empty :=
  createScenarios_product (by decide) (by decide) (by decide) _ _

/-- No product without a search space (the search aborts), without a region to attach
the variant to, or with a range that ends at the largest `int` (the counter overflows). -/
theorem not_createsProduct :
    ¬ CreatesProduct false (fun _ _ => 0) (init 0 0 : ExhaustiveSearch Unit Int) .empty ∧
    ¬ CreatesProduct false (fun _ _ => 0) ((init 0 0 : ExhaustiveSearch Unit Int).addSearchSpace
      ⟨[], [], [⟨0, 1, 2, 1, none⟩]⟩) .empty ∧
    ¬ CreatesProduct false (fun _ _ => 0) ((init 0 0 : ExhaustiveSearch Unit Int).addSearchSpace
      ⟨["foo"], [], [⟨0, intMax, intMax, 1, none⟩]⟩) .empty := by
  refine ⟨?_, ?_, ?_⟩
  · intro h
    obtain ⟨_, _, hrun, _⟩ := h
    simp [createScenarios, init] at hrun
  · intro h
    obtain ⟨_, _, hrun, _⟩ := h
    simp [createScenarios, init, addSearchSpace, iterateSS, iterateTP, specification,
      TuningParameter.elementWise, forRange] at hrun
  · intro h
    obtain ⟨_, _, hrun, _⟩ := h
    simp [createScenarios, init, addSearchSpace, iterateSS, iterateTP, specification,
      TuningParameter.elementWise, forRange, intMax] at hrun

end ExhaustiveSearch
end ReadexPtf.Autotune
