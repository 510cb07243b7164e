import ReadexPtf.Autotune.IndividualKeep

/-! The scenarios that the exhaustive and the individual search create have no values but those of
the parameters that the searches were given. -/
namespace ReadexPtf.Autotune
open ReadexPtf

/-- Every value is one of a parameter. -/
def WithinValues (tps : List TuningParameter) (variant : Variant) : Prop :=
  ∀ value ∈ variant.entries, ∃ tp ∈ tps, tp.addr = value.1 ∧ value.2 ∈ tp.values

def Scenario.Within (tps : List TuningParameter) (scenario : Scenario) : Prop :=
  ∃ spec rest, scenario.ts = spec :: rest ∧ WithinValues tps spec.variant

/-- What every step over an element of the list keeps, a fold over the list keeps. -/
theorem foldlM_keeps {σ ι : Type} {f : σ → ι → Outcome σ} (inv : σ → Prop) {xs : List ι}
    (hstep : ∀ a ∈ xs, ∀ s s', inv s → f s a = .ok s' → inv s') :
    ∀ {s s' : σ}, inv s → xs.foldlM f s = .ok s' → inv s' := by
  induction xs with
  | nil => exact fun hs h => Outcome.ok.inj h ▸ hs
  | cons a xs ih =>
    intro s s' hs h
    obtain ⟨hfirst, hrest⟩ := List.forall_mem_cons.mp hstep
    obtain ⟨t, ht, hlater⟩ := Outcome.bind_eq_ok.mp h
    exact ih hrest (hfirst s t hs ht) hlater

section Created
variable {rts : Bool} {tps : List TuningParameter}

theorem WithinValues.set {variant : Variant} (h : WithinValues tps variant) {tp : TuningParameter}
    (htp : tp ∈ tps) {x : Int} (hx : x ∈ tp.values) :
    WithinValues tps (variant.set tp.addr x) := by
  intro value hvalue
  rcases OrdMap.Entries.mem_insert hvalue with rfl | hold
  · exact ⟨tp, htp, rfl, hx⟩
  · exact h value hold

/-- The walk is in the only search space, and has used and created nothing else. -/
structure Walk.Within (tps : List TuningParameter) (w : Walk) : Prop where
  single : w.ts = []
  variant : WithinValues tps w.variantSS
  created : ∀ scenario ∈ w.creation.pools.createdSince 0, scenario.Within tps

theorem iterateTP_within {space : SearchSpace} {later : List TuningParameter} :
    (∀ tp ∈ later, tp ∈ tps) → ∀ {w w' : Walk}, w.Within tps →
      iterateTP rts (iterateSS rts []) space later w = .ok w' → w'.Within tps := by
  induction later with
  | nil =>
    intro _ w w' hw h
    rw [iterateTP] at h
    obtain ⟨spec, hspec, h⟩ := Outcome.bind_eq_ok.mp h
    rw [hw.single, List.nil_append, iterateSS, Outcome.ok_bind] at h
    obtain rfl := Outcome.ok.inj h
    refine ⟨rfl, hw.variant, fun scenario hscenario => ?_⟩
    rw [generatescenario, ScenarioPools.createdSince_create _ _ (Nat.zero_le _), List.mem_append,
      List.mem_singleton] at hscenario
    cases hscenario with
    | inl hold => exact hw.created scenario hold
    | inr hnew => exact hnew ▸ ⟨_, _, rfl, (specification_variant hspec).symm ▸ hw.variant⟩
  | cons tp later ih =>
    intro hmem w w' hw h
    obtain ⟨htp, hlater⟩ := List.forall_mem_cons.mp hmem
    have hround : ∀ x ∈ tp.values, ∀ u u' : Walk, u.Within tps →
        iterateTP rts (iterateSS rts []) space later
          { u with variantSS := u.variantSS.set tp.addr x } = .ok u' → u'.Within tps := by
      intro x hx u u' hu hcall
      have hset : Walk.Within tps { u with variantSS := u.variantSS.set tp.addr x } :=
        ⟨hu.single, hu.variant.set htp hx, hu.created⟩
      exact ih hlater hset hcall
    rw [iterateTP] at h
    rw [TuningParameter.values] at hround
    cases helem : tp.elementWise with
    | none =>
      simp only [helem] at h hround
      by_cases hle : tp.rangeFrom ≤ tp.rangeTo
      · exact foldlM_keeps _ hround hw ((forRange_eq_ok hle).mp h).2
      · rw [forRange, dif_neg hle] at h
        exact Outcome.ok.inj h ▸ hw
    | some es =>
      simp only [helem] at h hround
      exact foldlM_keeps _ hround hw h

/-- All scenarios of a call that returns, for one search space and an empty pool. -/
theorem ExhaustiveSearch.createScenarios_within {Srp V : Type} {ptfMinObjective : Nat → Srp → V}
    {search search' : ExhaustiveSearch Srp V} {pools pools' : ScenarioPools} {space : SearchSpace}
    (h : search.createScenarios rts ptfMinObjective pools = .ok (search', pools'))
    (hspace : search.searchSpaces = [space]) (hempty : pools.createdSince 0 = []) :
    ∀ scenario ∈ pools'.createdSince 0, scenario.Within space.variantSpace := by
  rw [createScenarios] at h
  simp only [hspace, List.isEmpty_cons, Bool.false_eq_true, if_false] at h
  obtain ⟨⟨ts, c⟩, hiterate, h⟩ := Outcome.bind_eq_ok.mp h
  have hpools := (Prod.mk.inj (Outcome.ok.inj h)).2
  rw [iterateSS] at hiterate
  obtain ⟨w, hwalk, hresult⟩ := Outcome.bind_eq_ok.mp hiterate
  have hc : w.creation = c := (Prod.mk.inj (Outcome.ok.inj hresult)).2
  have hstart : Walk.Within space.variantSpace ⟨.empty, [], ⟨search.scenarioIds, pools⟩⟩ :=
    ⟨rfl, List.forall_mem_nil _, by simp [hempty]⟩
  have hw := iterateTP_within (fun tp htp => htp) hstart hwalk
  rw [← hpools, ← hc]
  exact hw.created

end Created

/-- The values of the parameters `tps` are values of the parameters `ps`, at the same addresses. -/
def ValuesOf (ps tps : List TuningParameter) : Prop :=
  ∀ tp ∈ tps, ∀ v ∈ tp.values, ∃ p ∈ ps, p.addr = tp.addr ∧ v ∈ p.values

theorem ValuesOf.within {ps tps : List TuningParameter} (h : ValuesOf ps tps) {scenario : Scenario}
    (hscenario : scenario.Within tps) : scenario.Within ps := by
  obtain ⟨spec, rest, hts, hvalues⟩ := hscenario
  refine ⟨spec, rest, hts, fun value hvalue => ?_⟩
  obtain ⟨tp, htp, haddr, hmem⟩ := hvalues value hvalue
  rw [← haddr]
  exact h tp htp _ hmem

/-- A restriction to values that occurred. -/
theorem ValuesOf.setRestriction {ps tps : List TuningParameter} (h : ValuesOf ps tps) {addr : Nat}
    {elements : List Int} (helements : ∀ v ∈ elements, ∃ p ∈ ps, p.addr = addr ∧ v ∈ p.values) :
    ValuesOf ps (setRestriction tps addr ⟨2, elements⟩) := by
  intro tp htp v hv
  obtain ⟨old, hold, rfl⟩ := List.mem_map.mp htp
  split_ifs at hv ⊢ with haddr
  · obtain ⟨p, hp, hself, hvalue⟩ := helements v hv
    exact ⟨p, hp, hself.trans haddr.symm, hvalue⟩
  · exact h old hold v hv

namespace IndividualSearch
variable {Srp V : Type} [LT V] [DecidableLT V] (sort : Traversal (Nat × V))
variable {rts : Bool} {ptfMinObjective : Nat → Srp → V} {dblMax dblMin : V}
  {ps : List TuningParameter}

omit [LT V] [DecidableLT V] in
/-- A step creates its scenarios from the parameters that are left. -/
theorem createScenarios_within {s search : IndividualSearch Srp V} {pools pools' : ScenarioPools}
    (hempty : pools.createdSince 0 = [])
    (h : s.createScenarios rts ptfMinObjective dblMax dblMin pools = .ok (search, pools')) :
    search.tuningParameters = s.tuningParameters ∧
      ∀ scenario ∈ pools'.createdSince 0, scenario.Within s.tuningParameters := by
  rw [createScenarios] at h
  dsimp only at h
  rw [addSearchSpace_clear] at h
  obtain ⟨created, hcreate, h⟩ := Outcome.bind_eq_ok.mp h
  obtain ⟨selection, -, h⟩ := Outcome.bind_eq_ok.mp h
  obtain ⟨hsearch, hpools⟩ := Prod.mk.inj (Outcome.ok.inj h)
  have hwithin := ExhaustiveSearch.createScenarios_within hcreate rfl hempty
  refine ⟨hsearch ▸ rfl, fun scenario hscenario => ?_⟩
  obtain ⟨spec, rest, hts, hvalues⟩ := hwithin scenario (hpools ▸ hscenario)
  refine ⟨spec, rest, hts, fun value hvalue => ?_⟩
  obtain ⟨tp, htp, haddr⟩ := hvalues value hvalue
  exact ⟨tp, List.mem_of_mem_take htp, haddr⟩

/-- The end of a step leaves a parameter out or restricts it to values of its scenarios. -/
theorem searchFinished_values {search s' : IndividualSearch Srp V} {pools : ScenarioPools}
    {srp : Srp} {finished : Bool} (hprepared : Prepared search pools)
    (hvalues : ValuesOf ps search.tuningParameters)
    (hwithin : ∀ scenario ∈ pools.createdSince 0, scenario.Within ps)
    (h : search.searchFinished sort srp = .ok (finished, s')) :
    ValuesOf ps s'.tuningParameters := by
  obtain ⟨evaluated, hcall, -, hkeys⟩ :=
    ExhaustiveSearch.searchFinished_evaluates srp hprepared.objective
  have hperm := sort.sort_perm (fun a b => a.2 < b.2) evaluated.path.entries
  cases hresults : sort.sort (fun a b => a.2 < b.2) evaluated.path.entries with
  | nil =>
    rw [searchFinished_nil sort hcall (List.nil_perm.mp (hresults ▸ hperm))] at h
    cases h
  | cons best rest =>
    rw [hresults] at hperm
    have hmem : ∀ result ∈ best :: rest, result.1 ∈ evaluated.path.keys :=
      fun result hresult => List.mem_map_of_mem (hperm.mem_iff.mp hresult)
    have hcreated : pools.createdSince 0 ≠ [] := by
      intro hnil
      have hbest := (hkeys _).mp (hmem best List.mem_cons_self)
      rw [hprepared.path, hprepared.queued, hnil] at hbest
      simp at hbest
    obtain ⟨tp, hcurrent⟩ := hprepared.explored hcreated
    by_cases hbetter : search.bestScenario = none ∨ best.2 < search.bestTime
    · obtain ⟨size, elements, -, helements, htps⟩ :=
        searchFinished_improves sort hcall hresults hcurrent hbetter h
      rw [htps]
      refine hvalues.setRestriction fun v hv => ?_
      obtain ⟨scenario, hscenario, -, hhas⟩ :=
        hprepared.occurred hkeys hmem hcurrent helements v hv
      obtain ⟨spec, rest, hts, hspec⟩ := hwithin scenario hscenario
      obtain ⟨spec', rest', hts', hget⟩ := hhas
      obtain ⟨rfl, -⟩ := List.cons.inj (hts.symm.trans hts')
      exact hspec _ (OrdMap.get?_eq_some.mp hget)
    · obtain ⟨finished', t, hrun, hremoved⟩ := searchFinished_returns sort hcall hresults hcurrent
        fun hnow => absurd hnow hbetter
      have hsame : t = s' := (Prod.mk.inj (Outcome.ok.inj (hrun.symm.trans h))).2
      rw [← hsame, hremoved hbetter]
      exact fun tp htp => hvalues tp (List.mem_of_mem_eraseIdx htp)

/-- What a step keeps. -/
theorem nextStep_values {s s' : IndividualSearch Srp V × ScenarioPools} {r : Round Srp}
    (hidle : s.1.searchAlgorithm.scenarioIds = []) (hvalues : ValuesOf ps s.1.tuningParameters)
    (h : nextStep sort rts ptfMinObjective dblMax dblMin s r = .ok s') :
    ValuesOf ps s'.1.tuningParameters := by
  obtain ⟨⟨answer, t⟩, hstep, h⟩ := Outcome.bind_eq_ok.mp h
  obtain ⟨⟨search, pools⟩, hcreate, hstep⟩ := Outcome.bind_eq_ok.mp hstep
  obtain ⟨⟨finished, search'⟩, hfinish, hstep⟩ := Outcome.bind_eq_ok.mp hstep
  have hempty := ScenarioPools.createdSince_elsewhere s.2 r.made 0
  have hprepared := prepared_createScenarios hidle hempty hcreate
  obtain ⟨hsame, hwithin⟩ := createScenarios_within hempty hcreate
  have hs' : s' = (search', pools) := by
    rw [← Outcome.ok.inj h, ← (Prod.mk.inj (Outcome.ok.inj hstep)).2]
  rw [hs']
  exact searchFinished_values sort hprepared (hsame ▸ hvalues)
    (fun scenario hscenario => hvalues.within (hwithin scenario hscenario)) hfinish

/-- In every step of a search, the scenarios have values of the parameters of its space. -/
theorem everyStep_within (unset : V) (k : Int) (objs : List (Nat → Srp → V)) (space : SearchSpace)
    (pools : ScenarioPools) (rs : List (Round Srp)) :
    ∃ s, keeping dblMax dblMin unset k objs space = .ok s ∧
      EveryStep sort rts ptfMinObjective dblMax dblMin
        (fun _ pools _ => ∀ scenario ∈ pools.createdSince 0, scenario.Within space.variantSpace) rs
        (s, pools) := by
  obtain ⟨s, hs, hidle⟩ := keeping_idle unset k objs space
  have htps : s.tuningParameters = space.variantSpace := by
    rw [keeping, addSearchSpace] at hs
    split_ifs at hs
    rw [← Outcome.ok.inj hs]
  have hsteps : ∀ (rs : List (Round Srp)) (s : IndividualSearch Srp V × ScenarioPools),
      s.1.searchAlgorithm.scenarioIds = [] → ValuesOf space.variantSpace s.1.tuningParameters →
      EveryStep sort rts ptfMinObjective dblMax dblMin
        (fun _ pools _ => ∀ scenario ∈ pools.createdSince 0, scenario.Within space.variantSpace)
        rs s := by
    intro rs
    induction rs with
    | nil => exact fun _ _ _ => trivial
    | cons r rs ih =>
      intro s hidle hvalues
      refine ⟨fun search pools' hcreate scenario hscenario => ?_, fun s' hs' => ?_⟩
      · obtain ⟨-, hwithin⟩ := createScenarios_within
          (ScenarioPools.createdSince_elsewhere s.2 r.made 0) hcreate
        exact hvalues.within (hwithin scenario hscenario)
      · exact ih s' (idle_nextStep sort hidle hs') (nextStep_values sort hidle hvalues hs')
  exact ⟨s, hs, hsteps rs (s, pools) hidle fun tp htp v hv => ⟨tp, htps ▸ htp, rfl, hv⟩⟩

end IndividualSearch
end ReadexPtf.Autotune
