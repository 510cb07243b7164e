import ReadexPtf.Autotune.GDE3Check
import Mathlib

/-! The random search: samples of the search spaces, the elimination of duplicates, and the
scenarios made of what is left. -/
namespace ReadexPtf.Autotune
open ReadexPtf

/-- `boost::uniform_smallint<> choice( 0, k )`: the number that the draw `n` gives. -/
structure SmallInts where
  choice : ℕ → ℕ → ℕ
  choice_le : ∀ n k, choice n k ≤ k

/-- The random numbers drawn so far, and the lists of regions and call paths made. -/
structure Sampling where
  drawn : ℕ
  allocated : ℕ

/-- A specification with the address of its list of entities. -/
structure SampledSpecification extends TuningSpecification where
  entityAddr : ℕ

/-- `VariantContext::operator==` compares the addresses of the lists. -/
def SampledSpecification.equals (a b : SampledSpecification) : Bool :=
  a.variant == b.variant && a.contextType == b.contextType && a.entityAddr == b.entityAddr

def areTuningSpecificationListsEqual (tsl1 tsl2 : List SampledSpecification) : Bool :=
  tsl1.isEqv tsl2 SampledSpecification.equals

namespace UniformDistributionModel
variable (rng : SmallInts) (rts : Bool)

/-- One value: `uniform_smallint` is undefined on an empty range. -/
def sampleValue (tp : TuningParameter) (n : ℕ) : Outcome ℤ := do
  let width ← checkedInt (tp.rangeTo - tp.rangeFrom)
  if tp.rangeStep = 0 then .undefined
  else
    let k ← checkedInt (width.tdiv tp.rangeStep)
    if k < 0 then .undefined
    else
      let offset ← checkedInt (rng.choice n k.toNat * tp.rangeStep)
      checkedInt (tp.rangeFrom + offset)

def sampleValues : List TuningParameter → Variant → ℕ → Outcome Variant
  | [], values, _ => .ok values
  | tp :: tps, values, n => do
    let value ← sampleValue rng tp n
    sampleValues tps (values.set tp.addr value) (n + 1)

/-- The constructor of the specification makes a new list of the names. -/
def sample (space : SearchSpace) (s : Sampling) : Outcome (SampledSpecification × Sampling) := do
  let variant ← sampleValues rng space.variantSpace .empty s.drawn
  let entityList := if rts then space.rtsVector else space.regions
  return (⟨listSpecification rts variant entityList, s.allocated⟩,
    ⟨s.drawn + space.variantSpace.length, s.allocated + 1⟩)

end UniformDistributionModel

structure RandomSearch where
  models : List SearchSpace
  sampleCount : ℤ
  scenarioIds : List ℕ

namespace RandomSearch
variable (rng : SmallInts) (rts : Bool)

/-- One specification from each model. -/
def sampleModels : List SearchSpace → Sampling → Outcome (List SampledSpecification × Sampling)
  | [], s => .ok ([], s)
  | model :: models, s => do
    let (spec, s) ← UniformDistributionModel.sample rng rts model s
    let (specs, s) ← sampleModels models s
    return (spec :: specs, s)

/-- The scenarios kept, the number of attempts, and what they drew. -/
abbrev Attempts := List (List SampledSpecification) × ℕ × Sampling

def attempt (models : List SearchSpace) : Attempts → Outcome Attempts
  | (scenarios, i, s) => do
    let (tuningSpecList, s) ← sampleModels rng rts models s
    let skip := scenarios.any fun scenario =>
      areTuningSpecificationListsEqual scenario tuningSpecList
    return (if skip then scenarios else scenarios ++ [tuningSpecList], i + 1, s)

/-- The loop: `scenarios.size() < sampleCount` is a comparison of `size_t`, and the limit of
the attempts, if it comes to it, an `int`. -/
def sampleScenarios (search : RandomSearch) (s : Sampling) : Outcome Attempts := do
  if toSize search.sampleCount = 0 then return ([], 0, s)
  else
    let limit ← checkedInt (3 * search.sampleCount)
    Outcome.whileLoop
      (fun (scenarios, i, _) => scenarios.length < toSize search.sampleCount && (i : ℤ) < limit)
      (attempt rng rts search.models) limit.toNat ([], 0, s)

/-- The scenarios go to the created pool, and their ids to the queue of the search. -/
def createScenarios (search : RandomSearch) (pools : ScenarioPools) (s : Sampling) :
    Outcome (RandomSearch × ScenarioPools × Sampling × ℕ) := do
  let (scenarios, attempts, s) ← sampleScenarios rng rts search s
  let pools' := scenarios.foldl (fun pools scenario =>
    pools.create (scenario.map SampledSpecification.toTuningSpecification)) pools
  return ({ search with
    scenarioIds := search.scenarioIds ++ (List.range scenarios.length).map (pools.nextId + ·) },
    pools', s, attempts)

end RandomSearch

section Sample
variable {rng : SmallInts} {rts : Bool}
open UniformDistributionModel

/-- A range that samples can be taken from: it goes in the direction of its step. -/
def TuningParameter.Samplable (tp : TuningParameter) : Prop :=
  FitsInt (tp.rangeTo - tp.rangeFrom) ∧
  FitsInt ((tp.rangeTo - tp.rangeFrom).tdiv tp.rangeStep) ∧
  (0 < tp.rangeStep ∧ tp.rangeFrom ≤ tp.rangeTo ∨ tp.rangeStep < 0 ∧ tp.rangeTo ≤ tp.rangeFrom)

theorem checkedInt_eq_ok {z z' : ℤ} : checkedInt z = .ok z' ↔ FitsInt z ∧ z' = z := by
  rw [checkedInt]
  split_ifs with h
  · simp [h, eq_comm]
  · simp [h]

/-- The number of steps of a range, in the direction of its step. -/
theorem tdiv_mul_bounds {width step : ℤ} (h : 0 < step ∧ 0 ≤ width ∨ step < 0 ∧ width ≤ 0) :
    0 ≤ width.tdiv step ∧ (0 < step → width.tdiv step * step ≤ width) ∧
      (step < 0 → width ≤ width.tdiv step * step) := by
  cases h with
  | inl hup =>
    rw [Int.tdiv_eq_ediv_of_nonneg hup.2]
    exact ⟨Int.ediv_nonneg hup.2 hup.1.le, fun _ => Int.ediv_mul_le _ hup.1.ne',
      fun hneg => absurd hneg hup.1.asymm⟩
  | inr hdown =>
    have hflip : width.tdiv step = -width / -step := by
      rw [← Int.tdiv_eq_ediv_of_nonneg (by omega), Int.neg_tdiv, Int.tdiv_neg, neg_neg]
    have hmul := Int.ediv_mul_le (-width) (by omega : -step ≠ 0)
    rw [hflip]
    refine ⟨Int.ediv_nonneg (by omega) (by omega), fun hpos => absurd hpos hdown.1.asymm, ?_⟩
    intro _
    rw [mul_neg] at hmul
    omega

/-- The steps of a choice stay in the range. -/
theorem offset_bounds {width step : ℤ} {c : ℕ} (hc : (c : ℤ) ≤ width.tdiv step)
    (h : 0 < step ∧ 0 ≤ width ∨ step < 0 ∧ width ≤ 0) :
    (0 < step → 0 ≤ c * step ∧ c * step ≤ width) ∧
      (step < 0 → width ≤ c * step ∧ c * step ≤ 0) := by
  obtain ⟨-, hup, hdown⟩ := tdiv_mul_bounds h
  constructor
  · intro hpos
    have hmul : (c : ℤ) * step ≤ width.tdiv step * step :=
      Int.mul_le_mul_of_nonneg_right hc hpos.le
    exact ⟨Int.mul_nonneg (by omega) hpos.le, hmul.trans (hup hpos)⟩
  · intro hneg
    have hmul : width.tdiv step * step ≤ c * step := mul_le_mul_of_nonpos_right hc hneg.le
    exact ⟨(hdown hneg).trans hmul, Int.mul_nonpos_of_nonneg_of_nonpos (by omega) hneg.le⟩

/-- A sample of such a range is on its grid. -/
theorem sampleValue_of_samplable {tp : TuningParameter} (hint : tp.IntTyped) (h : tp.Samplable)
    (n : ℕ) : ∃ value, sampleValue rng tp n = .ok value ∧
      OnGrid tp.rangeFrom tp.rangeTo tp.rangeStep value := by
  obtain ⟨hwidth, hcount, hdirection⟩ := h
  obtain ⟨⟨hf, hf'⟩, ⟨ht, ht'⟩, -⟩ := hint
  have hgoes : 0 < tp.rangeStep ∧ 0 ≤ tp.rangeTo - tp.rangeFrom ∨
      tp.rangeStep < 0 ∧ tp.rangeTo - tp.rangeFrom ≤ 0 := by omega
  have hnonneg := (tdiv_mul_bounds hgoes).1
  have hchoice := rng.choice_le n ((tp.rangeTo - tp.rangeFrom).tdiv tp.rangeStep).toNat
  have hc := offset_bounds (c := rng.choice n
    ((tp.rangeTo - tp.rangeFrom).tdiv tp.rangeStep).toNat) (by omega) hgoes
  have hoffset : FitsInt (rng.choice n ((tp.rangeTo - tp.rangeFrom).tdiv tp.rangeStep).toNat *
      tp.rangeStep) := by
    simp only [FitsInt, intMin, intMax] at hwidth ⊢
    omega
  have hvalue : FitsInt (tp.rangeFrom + rng.choice n
      ((tp.rangeTo - tp.rangeFrom).tdiv tp.rangeStep).toNat * tp.rangeStep) := by
    simp only [FitsInt, intMin, intMax] at hf hf' ht ht' ⊢
    omega
  refine ⟨tp.rangeFrom + rng.choice n ((tp.rangeTo - tp.rangeFrom).tdiv tp.rangeStep).toNat *
    tp.rangeStep, ?_, ?_, _, rfl⟩
  · rw [sampleValue, checkedInt, if_pos hwidth, Outcome.ok_bind, if_neg (by omega), checkedInt,
      if_pos hcount, Outcome.ok_bind, if_neg (by omega), checkedInt, if_pos hoffset,
      Outcome.ok_bind, checkedInt, if_pos hvalue]
  · split_ifs with hneg
    · have hdown := hc.2 hneg
      omega
    · have hup := hc.1 (by omega)
      omega

/-- A range whose sample is on its grid is one that samples can be taken from. -/
theorem samplable_of_sampleValue {tp : TuningParameter} {n : ℕ} {value : ℤ}
    (h : sampleValue rng tp n = .ok value)
    (hgrid : OnGrid tp.rangeFrom tp.rangeTo tp.rangeStep value) : tp.Samplable := by
  obtain ⟨width, hwidth, h⟩ := Outcome.bind_eq_ok.mp h
  obtain ⟨hfits, rfl⟩ := checkedInt_eq_ok.mp hwidth
  split_ifs at h with hzero
  obtain ⟨k, hk, h⟩ := Outcome.bind_eq_ok.mp h
  obtain ⟨hcount, rfl⟩ := checkedInt_eq_ok.mp hk
  split_ifs at h with hnonneg
  refine ⟨hfits, hcount, ?_⟩
  obtain ⟨hend, j, rfl⟩ := hgrid
  split_ifs at hend with hneg
  · have hj : (j : ℤ) * tp.rangeStep ≤ 0 :=
      Int.mul_nonpos_of_nonneg_of_nonpos (by omega) hneg.le
    exact .inr ⟨hneg, by omega⟩
  · have hj : 0 ≤ (j : ℤ) * tp.rangeStep := Int.mul_nonneg (by omega) (by omega)
    exact .inl ⟨by omega, by omega⟩

/-- The parameters of a search space: an address is that of one parameter, with bounds and a
step of `int`. -/
structure SearchSpace.Identified (space : SearchSpace) : Prop where
  typed : ∀ tp ∈ space.variantSpace, tp.IntTyped
  single : ∀ tp ∈ space.variantSpace, ∀ tp' ∈ space.variantSpace, tp.addr = tp'.addr → tp = tp'

/-- Every parameter has a value on its grid. -/
def OnGridIn (tps : List TuningParameter) (values : Variant) : Prop :=
  ∀ tp ∈ tps, ∃ value, values.get? tp.addr = some value ∧
    OnGrid tp.rangeFrom tp.rangeTo tp.rangeStep value

/-- What is not sampled stays as it is. -/
theorem sampleValues_frame {tps : List TuningParameter} {addr : ℕ}
    (haddr : ∀ tp ∈ tps, tp.addr ≠ addr) :
    ∀ {values values' : Variant} {n : ℕ}, sampleValues rng tps values n = .ok values' →
      values'.get? addr = values.get? addr := by
  induction tps with
  | nil =>
    intro values values' n h
    rw [Outcome.ok.inj h]
  | cons tp tps ih =>
    intro values values' n h
    rw [List.forall_mem_cons] at haddr
    obtain ⟨value, -, hrest⟩ := Outcome.bind_eq_ok.mp h
    rw [ih haddr.2 hrest, OrdMap.get?_set, if_neg haddr.1.symm]

theorem sampleValues_onGrid {tps : List TuningParameter} (htyped : ∀ tp ∈ tps, tp.IntTyped)
    (hsingle : ∀ tp ∈ tps, ∀ tp' ∈ tps, tp.addr = tp'.addr → tp = tp')
    (h : ∀ tp ∈ tps, tp.Samplable) :
    ∀ (values : Variant) (n : ℕ), ∃ values', sampleValues rng tps values n = .ok values' ∧
      OnGridIn tps values' := by
  induction tps with
  | nil => exact fun values n => ⟨values, rfl, by simp [OnGridIn]⟩
  | cons tp tps ih =>
    intro values n
    rw [List.forall_mem_cons] at htyped h
    obtain ⟨value, hvalue, hgrid⟩ := @sampleValue_of_samplable rng tp htyped.1 h.1 n
    obtain ⟨values', hrest, hgrids⟩ := ih htyped.2
      (fun a ha b hb => hsingle a (List.mem_cons_of_mem tp ha) b (List.mem_cons_of_mem tp hb)) h.2
      (values.set tp.addr value) (n + 1)
    refine ⟨values', by rw [sampleValues, hvalue]; exact hrest, ?_⟩
    intro tp' htp'
    cases List.mem_cons.mp htp' with
    | inr hlater => exact hgrids tp' hlater
    | inl hself =>
      subst hself
      by_cases hagain : ∃ other ∈ tps, other.addr = tp'.addr
      · obtain ⟨other, hother, haddr⟩ := hagain
        have heq := hsingle other (List.mem_cons_of_mem tp' hother) tp' List.mem_cons_self haddr
        exact hgrids tp' (heq ▸ hother)
      · refine ⟨value, ?_, hgrid⟩
        rw [sampleValues_frame (fun other hother haddr => hagain ⟨other, hother, haddr⟩) hrest,
          OrdMap.get?_set, if_pos rfl]

theorem samplable_of_sampleValues {tps : List TuningParameter}
    (hsingle : ∀ tp ∈ tps, ∀ tp' ∈ tps, tp.addr = tp'.addr → tp = tp') :
    ∀ {values values' : Variant} {n : ℕ}, sampleValues rng tps values n = .ok values' →
      OnGridIn tps values' → ∀ tp ∈ tps, tp.Samplable := by
  induction tps with
  | nil => exact fun _ _ tp htp => absurd htp List.not_mem_nil
  | cons tp tps ih =>
    intro values values' n h hgrids
    obtain ⟨value, hvalue, hrest⟩ := Outcome.bind_eq_ok.mp h
    have hlater := ih
      (fun a ha b hb => hsingle a (List.mem_cons_of_mem tp ha) b (List.mem_cons_of_mem tp hb))
      hrest (fun tp' htp' => hgrids tp' (List.mem_cons_of_mem tp htp'))
    rw [List.forall_mem_cons]
    refine ⟨?_, hlater⟩
    by_cases hagain : ∃ other ∈ tps, other.addr = tp.addr
    · obtain ⟨other, hother, haddr⟩ := hagain
      have heq := hsingle other (List.mem_cons_of_mem tp hother) tp List.mem_cons_self haddr
      exact hlater tp (heq ▸ hother)
    · obtain ⟨value', hget, hgrid⟩ := hgrids tp List.mem_cons_self
      rw [sampleValues_frame (fun other hother haddr => hagain ⟨other, hother, haddr⟩) hrest,
        OrdMap.get?_set, if_pos rfl] at hget
      exact samplable_of_sampleValue hvalue (Option.some.inj hget ▸ hgrid)

theorem sample_eq_ok {space : SearchSpace} {s s' : Sampling} {spec : SampledSpecification} :
    sample rng rts space s = .ok (spec, s') ↔
      sampleValues rng space.variantSpace .empty s.drawn = .ok spec.variant ∧
      spec = ⟨listSpecification rts spec.variant (if rts then space.rtsVector else space.regions),
        s.allocated⟩ ∧
      s' = ⟨s.drawn + space.variantSpace.length, s.allocated + 1⟩ := by
  rw [sample, Outcome.bind_eq_ok]
  constructor
  · rintro ⟨values, hvalues, hret⟩
    obtain ⟨rfl, rfl⟩ := Prod.mk.injEq .. ▸ Outcome.ok.inj hret
    exact ⟨hvalues, rfl, rfl⟩
  · rintro ⟨hvalues, hspec, rfl⟩
    refine ⟨spec.variant, hvalues, ?_⟩
    conv_rhs => rw [hspec]
    rfl

namespace RandomSearch

/-- The samples of all models, one after the other. -/
structure SamplesOf (models : List SearchSpace) (s s' : Sampling)
    (specs : List SampledSpecification) : Prop where
  length : specs.length = models.length
  later : ∀ spec ∈ specs, s.allocated ≤ spec.entityAddr ∧ spec.entityAddr < s'.allocated
  grows : s.allocated ≤ s'.allocated

theorem sampleModels_spec {models : List SearchSpace} :
    ∀ {s s' : Sampling} {specs : List SampledSpecification},
      sampleModels rng rts models s = .ok (specs, s') → SamplesOf models s s' specs := by
  induction models with
  | nil =>
    intro s s' specs h
    obtain ⟨rfl, rfl⟩ := Prod.mk.injEq .. ▸ Outcome.ok.inj h
    exact ⟨rfl, by simp, le_rfl⟩
  | cons model models ih =>
    intro s s' specs h
    rw [sampleModels] at h
    obtain ⟨⟨spec, s₁⟩, hsample, h⟩ := Outcome.bind_eq_ok.mp h
    obtain ⟨⟨rest, s₂⟩, hrest, hret⟩ := Outcome.bind_eq_ok.mp h
    obtain ⟨rfl, rfl⟩ := Prod.mk.injEq .. ▸ Outcome.ok.inj hret
    obtain ⟨-, hspec, hs₁⟩ := sample_eq_ok.mp hsample
    have hfollow := ih hrest
    have haddr : spec.entityAddr = s.allocated := by rw [hspec]
    have hnext : s₁.allocated = s.allocated + 1 := by rw [hs₁]
    have hgrows := hfollow.grows
    refine ⟨by simp [hfollow.length], ?_, by omega⟩
    intro spec' hspec'
    cases List.mem_cons.mp hspec' with
    | inl hself => subst hself; omega
    | inr hlater =>
      have hbounds := hfollow.later spec' hlater
      omega

/-- Every model has a specification with values on its grids. -/
def OnGrids (models : List SearchSpace) (ts : List TuningSpecification) : Prop :=
  List.Forall₂ (fun model t => OnGridIn model.variantSpace t.variant) models ts

theorem sampleModels_onGrid {models : List SearchSpace} (hid : ∀ model ∈ models, model.Identified)
    (h : ∀ model ∈ models, ∀ tp ∈ model.variantSpace, tp.Samplable) (s : Sampling) :
    ∃ specs s', sampleModels rng rts models s = .ok (specs, s') ∧
      OnGrids models (specs.map SampledSpecification.toTuningSpecification) := by
  induction models generalizing s with
  | nil => exact ⟨[], s, rfl, .nil⟩
  | cons model models ih =>
    rw [List.forall_mem_cons] at hid h
    obtain ⟨values, hvalues, hgrid⟩ := @sampleValues_onGrid rng model.variantSpace hid.1.typed
      hid.1.single h.1 .empty s.drawn
    obtain ⟨specs, s', hrest, hgrids⟩ :=
      ih hid.2 h.2 ⟨s.drawn + model.variantSpace.length, s.allocated + 1⟩
    refine ⟨⟨listSpecification rts values (if rts then model.rtsVector else model.regions),
      s.allocated⟩ :: specs, s', ?_, List.Forall₂.cons hgrid hgrids⟩
    rw [sampleModels, sample, hvalues]
    simp only [Outcome.ok_bind, Outcome.pure_eq, hrest]

theorem samplable_of_sampleModels {models : List SearchSpace}
    (hid : ∀ model ∈ models, model.Identified) :
    ∀ {s s' : Sampling} {specs : List SampledSpecification},
      sampleModels rng rts models s = .ok (specs, s') →
      OnGrids models (specs.map SampledSpecification.toTuningSpecification) →
      ∀ model ∈ models, ∀ tp ∈ model.variantSpace, tp.Samplable := by
  induction models with
  | nil => exact fun _ _ model hmodel => absurd hmodel List.not_mem_nil
  | cons model models ih =>
    intro s s' specs h hgrids
    rw [sampleModels] at h
    obtain ⟨⟨spec, s₁⟩, hsample, h⟩ := Outcome.bind_eq_ok.mp h
    obtain ⟨⟨rest, s₂⟩, hrest, hret⟩ := Outcome.bind_eq_ok.mp h
    obtain ⟨rfl, rfl⟩ := Prod.mk.injEq .. ▸ Outcome.ok.inj hret
    rw [List.forall_mem_cons] at hid ⊢
    cases hgrids with
    | cons hfirst hothers =>
      exact ⟨samplable_of_sampleValues hid.1.single (sample_eq_ok.mp hsample).1 hfirst,
        ih hid.2 hrest hothers⟩

/-- Lists made later are others: samples of one model and more are never equal. -/
theorem not_equal_of_later {models : List SearchSpace} (hmodels : models ≠ []) {s s' : Sampling}
    {scenario specs : List SampledSpecification}
    (hspecs : sampleModels rng rts models s = .ok (specs, s'))
    (hearlier : ∀ spec ∈ scenario, spec.entityAddr < s.allocated) :
    areTuningSpecificationListsEqual scenario specs = false := by
  have hof := sampleModels_spec hspecs
  cases specs with
  | nil => exact absurd (List.length_eq_zero_iff.mp hof.length.symm) hmodels
  | cons spec specs =>
    cases scenario with
    | nil => rfl
    | cons first rest =>
      have hlater := hof.later spec List.mem_cons_self
      have hold := hearlier first List.mem_cons_self
      have hne : first.entityAddr ≠ spec.entityAddr := by omega
      simp [areTuningSpecificationListsEqual, List.isEqv, SampledSpecification.equals, hne]

variable (rng rts) in
/-- As many samples of all models, without a look at duplicates. -/
def takeSamples (models : List SearchSpace) :
    ℕ → Sampling → Outcome (List (List SampledSpecification) × Sampling)
  | 0, s => .ok ([], s)
  | n + 1, s => do
    let (specs, s) ← sampleModels rng rts models s
    let (scenarios, s) ← takeSamples models n s
    return (specs :: scenarios, s)

/-- With models the loop keeps every sample. -/
theorem whileLoop_attempt_eq {models : List SearchSpace} (hmodels : models ≠ []) {count : ℕ}
    {limit : ℤ} (hlimit : (count : ℤ) ≤ limit) (left : ℕ) :
    ∀ {rounds : ℕ} {scenarios : List (List SampledSpecification)} {s : Sampling},
      scenarios.length + left = count → left ≤ rounds →
      (∀ scenario ∈ scenarios, ∀ spec ∈ scenario, spec.entityAddr < s.allocated) →
      Outcome.whileLoop
        (fun a : Attempts => a.1.length < count && (a.2.1 : ℤ) < limit)
        (attempt rng rts models) rounds (scenarios, scenarios.length, s) =
      (takeSamples rng rts models left s).bind fun p =>
        .ok (scenarios ++ p.1, count, p.2) := by
  induction left with
  | zero =>
    intro rounds scenarios s hcount _ _
    have hdone : ¬ (decide (scenarios.length < count) &&
        decide ((scenarios.length : ℤ) < limit)) = true := by
      simp
      omega
    have hstop : Outcome.whileLoop
        (fun a : Attempts => a.1.length < count && (a.2.1 : ℤ) < limit)
        (attempt rng rts models) rounds (scenarios, scenarios.length, s) =
        .ok (scenarios, scenarios.length, s) := by
      cases rounds with
      | zero => rw [Outcome.whileLoop, if_neg hdone]
      | succ rounds => rw [Outcome.whileLoop, if_neg hdone]
    rw [hstop, takeSamples]
    simp [Outcome.bind, ← hcount]
  | succ left ih =>
    intro rounds scenarios s hcount hrounds hearlier
    obtain ⟨rounds, rfl⟩ := Nat.exists_eq_succ_of_ne_zero (by omega : rounds ≠ 0)
    have hgoes : (decide (scenarios.length < count) &&
        decide ((scenarios.length : ℤ) < limit)) = true := by
      simp
      omega
    rw [Outcome.whileLoop, if_pos hgoes, attempt, takeSamples]
    cases hsample : sampleModels rng rts models s with
    | ok p =>
      obtain ⟨specs, s₁⟩ := p
      have hof := sampleModels_spec hsample
      have hkept : (scenarios.any fun scenario =>
          areTuningSpecificationListsEqual scenario specs) = false := by
        rw [List.any_eq_false]
        intro scenario hscenario
        rw [not_equal_of_later hmodels hsample (hearlier scenario hscenario)]
        simp
      have hnext := @ih rounds (scenarios ++ [specs]) s₁ (by simp; omega) (by omega) (by
        intro scenario hscenario spec hspec
        rw [List.mem_append, List.mem_singleton] at hscenario
        cases hscenario with
        | inl hold => exact (hearlier scenario hold spec hspec).trans_le hof.grows
        | inr hnew => exact (hof.later spec (hnew ▸ hspec)).2)
      rw [List.length_append, List.length_singleton] at hnext
      simp only [Outcome.ok_bind, Outcome.pure_eq, hkept, Bool.false_eq_true, if_false, hnext]
      cases takeSamples rng rts models left s₁ with
      | ok q => simp [Outcome.bind, Outcome.ok_bind]
      | _ => rfl
    | _ => rfl

theorem takeSamples_length {models : List SearchSpace} {n : ℕ} :
    ∀ {s s' : Sampling} {scenarios : List (List SampledSpecification)},
      takeSamples rng rts models n s = .ok (scenarios, s') → scenarios.length = n := by
  induction n with
  | zero =>
    intro s s' scenarios h
    rw [← (Prod.mk.inj (Outcome.ok.inj h)).1, List.length_nil]
  | succ n ih =>
    intro s s' scenarios h
    obtain ⟨⟨specs, s₁⟩, -, h⟩ := Outcome.bind_eq_ok.mp h
    obtain ⟨⟨rest, s₂⟩, hrest, hret⟩ := Outcome.bind_eq_ok.mp h
    rw [← (Prod.mk.inj (Outcome.ok.inj hret)).1, List.length_cons, ih hrest]

theorem takeSamples_onGrid {models : List SearchSpace} (hid : ∀ model ∈ models, model.Identified)
    (h : ∀ model ∈ models, ∀ tp ∈ model.variantSpace, tp.Samplable) (n : ℕ) :
    ∀ s : Sampling, ∃ scenarios s', takeSamples rng rts models n s = .ok (scenarios, s') ∧
      ∀ scenario ∈ scenarios,
        OnGrids models (scenario.map SampledSpecification.toTuningSpecification) := by
  induction n with
  | zero => exact fun s => ⟨[], s, rfl, by simp⟩
  | succ n ih =>
    intro s
    obtain ⟨specs, s₁, hspecs, hgrids⟩ := @sampleModels_onGrid rng rts models hid h s
    obtain ⟨scenarios, s₂, hrest, hall⟩ := ih s₁
    refine ⟨specs :: scenarios, s₂, ?_, List.forall_mem_cons.mpr ⟨hgrids, hall⟩⟩
    rw [takeSamples, hspecs]
    simp only [Outcome.ok_bind, hrest]
    rfl

theorem samplable_of_takeSamples {models : List SearchSpace}
    (hid : ∀ model ∈ models, model.Identified) {n : ℕ} (hn : 0 < n) {s s' : Sampling}
    {scenarios : List (List SampledSpecification)}
    (h : takeSamples rng rts models n s = .ok (scenarios, s'))
    (hgrids : ∀ scenario ∈ scenarios,
      OnGrids models (scenario.map SampledSpecification.toTuningSpecification)) :
    ∀ model ∈ models, ∀ tp ∈ model.variantSpace, tp.Samplable := by
  obtain ⟨n, rfl⟩ := Nat.exists_eq_succ_of_ne_zero hn.ne'
  obtain ⟨⟨specs, s₁⟩, hspecs, h⟩ := Outcome.bind_eq_ok.mp h
  obtain ⟨⟨rest, s₂⟩, -, hret⟩ := Outcome.bind_eq_ok.mp h
  have hmem : specs ∈ scenarios := (Prod.mk.inj (Outcome.ok.inj hret)).1 ▸ List.mem_cons_self
  exact samplable_of_sampleModels hid hspecs (hgrids specs hmem)

/-- Without a model every sample is the empty list: the first one is kept. -/
theorem whileLoop_attempt_nil {count : ℕ} {limit : ℤ} (hcount : 0 < count)
    (hlimit : (count : ℤ) ≤ limit) (s : Sampling) :
    ∃ attempts s', Outcome.whileLoop
        (fun a : Attempts => a.1.length < count && (a.2.1 : ℤ) < limit)
        (attempt rng rts []) limit.toNat ([], 0, s) = .ok ([[]], attempts, s') ∧
      (attempts : ℤ) ≤ limit ∧ (1 < count → (attempts : ℤ) = limit) := by
  obtain ⟨⟨scenarios, attempts, s'⟩, hrun, ⟨hle, hcases⟩, hstop⟩ :=
    @Outcome.whileLoop_total Attempts
      (fun a : Attempts => a.1.length < count && (a.2.1 : ℤ) < limit) (attempt rng rts [])
      (fun a : Attempts => (a.2.1 : ℤ) ≤ limit ∧ (a.1 = [] ∧ a.2.1 = 0 ∨ a.1 = [[]]))
      (fun a => limit.toNat - a.2.1) (fun a hcond ha => by
        obtain ⟨scenarios, i, s⟩ := a
        simp only [Bool.and_eq_true, decide_eq_true_eq] at hcond ha
        cases ha.2 with
        | inl hfirst =>
          obtain ⟨rfl, rfl⟩ := hfirst
          exact ⟨([[]], 1, s), rfl, ⟨by simp only []; omega, .inr rfl⟩, by simp only []; omega⟩
        | inr hlater =>
          subst hlater
          exact ⟨([[]], i + 1, s), rfl, ⟨by simp only []; omega, .inr rfl⟩,
            by simp only []; omega⟩)
      limit.toNat ([], 0, s) ⟨by simp only []; omega, .inl ⟨rfl, rfl⟩⟩ (by simp)
  simp only [Bool.and_eq_true, decide_eq_true_eq, not_and] at hstop hcases hle
  cases hcases with
  | inl hfirst =>
    obtain ⟨rfl, rfl⟩ := hfirst
    have hend := hstop hcount
    omega
  | inr hlater =>
    subst hlater
    refine ⟨attempts, s', hrun, hle, fun hmore => ?_⟩
    have hend := hstop hmore
    omega

/-- The values of all parameters in a scenario, model by model. -/
def valueLists (ts : List TuningSpecification) : List Variant := ts.map TuningSpecification.variant

/-- What a call of `createScenarios` that made `created` in so many attempts is to guarantee. -/
structure Sampled (models : List SearchSpace) (sampleCount : ℤ)
    (created : List (List TuningSpecification)) (attempts : ℕ) : Prop where
  few : (created.length : ℤ) ≤ max 0 sampleCount
  distinct : (created.map valueLists).Nodup
  onGrid : ∀ ts ∈ created, OnGrids models ts
  bounded : (attempts : ℤ) ≤ max 0 (3 * sampleCount)
  exhausted : (created.length : ℤ) < sampleCount → (attempts : ℤ) = 3 * sampleCount

/-- The specifications of the scenarios made in the pool since the id `first`. -/
def createdTs (pools : ScenarioPools) (first : ℕ) : List (List TuningSpecification) :=
  (pools.createdSince first).map Scenario.ts

theorem createdTs_foldl {first : ℕ} (scenarios : List (List SampledSpecification))
    (pools : ScenarioPools) (h : first ≤ pools.nextId) :
    createdTs (scenarios.foldl (fun pools scenario =>
        pools.create (scenario.map SampledSpecification.toTuningSpecification)) pools) first =
      createdTs pools first ++
        scenarios.map (List.map SampledSpecification.toTuningSpecification) := by
  induction scenarios generalizing pools with
  | nil => simp
  | cons scenario scenarios ih =>
    rw [List.foldl_cons, ih _ (by rw [ScenarioPools.nextId_create]; omega), createdTs,
      ScenarioPools.createdSince_create pools _ h]
    simp [createdTs]

variable (rng rts) in
/-- No two of the first samples have the same values. -/
def SamplesDiffer (models : List SearchSpace) (n : ℕ) (s : Sampling) : Prop :=
  ∀ scenarios s', takeSamples rng rts models n s = .ok (scenarios, s') →
    (scenarios.map fun scenario =>
      valueLists (scenario.map SampledSpecification.toTuningSpecification)).Nodup

theorem createScenarios_eq_ok {search : RandomSearch} {pools : ScenarioPools} {s : Sampling}
    {out : RandomSearch × ScenarioPools × Sampling × ℕ}
    (h : createScenarios rng rts search pools s = .ok out) :
    ∃ scenarios, sampleScenarios rng rts search s = .ok (scenarios, out.2.2.2, out.2.2.1) ∧
      createdTs out.2.1 pools.nextId =
        scenarios.map (List.map SampledSpecification.toTuningSpecification) := by
  obtain ⟨⟨scenarios, attempts, s'⟩, hrun, hret⟩ := Outcome.bind_eq_ok.mp h
  rw [← Outcome.ok.inj hret]
  refine ⟨scenarios, hrun, ?_⟩
  rw [createdTs_foldl scenarios pools le_rfl, createdTs, pools.createdSince_nextId]
  rfl

theorem createScenarios_of_samples {search : RandomSearch} {s s' : Sampling}
    {scenarios : List (List SampledSpecification)} {attempts : ℕ} (pools : ScenarioPools)
    (h : sampleScenarios rng rts search s = .ok (scenarios, attempts, s')) :
    ∃ search' pools', createScenarios rng rts search pools s = .ok (search', pools', s', attempts) ∧
      createdTs pools' pools.nextId =
        scenarios.map (List.map SampledSpecification.toTuningSpecification) := by
  have hrun : ∃ search' pools',
      createScenarios rng rts search pools s = .ok (search', pools', s', attempts) := by
    rw [createScenarios, h]
    exact ⟨_, _, rfl⟩
  obtain ⟨search', pools', hrun⟩ := hrun
  obtain ⟨scenarios', hsamples, hcreated⟩ := createScenarios_eq_ok hrun
  obtain ⟨rfl, -⟩ := Prod.mk.injEq .. ▸ Outcome.ok.inj (h.symm.trans hsamples)
  exact ⟨search', pools', hrun, hcreated⟩

theorem toSize_of_pos {z : ℤ} (hpos : 0 < z) (hfits : FitsInt (3 * z)) : toSize z = z.toNat := by
  simp only [FitsInt, intMin, intMax] at hfits
  rw [toSize]
  omega

/-- The limit of the attempts is computed unless no sample is asked for. -/
theorem sampleScenarios_eq {search : RandomSearch} (s : Sampling) (hpos : search.sampleCount ≠ 0)
    (hfits : FitsInt (3 * search.sampleCount)) :
    sampleScenarios rng rts search s = Outcome.whileLoop
      (fun a : Attempts => a.1.length < toSize search.sampleCount &&
        (a.2.1 : ℤ) < 3 * search.sampleCount)
      (attempt rng rts search.models) (3 * search.sampleCount).toNat ([], 0, s) := by
  have hsize : toSize search.sampleCount ≠ 0 := by
    simp only [FitsInt, intMin, intMax] at hfits
    rw [toSize]
    omega
  rw [sampleScenarios, if_neg hsize, checkedInt, if_pos hfits]
  rfl

theorem fits_of_sampleScenarios {search : RandomSearch} {s : Sampling} {out : Attempts}
    (h : sampleScenarios rng rts search s = .ok out) (hint : FitsInt search.sampleCount) :
    FitsInt (3 * search.sampleCount) := by
  rw [sampleScenarios] at h
  split_ifs at h with hzero
  · have hcount : search.sampleCount = 0 := by
      simp only [FitsInt, intMin, intMax] at hint
      rw [toSize] at hzero
      omega
    rw [hcount]
    decide
  · obtain ⟨limit, hlimit, -⟩ := Outcome.bind_eq_ok.mp h
    exact (checkedInt_eq_ok.mp hlimit).1

/-- The search with models keeps the first samples as they come. -/
theorem sampleScenarios_models {search : RandomSearch} (s : Sampling)
    (hpos : 0 < search.sampleCount) (hfits : FitsInt (3 * search.sampleCount))
    (hmodels : search.models ≠ []) :
    sampleScenarios rng rts search s =
      (takeSamples rng rts search.models search.sampleCount.toNat s).bind fun p =>
        .ok (p.1, search.sampleCount.toNat, p.2) := by
  rw [sampleScenarios_eq s hpos.ne' hfits, toSize_of_pos hpos hfits]
  exact @whileLoop_attempt_eq rng rts _ hmodels search.sampleCount.toNat _ (by omega)
    search.sampleCount.toNat _ [] s (by simp)
    (by omega) (by simp)

/-- The call guarantees it all exactly if the limit of the attempts is one of `int` and, where
there are samples to take, they can be taken and the first of them differ. -/
theorem createScenarios_sampled_iff {search : RandomSearch} (pools : ScenarioPools) (s : Sampling)
    (hint : FitsInt search.sampleCount) (hid : ∀ model ∈ search.models, model.Identified) :
    (∃ search' pools' s' attempts,
      createScenarios rng rts search pools s = .ok (search', pools', s', attempts) ∧
      Sampled search.models search.sampleCount (createdTs pools' pools.nextId) attempts) ↔
    FitsInt (3 * search.sampleCount) ∧ (search.sampleCount ≤ 0 ∨ search.models = [] ∨
      (∀ model ∈ search.models, ∀ tp ∈ model.variantSpace, tp.Samplable) ∧
        SamplesDiffer rng rts search.models search.sampleCount.toNat s) := by
  constructor
  · rintro ⟨search', pools', s', attempts, hrun, hsampled⟩
    obtain ⟨scenarios, hsamples, hcreated⟩ := createScenarios_eq_ok hrun
    have hfits := fits_of_sampleScenarios hsamples hint
    refine ⟨hfits, ?_⟩
    by_cases hpos : 0 < search.sampleCount
    · by_cases hmodels : search.models = []
      · exact .inr (.inl hmodels)
      · rw [sampleScenarios_models s hpos hfits hmodels] at hsamples
        obtain ⟨⟨scenarios', s₁⟩, htake, hret⟩ := Outcome.bind_eq_ok.mp hsamples
        obtain ⟨rfl, -⟩ := Prod.mk.injEq .. ▸ Outcome.ok.inj hret
        rw [hcreated] at hsampled
        refine .inr (.inr ⟨samplable_of_takeSamples hid (by omega) htake ?_, ?_⟩)
        · intro scenario hscenario
          exact hsampled.onGrid _ (List.mem_map_of_mem hscenario)
        · intro scenarios'' s'' htake'
          obtain ⟨rfl, -⟩ := Prod.mk.injEq .. ▸ Outcome.ok.inj (htake.symm.trans htake')
          simpa [List.map_map, Function.comp_def] using hsampled.distinct
    · exact .inl (not_lt.mp hpos)
  · rintro ⟨hfits, hcases⟩
    by_cases hpos : 0 < search.sampleCount
    · by_cases hmodels : search.models = []
      · obtain ⟨attempts, s', hloop, hle, hmore⟩ := @whileLoop_attempt_nil rng rts
          search.sampleCount.toNat (3 * search.sampleCount) (by omega) (by omega) s
        have hsamples : sampleScenarios rng rts search s = .ok ([[]], attempts, s') := by
          rw [sampleScenarios_eq s hpos.ne' hfits, toSize_of_pos hpos hfits, hmodels]
          exact hloop
        obtain ⟨search', pools', hrun, hcreated⟩ := createScenarios_of_samples pools hsamples
        refine ⟨search', pools', s', attempts, hrun, ?_⟩
        rw [hcreated]
        refine ⟨by simp; omega, by simp, ?_, by omega, fun hless => hmore ?_⟩
        · rw [hmodels]
          simp [OnGrids]
        · simp at hless
          omega
      · obtain ⟨hsamplable, hdiffer⟩ := (hcases.resolve_left (by omega)).resolve_left hmodels
        obtain ⟨scenarios, s', htake, hgrids⟩ := @takeSamples_onGrid rng rts search.models hid
          hsamplable search.sampleCount.toNat s
        have hlength := takeSamples_length htake
        have hsamples : sampleScenarios rng rts search s =
            .ok (scenarios, search.sampleCount.toNat, s') := by
          rw [sampleScenarios_models s hpos hfits hmodels, htake]
          rfl
        obtain ⟨search', pools', hrun, hcreated⟩ := createScenarios_of_samples pools hsamples
        refine ⟨search', pools', s', _, hrun, ?_⟩
        rw [hcreated]
        refine ⟨by simp [hlength]; omega, ?_, by simpa using hgrids, by omega, ?_⟩
        · simpa [List.map_map, Function.comp_def] using hdiffer scenarios s' htake
        · intro hless
          simp only [List.length_map, hlength] at hless
          omega
    · have hsamples : sampleScenarios rng rts search s = .ok ([], 0, s) := by
        by_cases hzero : search.sampleCount = 0
        · rw [sampleScenarios, hzero]
          rfl
        · have hnone : (3 * search.sampleCount).toNat = 0 := by omega
          rw [sampleScenarios_eq s hzero hfits, hnone, Outcome.whileLoop, if_neg]
          simp
          omega
      obtain ⟨search', pools', hrun, hcreated⟩ := createScenarios_of_samples pools hsamples
      refine ⟨search', pools', s, 0, hrun, ?_⟩
      rw [hcreated]
      exact ⟨by simp, by simp, by simp, by simp, fun hless => absurd hless (by simp; omega)⟩

/-- One parameter of as many values as its range has from 0 to `last`. -/
def singleSpace (last : ℤ) : SearchSpace := ⟨["region"], [], [⟨0, 0, last, 1, none⟩]⟩

/-- Each draw gives its number, or the end of the range. -/
def counting : SmallInts := ⟨min, fun _ _ => min_le_right _ _⟩

theorem createScenarios_sampled_iff_ten :
    (∃ search' pools' s' attempts,
      createScenarios counting false ⟨[singleSpace 9], 2, []⟩ .empty ⟨0, 0⟩ =
        .ok (search', pools', s', attempts) ∧
      Sampled [singleSpace 9] 2 (createdTs pools' 0) attempts) ↔
    FitsInt (3 * 2) ∧ ((2 : ℤ) ≤ 0 ∨ [singleSpace 9] = [] ∨
      (∀ model ∈ [singleSpace 9], ∀ tp ∈ model.variantSpace, tp.Samplable) ∧
        SamplesDiffer counting false [singleSpace 9] 2 ⟨0, 0⟩) := by
  refine @createScenarios_sampled_iff counting false ⟨[singleSpace 9], 2, []⟩ .empty ⟨0, 0⟩
    (by decide) ?_
  intro model hmodel
  rw [List.mem_singleton] at hmodel
  subst hmodel
  exact ⟨by decide, by decide⟩

/-- A parameter of one value is sampled twice. -/
theorem not_createScenarios_sampled_single : ¬ ∃ search' pools' s' attempts,
    createScenarios counting false ⟨[singleSpace 0], 2, []⟩ .empty ⟨0, 0⟩ =
      .ok (search', pools', s', attempts) ∧
    Sampled [singleSpace 0] 2 (createdTs pools' 0) attempts := by
  rintro ⟨search', pools', s', attempts, hrun, hsampled⟩
  have hrepeats : (createScenarios counting false ⟨[singleSpace 0], 2, []⟩ .empty
      ⟨0, 0⟩).returnsWith fun out => decide ¬ ((createdTs out.2.1 0).map valueLists).Nodup := by
    decide
  obtain ⟨out, hout, hrepeat⟩ := Outcome.returnsWith_iff.mp hrepeats
  have hsame := Outcome.ok.inj (hrun.symm.trans hout)
  rw [← hsame] at hrepeat
  exact of_decide_eq_true hrepeat hsampled.distinct

end RandomSearch
end Sample
end ReadexPtf.Autotune
