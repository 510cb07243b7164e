import ReadexPtf.Autotune.RandomSearch
import ReadexPtf.Lib.Cumulative
import Mathlib

/-! The probability model that takes the tuning parameters as independent: histograms of the
configurations it is trained with, their running sums, and the values drawn from these. -/
namespace ReadexPtf.Autotune
open ReadexPtf

/-- `boost::uniform_01`, over exact rationals. -/
structure UnitDraws where
  random01 : ℕ → ℚ
  nonneg : ∀ n, 0 ≤ random01 n
  lt_one : ∀ n, random01 n < 1

/-- What a model is trained with. `getTuningValue` is virtual, and a parameter may have no
tuning value for a number. -/
structure Training (T : Type) where
  getTuningValue : TuningParameter → ℤ → Option T
  tcs : List (Finset T)
  smoothness : ℤ

/-- `std::accumulate` over a vector of `int`. -/
def sumInts (xs : List ℤ) : Outcome ℤ := xs.foldlM (fun sum x => checkedInt (sum + x)) 0

/-- The loop over the values of a parameter, after some of them. -/
structure SampleCounts where
  idx : ℕ
  lackOfValueIdx : Option ℕ
  sampleCount : List ℤ

namespace Training
variable {T : Type} [DecidableEq T] (training : Training T)

/-- The configurations that have the tuning value. -/
def occurrences (tv0 : T) : Outcome ℤ :=
  training.tcs.foldlM (fun count tc => if tv0 ∈ tc then checkedInt (count + 1) else .ok count) 0

def valueCount : Option T → Outcome ℤ
  | none => .ok 0
  | some tv0 => training.occurrences tv0

def countValue (param : TuningParameter) (val : ℤ) (counts : SampleCounts) :
    Outcome SampleCounts := do
  let tv0 := training.getTuningValue param val
  let count ← training.valueCount tv0
  -- the increment of `idx`
  let _ ← checkedInt (counts.idx + 1)
  return {
    idx := counts.idx + 1
    lackOfValueIdx := if tv0.isNone then some counts.idx else counts.lackOfValueIdx
    sampleCount := counts.sampleCount ++ [count] }

/-- The configurations without any of the other values go to the last one that lacks a tuning
value. The difference is one of `size_t`, taken as an `int`. -/
def assignRest (counts : SampleCounts) : Outcome (List ℤ) :=
  match counts.lackOfValueIdx with
  | none => .ok counts.sampleCount
  | some idx => do
    let sum ← sumInts counts.sampleCount
    let count ← Outcome.elementAt counts.sampleCount idx
    let count ← checkedInt (count + max 0 ((training.tcs.length - sum).bmod (2 ^ 32)))
    return counts.sampleCount.set idx count

def smooth (sampleCount : List ℤ) : Outcome (List ℤ) :=
  sampleCount.mapM fun count => checkedInt (count + training.smoothness)

def histogram (param : TuningParameter) : Outcome (List ℤ) := do
  let counts ← forRange param.rangeTo param.rangeStep (training.countValue param)
    param.rangeFrom ⟨0, none, []⟩
  let sampleCount ← training.assignRest counts
  training.smooth sampleCount

end Training

/-- `map<TuningParameter*, vector<double>>`, with the parameters. -/
abbrev ParamToCDF := OrdMap ℕ (TuningParameter × List ℚ)

def addParameterWithCDF (paramToCDF : ParamToCDF) (param : TuningParameter) (CDF : List ℚ) :
    ParamToCDF :=
  paramToCDF.set param.addr (param, CDF)

/-- `CDF.at( 0 )` throws where there is no value. -/
def addParameterWithPDF (paramToCDF : ParamToCDF) (param : TuningParameter) (PDF : List ℚ) :
    Outcome ParamToCDF :=
  if PDF.isEmpty then .throws "vector::_M_range_check"
  else .ok (addParameterWithCDF paramToCDF param (cumulative 0 PDF))

def addParameterWithSampleCount (paramToCDF : ParamToCDF) (param : TuningParameter)
    (sampleCount : List ℤ) : Outcome ParamToCDF := do
  let N ← sumInts sampleCount
  addParameterWithPDF paramToCDF param (sampleCount.map fun count : ℤ => (count : ℚ) / N)

structure IndependentParametersModel where
  paramToCDF : ParamToCDF
  /-- `regionList` or `rtsList`: the names behind the pointers, `none` once the list is deleted. -/
  entityList : Option (List String)
  drawn : ℕ

namespace IndependentParametersModel

def fromConfigurationSamples {T : Type} [DecidableEq T] (rts : Bool) (ss : SearchSpace)
    (training : Training T) : Outcome IndependentParametersModel := do
  let paramToCDF ← ss.variantSpace.foldlM (fun paramToCDF param => do
    let sampleCount ← training.histogram param
    addParameterWithSampleCount paramToCDF param sampleCount) .empty
  return ⟨paramToCDF, some (if rts then ss.rtsVector else ss.regions), 0⟩

def sampleValue (tp : TuningParameter) (CDF : List ℚ) (u : ℚ) : Outcome ℤ := do
  let offset ← checkedInt (upperBound CDF u * tp.rangeStep)
  checkedInt (tp.rangeFrom + offset)

/-- The values of the parameters in the order of their addresses, one draw for each. -/
def sampleValues (draws : UnitDraws) (model : IndependentParametersModel) : Outcome Variant :=
  OrdMap.fill (fun e : (ℕ × TuningParameter × List ℚ) × ℕ => e.1.1)
    (fun e => sampleValue e.1.2.1 e.1.2.2 (draws.random01 (model.drawn + e.2)))
    model.paramToCDF.entries.zipIdx .empty

/-- The constructor of the specification reads the list of the model and deletes it. -/
def sample (rts : Bool) (draws : UnitDraws) (model : IndependentParametersModel) :
    Outcome (TuningSpecification × IndependentParametersModel) := do
  let sample_ ← sampleValues draws model
  match model.entityList with
  | none => .undefined
  | some entityList =>
    return (listSpecification rts sample_ entityList,
      { model with
        entityList := none
        drawn := model.drawn + model.paramToCDF.entries.length })

def takeSamples (rts : Bool) (draws : UnitDraws) :
    ℕ → IndependentParametersModel → Outcome (List TuningSpecification)
  | 0, _ => .ok []
  | n + 1, model => do
    let (specification, model) ← sample rts draws model
    let specifications ← takeSamples rts draws n model
    return specification :: specifications

end IndependentParametersModel

section Counts

theorem foldlM_sum_eq_ok {xs : List ℤ} :
    ∀ {a z : ℤ}, xs.foldlM (fun sum x => checkedInt (sum + x)) a = .ok z →
      z = a + xs.sum ∧ (FitsInt a → FitsInt z) := by
  induction xs with
  | nil =>
    intro a z h
    rw [← Outcome.ok.inj h]
    exact ⟨by simp, id⟩
  | cons x xs ih =>
    intro a z h
    obtain ⟨b, hb, hrest⟩ := Outcome.bind_eq_ok.mp h
    obtain ⟨hfits, rfl⟩ := checkedInt_eq_ok.mp hb
    obtain ⟨hsum, hz⟩ := ih hrest
    exact ⟨by rw [hsum, List.sum_cons, add_assoc], fun _ => hz hfits⟩

/-- Numbers of one sign: their partial sums lie between the first and the last. -/
theorem foldlM_sum_of_sign {xs : List ℤ} :
    ∀ {a : ℤ}, (∀ x ∈ xs, 0 ≤ x) ∨ (∀ x ∈ xs, x ≤ 0) → FitsInt a → FitsInt (a + xs.sum) →
      xs.foldlM (fun sum x => checkedInt (sum + x)) a = .ok (a + xs.sum) := by
  induction xs with
  | nil => exact fun _ _ _ => by simp
  | cons x xs ih =>
    intro a hsign ha hsum
    rw [List.forall_mem_cons, List.forall_mem_cons] at hsign
    rw [List.sum_cons, ← add_assoc] at hsum ⊢
    have hnext : FitsInt (a + x) := by
      simp only [FitsInt, intMin, intMax] at ha hsum ⊢
      cases hsign with
      | inl hup =>
        have hrest := List.sum_nonneg hup.2
        omega
      | inr hdown =>
        have hrest := (List.sum_le_card_nsmul xs 0 hdown.2).trans_eq (smul_zero _)
        omega
    rw [List.foldlM_cons, checkedInt, if_pos hnext, Outcome.ok_bind]
    exact ih (hsign.imp And.right And.right) hnext hsum

theorem sumInts_eq_ok {xs : List ℤ} {z : ℤ} (h : sumInts xs = .ok z) :
    z = xs.sum ∧ FitsInt z := by
  obtain ⟨hsum, hfits⟩ := foldlM_sum_eq_ok h
  exact ⟨by rw [hsum, zero_add], hfits (by decide)⟩

theorem sumInts_of_sign {xs : List ℤ} (hsign : (∀ x ∈ xs, 0 ≤ x) ∨ (∀ x ∈ xs, x ≤ 0))
    (hfits : FitsInt xs.sum) : sumInts xs = .ok xs.sum := by
  have hsum := @foldlM_sum_of_sign xs 0 hsign (by decide) (by rwa [zero_add])
  rwa [zero_add] at hsum

namespace Training
variable {T : Type} [DecidableEq T] {training : Training T}

theorem foldlM_count_eq_ok {tv0 : T} {tcs : List (Finset T)} :
    ∀ {a z : ℤ}, 0 ≤ a → a ≤ intMax →
      (tcs.foldlM (fun count tc => if tv0 ∈ tc then checkedInt (count + 1) else .ok count) a =
          .ok z ↔
        a + tcs.countP (tv0 ∈ ·) ≤ intMax ∧ z = a + tcs.countP (tv0 ∈ ·)) := by
  induction tcs with
  | nil =>
    intro a z ha hmax
    simp [hmax, eq_comm]
  | cons tc tcs ih =>
    intro a z ha hmax
    rw [List.foldlM_cons]
    by_cases htc : tv0 ∈ tc
    · rw [if_pos htc, List.countP_cons_of_pos (by simpa using htc)]
      by_cases hnext : a + 1 ≤ intMax
      · have hfits : FitsInt (a + 1) := ⟨by rw [intMin]; omega, hnext⟩
        rw [checkedInt, if_pos hfits, Outcome.ok_bind, ih (by omega) hnext]
        push_cast
        rw [show a + 1 + (tcs.countP (tv0 ∈ ·) : ℤ) = a + (tcs.countP (tv0 ∈ ·) + 1) by ring]
      · rw [checkedInt, if_neg fun hfits => hnext hfits.2]
        simp
        omega
    · rw [if_neg htc, List.countP_cons_of_neg (by simpa using htc), Outcome.ok_bind, ih ha hmax]

variable (training) in
/-- The configurations with the value; none has a value that lacks a tuning value. -/
def matching : Option T → ℤ
  | none => 0
  | some tv0 => training.tcs.countP (tv0 ∈ ·)

theorem valueCount_eq_ok {tv : Option T} {z : ℤ} :
    training.valueCount tv = .ok z ↔ training.matching tv ≤ intMax ∧ z = training.matching tv := by
  cases tv with
  | none => simp [valueCount, matching, intMax, eq_comm]
  | some tv0 =>
    have hcount := @foldlM_count_eq_ok T _ tv0 training.tcs 0 z le_rfl (by decide)
    rwa [zero_add] at hcount

/-- The last index, from `idx` on, of a value without a tuning value. -/
def lacking (idx : ℕ) (found : Option ℕ) : List (Option T) → Option ℕ
  | [] => found
  | tv :: tvs => lacking (idx + 1) (if tv.isNone then some idx else found) tvs

omit [DecidableEq T] in
theorem lacking_eq_some {tvs : List (Option T)} :
    ∀ {idx i : ℕ} {found : Option ℕ}, lacking idx found tvs = some i →
      found = some i ∨ idx ≤ i ∧ tvs[i - idx]? = some none := by
  induction tvs with
  | nil => exact fun h => .inl h
  | cons tv tvs ih =>
    intro idx i found h
    cases ih h with
    | inl hhere =>
      split_ifs at hhere with hnone
      · obtain rfl := Option.some.inj hhere
        rw [Option.isNone_iff_eq_none] at hnone
        exact .inr ⟨le_rfl, by rw [Nat.sub_self, hnone]; rfl⟩
      · exact .inl hhere
    | inr hlater =>
      refine .inr ⟨by omega, ?_⟩
      rw [show i - idx = i - (idx + 1) + 1 by omega, List.getElem?_cons_succ]
      exact hlater.2

variable (training) in
def tuningValues (param : TuningParameter) : List (Option T) :=
  (gridValues param.rangeFrom param.rangeTo param.rangeStep).map (training.getTuningValue param)

theorem countValue_eq_ok {param : TuningParameter} {val : ℤ} {counts counts' : SampleCounts} :
    training.countValue param val counts = .ok counts' ↔
      (training.matching (training.getTuningValue param val) ≤ intMax ∧
        (counts.idx + 1 : ℤ) ≤ intMax) ∧
      counts' = ⟨counts.idx + 1,
        if (training.getTuningValue param val).isNone then some counts.idx
          else counts.lackOfValueIdx,
        counts.sampleCount ++ [training.matching (training.getTuningValue param val)]⟩ := by
  rw [countValue, Outcome.bind_eq_ok]
  constructor
  · rintro ⟨count, hcount, h⟩
    obtain ⟨hmax, rfl⟩ := valueCount_eq_ok.mp hcount
    obtain ⟨next, hnext, hret⟩ := Outcome.bind_eq_ok.mp h
    exact ⟨⟨hmax, (checkedInt_eq_ok.mp hnext).1.2⟩, (Outcome.ok.inj hret).symm⟩
  · rintro ⟨⟨hmax, hnext⟩, rfl⟩
    have hfits : FitsInt (counts.idx + 1) := ⟨by rw [intMin]; omega, hnext⟩
    refine ⟨_, valueCount_eq_ok.mpr ⟨hmax, rfl⟩, ?_⟩
    rw [checkedInt, if_pos hfits]
    rfl

/-- The loop over the values counts each of them, if the counts are ones of `int`. -/
theorem foldlM_countValue {param : TuningParameter} {vals : List ℤ} :
    ∀ {counts counts' : SampleCounts}, (counts.idx : ℤ) ≤ intMax →
      (vals.foldlM (fun counts val => training.countValue param val counts) counts = .ok counts' ↔
        ((counts.idx + vals.length : ℤ) ≤ intMax ∧
          ∀ tv ∈ vals.map (training.getTuningValue param), training.matching tv ≤ intMax) ∧
        counts' = ⟨counts.idx + vals.length,
          lacking counts.idx counts.lackOfValueIdx (vals.map (training.getTuningValue param)),
          counts.sampleCount ++
            (vals.map (training.getTuningValue param)).map training.matching⟩) := by
  induction vals with
  | nil =>
    intro counts counts' hidx
    rw [List.foldlM_nil, Outcome.pure_eq, Outcome.ok.injEq, eq_comm]
    simp [lacking, hidx]
  | cons val vals ih =>
    intro counts counts' hidx
    rw [List.foldlM_cons, List.map_cons, List.forall_mem_cons, List.length_cons,
      Outcome.bind_eq_ok]
    have hlength : (counts.idx : ℤ) + (vals.length + 1 : ℕ) =
        ((counts.idx + 1 : ℕ) : ℤ) + vals.length := by
      push_cast
      ring
    rw [hlength, show counts.idx + (vals.length + 1) = counts.idx + 1 + vals.length by ring]
    constructor
    · rintro ⟨counts₁, hstep, hrest⟩
      obtain ⟨⟨hmax, hnext⟩, rfl⟩ := countValue_eq_ok.mp hstep
      obtain ⟨⟨hlast, htvs⟩, rfl⟩ := (ih (by exact_mod_cast hnext)).mp hrest
      exact ⟨⟨hlast, hmax, htvs⟩, by simp [lacking]⟩
    · rintro ⟨⟨hlast, hmax, htvs⟩, rfl⟩
      have hnext : (counts.idx + 1 : ℤ) ≤ intMax := by push_cast at hlast; omega
      refine ⟨_, countValue_eq_ok.mpr ⟨⟨hmax, hnext⟩, rfl⟩, ?_⟩
      refine (ih (by exact_mod_cast hnext)).mpr ⟨⟨hlast, htvs⟩, ?_⟩
      simp [lacking]

variable (training) in
/-- The configurations that go to each value of the parameter. -/
def assigned (param : TuningParameter) : List ℤ :=
  let matched := (training.tuningValues param).map training.matching
  match lacking 0 none (training.tuningValues param) with
  | none => matched
  | some idx => matched.set idx (max 0 ((training.tcs.length - matched.sum).bmod (2 ^ 32)))

variable (training) in
/-- The counts with the smoothing: the weights of the values. -/
def weights (param : TuningParameter) : List ℤ :=
  (training.assigned param).map (· + training.smoothness)

variable (training) in
/-- The counting of the configurations stays in the numbers of `int`. -/
structure Countable (param : TuningParameter) : Prop where
  step : 0 < param.rangeStep
  loop : LoopFits param.rangeFrom param.rangeTo param.rangeStep
  indices : (gridCount param.rangeFrom param.rangeTo param.rangeStep : ℤ) ≤ intMax
  counts : ∀ tv ∈ training.tuningValues param, training.matching tv ≤ intMax
  rest : (lacking 0 none (training.tuningValues param)).isSome →
    ((training.tuningValues param).map training.matching).sum ≤ intMax

theorem matching_nonneg (tv : Option T) : 0 ≤ training.matching tv := by
  cases tv with
  | none => exact le_rfl
  | some tv0 => exact Int.natCast_nonneg _

theorem fitsInt_bmod (z : ℤ) : FitsInt (max 0 (z.bmod (2 ^ 32))) := by
  have hlow := @Int.le_bmod z (2 ^ 32) (by decide)
  have hhigh := @Int.bmod_lt z (2 ^ 32) (by decide)
  simp only [FitsInt, intMin, intMax]
  omega

/-- What is left after the counting is assigned to the last value that lacks a tuning value. -/
theorem assignRest_eq_ok {param : TuningParameter} {sampleCount : List ℤ} {n : ℕ} :
    training.assignRest ⟨n, lacking 0 none (training.tuningValues param),
        (training.tuningValues param).map training.matching⟩ = .ok sampleCount ↔
      ((lacking 0 none (training.tuningValues param)).isSome →
        ((training.tuningValues param).map training.matching).sum ≤ intMax) ∧
      sampleCount = training.assigned param := by
  have hnonneg : ∀ c ∈ (training.tuningValues param).map training.matching, 0 ≤ c := by
    intro c hc
    obtain ⟨tv, -, rfl⟩ := List.mem_map.mp hc
    exact matching_nonneg tv
  rw [assignRest, assigned]
  cases hlacking : lacking 0 none (training.tuningValues param) with
  | none => simp [eq_comm]
  | some idx =>
    have hthere : ((training.tuningValues param).map training.matching)[idx]? = some 0 := by
      cases lacking_eq_some hlacking with
      | inl hnone => exact absurd hnone (by simp)
      | inr hat =>
        rw [Nat.sub_zero] at hat
        rw [List.getElem?_map, hat.2]
        rfl
    have hat : Outcome.elementAt ((training.tuningValues param).map training.matching) idx =
        .ok 0 := Outcome.elementAt_eq_ok.mpr ⟨Int.natCast_nonneg idx, by simpa using hthere⟩
    simp only [Option.isSome_some, true_implies]
    constructor
    · intro h
      obtain ⟨sum, hsum, h⟩ := Outcome.bind_eq_ok.mp h
      obtain ⟨rfl, hfits⟩ := sumInts_eq_ok hsum
      rw [hat, Outcome.ok_bind, zero_add, checkedInt, if_pos (fitsInt_bmod _)] at h
      exact ⟨hfits.2, (Outcome.ok.inj h).symm⟩
    · rintro ⟨hmax, rfl⟩
      have hfits : FitsInt ((training.tuningValues param).map training.matching).sum :=
        ⟨by have hsum := List.sum_nonneg hnonneg; rw [intMin]; omega, hmax⟩
      rw [sumInts_of_sign (.inl hnonneg) hfits, Outcome.ok_bind, hat, Outcome.ok_bind, zero_add,
        checkedInt, if_pos (fitsInt_bmod _)]
      rfl

omit [DecidableEq T] in
theorem smooth_eq_ok {sampleCount smoothed : List ℤ}
    (h : training.smooth sampleCount = .ok smoothed) :
    smoothed = sampleCount.map (· + training.smoothness) := by
  have hall := Outcome.mapM_eq_ok_iff.mp h
  induction hall with
  | nil => rfl
  | cons hhead htail ih =>
    rw [(checkedInt_eq_ok.mp hhead).2, ih (Outcome.mapM_eq_ok_iff.mpr htail), List.map_cons]

theorem histogram_of_empty {param : TuningParameter} (h : param.rangeTo < param.rangeFrom) :
    training.histogram param = .ok [] := by
  rw [histogram, forRange, dif_neg h.not_ge]
  rfl

omit [DecidableEq T] in
theorem tuningValues_length (param : TuningParameter) : (training.tuningValues param).length =
    gridCount param.rangeFrom param.rangeTo param.rangeStep := by
  simp [tuningValues, gridValues]

theorem weights_length (param : TuningParameter) : (training.weights param).length =
    gridCount param.rangeFrom param.rangeTo param.rangeStep := by
  rw [weights, List.length_map, assigned]
  cases lacking 0 none (training.tuningValues param) with
  | none => simp [tuningValues_length]
  | some idx => simp [tuningValues_length]

/-- The loop of the histogram over a range with values. -/
theorem counted_eq_ok {param : TuningParameter} {counts : SampleCounts}
    (h : param.rangeFrom ≤ param.rangeTo) :
    forRange param.rangeTo param.rangeStep (training.countValue param) param.rangeFrom
        ⟨0, none, []⟩ = .ok counts ↔
      (0 < param.rangeStep ∧ LoopFits param.rangeFrom param.rangeTo param.rangeStep ∧
        (gridCount param.rangeFrom param.rangeTo param.rangeStep : ℤ) ≤ intMax ∧
        ∀ tv ∈ training.tuningValues param, training.matching tv ≤ intMax) ∧
      counts = ⟨gridCount param.rangeFrom param.rangeTo param.rangeStep,
        lacking 0 none (training.tuningValues param),
        (training.tuningValues param).map training.matching⟩ := by
  have hlength : (gridValues param.rangeFrom param.rangeTo param.rangeStep).length =
      gridCount param.rangeFrom param.rangeTo param.rangeStep := by simp [gridValues]
  rw [forRange_eq_ok h, foldlM_countValue (by decide), hlength]
  simp only [tuningValues, List.nil_append, zero_add, Nat.cast_zero, and_assoc]

theorem countable_of_histogram {param : TuningParameter} {sampleCount : List ℤ}
    (hrange : param.rangeFrom ≤ param.rangeTo)
    (h : training.histogram param = .ok sampleCount) :
    training.Countable param ∧ sampleCount = training.weights param := by
  obtain ⟨counts, hcounts, h⟩ := Outcome.bind_eq_ok.mp h
  obtain ⟨rest, hrest, hsmooth⟩ := Outcome.bind_eq_ok.mp h
  obtain ⟨⟨hstep, hloop, hindices, htvs⟩, rfl⟩ := (counted_eq_ok hrange).mp hcounts
  obtain ⟨hsum, rfl⟩ := assignRest_eq_ok.mp hrest
  exact ⟨⟨hstep, hloop, hindices, htvs, hsum⟩, smooth_eq_ok hsmooth⟩

theorem histogram_of_countable {param : TuningParameter}
    (hrange : param.rangeFrom ≤ param.rangeTo) (h : training.Countable param)
    (hfits : ∀ w ∈ training.weights param, FitsInt w) :
    training.histogram param = .ok (training.weights param) := by
  have hcounts := (counted_eq_ok hrange).mpr ⟨⟨h.step, h.loop, h.indices, h.counts⟩, rfl⟩
  have hsmooth : training.smooth (training.assigned param) = .ok (training.weights param) := by
    refine Outcome.mapM_eq_map fun count hcount => ?_
    rw [checkedInt, if_pos (hfits _ (List.mem_map_of_mem hcount))]
  rw [histogram, hcounts, Outcome.ok_bind, assignRest_eq_ok.mpr ⟨h.rest, rfl⟩, Outcome.ok_bind,
    hsmooth]

end Training
end Counts

section Distributions
variable {T : Type} [DecidableEq T] {training : Training T} {tp : TuningParameter}

/-- The probabilities of the values of a parameter: what the distribution increases by at each
of them. -/
structure Distribution (tp : TuningParameter) (CDF : List ℚ) : Prop where
  length : CDF.length = gridCount tp.rangeFrom tp.rangeTo tp.rangeStep
  nonneg : ∀ p ∈ increments 0 CDF, 0 ≤ p
  total : (increments 0 CDF).sum = 1

namespace Training

variable (training tp) in
def shares : List ℚ := (training.weights tp).map fun w : ℤ => (w : ℚ) / (training.weights tp).sum

variable (training tp) in
/-- A parameter has values, its counting stays in `int`, and its weights are of one sign with a
total that is not zero. -/
structure Trainable : Prop extends training.Countable tp where
  range : tp.rangeFrom ≤ tp.rangeTo
  total_ne : (training.weights tp).sum ≠ 0
  total_fits : FitsInt (training.weights tp).sum
  signs : ∀ w ∈ training.weights tp, 0 ≤ w * (training.weights tp).sum

theorem sum_shares (ws : List ℤ) (N : ℤ) :
    (ws.map fun w : ℤ => (w : ℚ) / N).sum = (ws.sum : ℚ) / N := by
  induction ws with
  | nil => simp
  | cons w ws ih => rw [List.map_cons, List.sum_cons, ih, List.sum_cons, Int.cast_add, add_div]

theorem share_nonneg_iff {w N : ℤ} : 0 ≤ (w : ℚ) / N ↔ 0 ≤ w * N := by
  rw [div_nonneg_iff, mul_nonneg_iff]
  norm_cast

/-- Of one sign, none of the weights is further from zero than their total. -/
theorem Trainable.sign (h : training.Trainable tp) :
    (∀ w ∈ training.weights tp, 0 ≤ w) ∨ (∀ w ∈ training.weights tp, w ≤ 0) := by
  cases lt_or_gt_of_ne h.total_ne with
  | inl hneg => exact .inr fun w hw => nonpos_of_mul_nonneg_left (h.signs w hw) hneg
  | inr hpos => exact .inl fun w hw => nonneg_of_mul_nonneg_left (h.signs w hw) hpos

theorem fitsInt_of_mem {ws : List ℤ} {w : ℤ} (hsign : (∀ w ∈ ws, 0 ≤ w) ∨ (∀ w ∈ ws, w ≤ 0))
    (hfits : FitsInt ws.sum) (hw : w ∈ ws) : FitsInt w := by
  have hsum := List.sum_erase hw
  simp only [FitsInt, intMin, intMax] at hfits ⊢
  cases hsign with
  | inl hup =>
    have hothers : 0 ≤ (ws.erase w).sum :=
      List.sum_nonneg fun v hv => hup v (List.mem_of_mem_erase hv)
    have hzero := hup w hw
    omega
  | inr hdown =>
    have hothers := (List.sum_le_card_nsmul (ws.erase w) 0
      fun v hv => hdown v (List.mem_of_mem_erase hv)).trans_eq (smul_zero _)
    have hzero := hdown w hw
    omega

variable (training) in
/-- What is stored for a parameter. -/
def distribution (param : TuningParameter) : Outcome (TuningParameter × List ℚ) := do
  let sampleCount ← training.histogram param
  let N ← sumInts sampleCount
  let PDF := sampleCount.map fun count : ℤ => (count : ℚ) / N
  if PDF.isEmpty then .throws "vector::_M_range_check" else .ok (param, cumulative 0 PDF)

theorem distribution_of_trainable (h : training.Trainable tp) :
    training.distribution tp = .ok (tp, cumulative 0 (training.shares tp)) ∧
      Distribution tp (cumulative 0 (training.shares tp)) := by
  have hlength : (training.shares tp).length =
      gridCount tp.rangeFrom tp.rangeTo tp.rangeStep := by
    rw [shares, List.length_map, weights_length]
  have hsome : 0 < gridCount tp.rangeFrom tp.rangeTo tp.rangeStep := by
    rw [gridCount_succ h.step h.range]
    exact Nat.succ_pos _
  constructor
  · have hnone : (training.shares tp).isEmpty = false := by
      rw [List.isEmpty_eq_false_iff, ← List.length_pos_iff]
      omega
    rw [distribution, histogram_of_countable h.range h.toCountable
      fun w hw => fitsInt_of_mem h.sign h.total_fits hw, Outcome.ok_bind,
      sumInts_of_sign h.sign h.total_fits, Outcome.ok_bind]
    change (if (training.shares tp).isEmpty then _ else _) = _
    rw [hnone]
    rfl
  · refine ⟨by rw [length_cumulative, hlength], ?_, ?_⟩
    · intro p hp
      rw [increments_cumulative] at hp
      obtain ⟨w, hw, rfl⟩ := List.mem_map.mp hp
      exact share_nonneg_iff.mpr (h.signs w hw)
    · rw [increments_cumulative, shares, sum_shares]
      exact div_self (by exact_mod_cast h.total_ne)

theorem trainable_of_distribution {stored : TuningParameter × List ℚ}
    (h : training.distribution tp = .ok stored) (hdist : Distribution tp stored.2) :
    training.Trainable tp := by
  obtain ⟨sampleCount, hhist, h⟩ := Outcome.bind_eq_ok.mp h
  obtain ⟨N, hN, h⟩ := Outcome.bind_eq_ok.mp h
  obtain ⟨rfl, hfits⟩ := sumInts_eq_ok hN
  by_cases hrange : tp.rangeFrom ≤ tp.rangeTo
  · obtain ⟨hcountable, rfl⟩ := countable_of_histogram hrange hhist
    obtain rfl : (tp, cumulative 0 (training.shares tp)) = stored := by
      change (if (training.shares tp).isEmpty then _ else _) = _ at h
      split_ifs at h
      exact Outcome.ok.inj h
    have hnonneg := hdist.nonneg
    have htotal := hdist.total
    rw [increments_cumulative] at hnonneg htotal
    rw [shares, sum_shares] at htotal
    refine { hcountable with
      range := hrange
      total_ne := ?_
      total_fits := hfits
      signs := fun w hw => share_nonneg_iff.mp (hnonneg _ (List.mem_map_of_mem hw)) }
    intro hzero
    rw [hzero] at htotal
    simp at htotal
  · rw [histogram_of_empty (not_le.mp hrange)] at hhist
    obtain rfl := Outcome.ok.inj hhist
    simp at h

variable (training tp) in
/-- The values with a weight can be computed: their distance from the first one is an `int`. -/
def OffsetsFit : Prop :=
  ∀ (i : ℕ) (w : ℤ), (training.weights tp)[i]? = some w → w ≠ 0 → (i : ℤ) * tp.rangeStep ≤ intMax

theorem shares_getElem? {i : ℕ} {p : ℚ} (h : (training.shares tp)[i]? = some p) :
    ∃ w, (training.weights tp)[i]? = some w ∧ p = (w : ℚ) / (training.weights tp).sum := by
  rw [shares, List.getElem?_map, Option.map_eq_some_iff] at h
  obtain ⟨w, hw, rfl⟩ := h
  exact ⟨w, hw, rfl⟩

theorem Trainable.sum_shares (h : training.Trainable tp) : (training.shares tp).sum = 1 := by
  have htotal := (distribution_of_trainable h).2.total
  rwa [increments_cumulative] at htotal

theorem Trainable.shares_nonneg (h : training.Trainable tp) : ∀ p ∈ training.shares tp, 0 ≤ p := by
  have hnonneg := (distribution_of_trainable h).2.nonneg
  rwa [increments_cumulative] at hnonneg

end Training
end Distributions

namespace IndependentParametersModel
open Training RandomSearch
variable {T : Type} [DecidableEq T] {training : Training T} {tp : TuningParameter}

/-- A draw gives a value of the grid. -/
theorem sampleValue_onGrid (hint : tp.IntTyped) (h : training.Trainable tp)
    (hoffsets : training.OffsetsFit tp) {u : ℚ} (hu : 0 ≤ u) (hu' : u < 1) :
    ∃ value, sampleValue tp (cumulative 0 (training.shares tp)) u = .ok value ∧
      OnGrid tp.rangeFrom tp.rangeTo tp.rangeStep value := by
  obtain ⟨p, hp, hpos⟩ := upperBound_chooses hu
    (by rw [zero_add, h.sum_shares]; exact hu' : u < 0 + (training.shares tp).sum)
  obtain ⟨w, hw, rfl⟩ := shares_getElem? hp
  have hne : w ≠ 0 := by
    rintro rfl
    simp at hpos
  have hmax := hoffsets _ w hw hne
  have hk : upperBound (cumulative 0 (training.shares tp)) u <
      gridCount tp.rangeFrom tp.rangeTo tp.rangeStep := by
    rw [← @weights_length T _ training tp]
    exact (List.getElem?_eq_some_iff.mp hw).1
  have hto := (lt_gridCount_iff h.step h.range).mp hk
  have hup := Int.mul_nonneg (Int.natCast_nonneg
    (upperBound (cumulative 0 (training.shares tp)) u)) h.step.le
  have hstep := h.step
  obtain ⟨⟨hfrom, hfrom'⟩, ⟨hlast, hlast'⟩, -⟩ := hint
  refine ⟨tp.rangeFrom + upperBound (cumulative 0 (training.shares tp)) u * tp.rangeStep, ?_, ?_,
    _, rfl⟩
  · have hoffset : FitsInt (upperBound (cumulative 0 (training.shares tp)) u * tp.rangeStep) :=
      ⟨by rw [intMin]; omega, hmax⟩
    have hvalue : FitsInt (tp.rangeFrom +
        upperBound (cumulative 0 (training.shares tp)) u * tp.rangeStep) :=
      ⟨by omega, by omega⟩
    rw [sampleValue, checkedInt, if_pos hoffset, Outcome.ok_bind, checkedInt, if_pos hvalue]
  · rw [if_neg (by omega)]
    exact hto

/-- A draw for each value that has a weight: if it gives a value, the distance of this fits. -/
theorem offsetsFit_of_sampleValue (h : training.Trainable tp)
    (hdraws : ∀ u : ℚ, 0 ≤ u → u < 1 →
      ∃ value, sampleValue tp (cumulative 0 (training.shares tp)) u = .ok value) :
    training.OffsetsFit tp := by
  intro i w hw hne
  have hshare : (training.shares tp)[i]? = some ((w : ℚ) / (training.weights tp).sum) := by
    rw [shares, List.getElem?_map, hw]
    rfl
  have hpos : 0 < (w : ℚ) / (training.weights tp).sum := by
    refine lt_of_le_of_ne (h.shares_nonneg _ (List.mem_of_getElem? hshare)) (Ne.symm ?_)
    exact div_ne_zero (by exact_mod_cast hne) (by exact_mod_cast h.total_ne)
  obtain ⟨u, hu, hu', hi⟩ := @exists_upperBound ℚ _ _ _ 0 _ _ i h.shares_nonneg hshare hpos
  rw [zero_add, h.sum_shares] at hu'
  obtain ⟨value, hvalue⟩ := hdraws u hu hu'
  obtain ⟨offset, hoffset, -⟩ := Outcome.bind_eq_ok.mp hvalue
  rw [hi] at hoffset
  exact (checkedInt_eq_ok.mp hoffset).1.2

/-- The training of all parameters stores the distribution of each. -/
theorem train_eq_fill (params : List TuningParameter) (paramToCDF : ParamToCDF) :
    params.foldlM (fun paramToCDF param => do
        let sampleCount ← training.histogram param
        addParameterWithSampleCount paramToCDF param sampleCount) paramToCDF =
      OrdMap.fill TuningParameter.addr training.distribution params paramToCDF := by
  rw [OrdMap.fill]
  congr 1
  funext paramToCDF param
  simp only [distribution, addParameterWithSampleCount, addParameterWithPDF, bind_assoc]
  congr 1
  funext sampleCount
  congr 1
  funext N
  split_ifs with hempty
  · rfl
  · rfl

/-- The parameters of the space with what is stored for them. -/
structure Trained (ss : SearchSpace) (training : Training T) (paramToCDF : ParamToCDF) : Prop where
  stored : ∀ tp ∈ ss.variantSpace, ∃ entry, training.distribution tp = .ok entry ∧
    paramToCDF.get? tp.addr = some entry
  entries : ∀ e ∈ paramToCDF.entries, ∃ tp ∈ ss.variantSpace, e.1 = tp.addr ∧
    training.distribution tp = .ok e.2

theorem trained_of_fill {ss : SearchSpace} (hid : ss.Identified) {paramToCDF : ParamToCDF}
    (h : OrdMap.fill TuningParameter.addr training.distribution ss.variantSpace .empty =
      .ok paramToCDF) : Trained ss training paramToCDF := by
  have hvalues := (OrdMap.fill_spec h).2
  constructor
  · intro tp htp
    cases hvalues tp.addr with
    | inl hthere =>
      obtain ⟨tp', htp', haddr, entry, hentry, hget⟩ := hthere
      rw [← hid.single tp' htp' tp htp haddr]
      exact ⟨entry, hentry, haddr ▸ hget⟩
    | inr hnot => exact absurd (List.mem_map_of_mem htp) hnot.1
  · intro e he
    have hget : paramToCDF.get? e.1 = some e.2 := OrdMap.get?_eq_some.mpr he
    cases hvalues e.1 with
    | inl hthere =>
      obtain ⟨tp, htp, haddr, entry, hentry, hget'⟩ := hthere
      rw [hget] at hget'
      exact ⟨tp, htp, haddr.symm, Option.some.inj hget' ▸ hentry⟩
    | inr hnot =>
      rw [hget] at hnot
      exact absurd hnot.2 (by simp)

section Samples
variable {ss : SearchSpace} {draws : UnitDraws} {model : IndependentParametersModel} {rts : Bool}

theorem mem_zipIdx_fst {α : Type} {a : α} {xs : List α} : (∃ i, (a, i) ∈ xs.zipIdx) ↔ a ∈ xs := by
  rw [List.mem_iff_getElem?]
  exact exists_congr fun i => List.mk_mem_zipIdx_iff_getElem?

/-- The entries of a trained model are those of trainable parameters, with their shares. -/
theorem Trained.entry (h : Trained ss training model.paramToCDF)
    (htrainable : ∀ tp ∈ ss.variantSpace, training.Trainable tp)
    {e : ℕ × TuningParameter × List ℚ} (he : e ∈ model.paramToCDF.entries) :
    ∃ tp ∈ ss.variantSpace, e = (tp.addr, tp, cumulative 0 (training.shares tp)) := by
  obtain ⟨tp, htp, haddr, hentry⟩ := h.entries e he
  rw [(distribution_of_trainable (htrainable tp htp)).1] at hentry
  exact ⟨tp, htp, Prod.ext haddr (Outcome.ok.inj hentry).symm⟩

theorem Trained.mem_entries (h : Trained ss training model.paramToCDF)
    (htrainable : ∀ tp ∈ ss.variantSpace, training.Trainable tp) (htp : tp ∈ ss.variantSpace) :
    (tp.addr, tp, cumulative 0 (training.shares tp)) ∈ model.paramToCDF.entries := by
  obtain ⟨entry, hentry, hget⟩ := h.stored tp htp
  rw [(distribution_of_trainable (htrainable tp htp)).1] at hentry
  rw [← Outcome.ok.inj hentry] at hget
  exact OrdMap.get?_eq_some.mp hget

theorem sampleValues_onGrid (hid : ss.Identified) (h : Trained ss training model.paramToCDF)
    (htrainable : ∀ tp ∈ ss.variantSpace, training.Trainable tp)
    (hoffsets : ∀ tp ∈ ss.variantSpace, training.OffsetsFit tp) :
    ∃ values, sampleValues draws model = .ok values ∧ OnGridIn ss.variantSpace values := by
  have hvalue : ∀ e ∈ model.paramToCDF.entries.zipIdx, ∃ tp ∈ ss.variantSpace,
      e.1.1 = tp.addr ∧ ∃ value, sampleValue e.1.2.1 e.1.2.2
          (draws.random01 (model.drawn + e.2)) = .ok value ∧
        OnGrid tp.rangeFrom tp.rangeTo tp.rangeStep value := by
    intro e he
    obtain ⟨tp, htp, hentry⟩ := h.entry htrainable (mem_zipIdx_fst.mp ⟨e.2, he⟩)
    rw [hentry]
    exact ⟨tp, htp, rfl, sampleValue_onGrid (hid.typed tp htp) (htrainable tp htp)
      (hoffsets tp htp) (draws.nonneg _) (draws.lt_one _)⟩
  obtain ⟨values, hvalues⟩ := @OrdMap.fill_returns _ _ _ _
    (fun e : (ℕ × TuningParameter × List ℚ) × ℕ => e.1.1)
    (fun e => sampleValue e.1.2.1 e.1.2.2 (draws.random01 (model.drawn + e.2)))
    model.paramToCDF.entries.zipIdx (fun e he => by
      obtain ⟨tp, -, -, value, hok, -⟩ := hvalue e he
      exact ⟨value, hok⟩) .empty
  refine ⟨values, hvalues, fun tp htp => ?_⟩
  cases (OrdMap.fill_spec hvalues).2 tp.addr with
  | inl hthere =>
    obtain ⟨e, he, haddr, value, hok, hget⟩ := hthere
    obtain ⟨tp', htp', haddr', value', hok', hgrid⟩ := hvalue e he
    obtain rfl := hid.single tp' htp' tp htp (haddr'.symm.trans haddr)
    obtain rfl := Outcome.ok.inj (hok.symm.trans hok')
    exact ⟨value, hget, hgrid⟩
  | inr hnot =>
    obtain ⟨i, hi⟩ := mem_zipIdx_fst.mpr (h.mem_entries htrainable htp)
    exact absurd (List.mem_map.mpr ⟨_, hi, rfl⟩) hnot.1

/-- A sample draws for every parameter of the model. -/
theorem sampleValue_of_sampleValues (h : Trained ss training model.paramToCDF)
    (htrainable : ∀ tp ∈ ss.variantSpace, training.Trainable tp) (htp : tp ∈ ss.variantSpace)
    {values : Variant} (hvalues : sampleValues draws model = .ok values) :
    ∃ n value, sampleValue tp (cumulative 0 (training.shares tp)) (draws.random01 n) =
      .ok value := by
  obtain ⟨i, hi⟩ := mem_zipIdx_fst.mpr (h.mem_entries htrainable htp)
  have hcalls := (OrdMap.fill_spec hvalues).1 (_, i) hi
  exact ⟨model.drawn + i, hcalls⟩

theorem sample_eq_ok {specification : TuningSpecification} {model' : IndependentParametersModel} :
    sample rts draws model = .ok (specification, model') ↔
      ∃ values entityList, sampleValues draws model = .ok values ∧
        model.entityList = some entityList ∧
        specification = listSpecification rts values entityList ∧
        model' = { model with
          entityList := none
          drawn := model.drawn + model.paramToCDF.entries.length } := by
  rw [sample, Outcome.bind_eq_ok]
  constructor
  · rintro ⟨values, hvalues, h⟩
    cases hlist : model.entityList with
    | none =>
      rw [hlist] at h
      cases h
    | some entityList =>
      rw [hlist] at h
      obtain ⟨rfl, rfl⟩ := Prod.mk.injEq .. ▸ Outcome.ok.inj h
      exact ⟨values, entityList, hvalues, rfl, rfl, rfl⟩
  · rintro ⟨values, entityList, hvalues, hlist, rfl, rfl⟩
    exact ⟨values, hvalues, by rw [hlist]; rfl⟩

/-- The list of a model is there for one sample. -/
theorem takeSamples_few {n : ℕ} {specifications : List TuningSpecification}
    (h : takeSamples rts draws n model = .ok specifications) : n ≤ 1 := by
  cases n with
  | zero => exact Nat.zero_le 1
  | succ n =>
    obtain ⟨⟨specification, model₁⟩, hsample, h⟩ := Outcome.bind_eq_ok.mp h
    obtain ⟨_, _, _, _, _, rfl⟩ := sample_eq_ok.mp hsample
    cases n with
    | zero => exact le_rfl
    | succ n =>
      obtain ⟨more, hmore, -⟩ := Outcome.bind_eq_ok.mp h
      obtain ⟨⟨specification', model₂⟩, hsample', -⟩ := Outcome.bind_eq_ok.mp hmore
      obtain ⟨_, _, _, hlist, _⟩ := sample_eq_ok.mp hsample'
      cases hlist

/-- What a model is to guarantee that so many samples are taken from: the probabilities of the
values of each parameter, and values on the grids for all draws. -/
structure Sound (rts : Bool) (ss : SearchSpace) (n : ℕ) (model : IndependentParametersModel) :
    Prop where
  probabilities : ∀ tp ∈ ss.variantSpace, ∃ CDF,
    model.paramToCDF.get? tp.addr = some (tp, CDF) ∧ Distribution tp CDF
  onGrid : ∀ draws, ∃ specifications, takeSamples rts draws n model = .ok specifications ∧
    ∀ specification ∈ specifications, OnGridIn ss.variantSpace specification.variant

theorem fromConfigurationSamples_eq_ok : fromConfigurationSamples rts ss training = .ok model ↔
    OrdMap.fill TuningParameter.addr training.distribution ss.variantSpace .empty =
        .ok model.paramToCDF ∧
      model.entityList = some (if rts then ss.rtsVector else ss.regions) ∧ model.drawn = 0 := by
  rw [fromConfigurationSamples, train_eq_fill, Outcome.bind_eq_ok]
  constructor
  · rintro ⟨paramToCDF, hfill, h⟩
    rw [← Outcome.ok.inj h]
    exact ⟨hfill, rfl, rfl⟩
  · rintro ⟨hfill, hlist, hdrawn⟩
    refine ⟨_, hfill, ?_⟩
    rw [← hlist, ← hdrawn]
    rfl

/-- A model guarantees it all exactly if its parameters can be trained and no more than one
sample is taken, of values that can be computed. -/
theorem fromConfigurationSamples_sound_iff (training : Training T) (hid : ss.Identified) (n : ℕ) :
    (∃ model, fromConfigurationSamples rts ss training = .ok model ∧ Sound rts ss n model) ↔
      (∀ tp ∈ ss.variantSpace, training.Trainable tp) ∧ n ≤ 1 ∧
        (n = 1 → ∀ tp ∈ ss.variantSpace, training.OffsetsFit tp) := by
  constructor
  · rintro ⟨model, hmodel, hsound⟩
    have htrained := trained_of_fill hid (fromConfigurationSamples_eq_ok.mp hmodel).1
    have htrainable : ∀ tp ∈ ss.variantSpace, training.Trainable tp := by
      intro tp htp
      obtain ⟨entry, hentry, hget⟩ := htrained.stored tp htp
      obtain ⟨CDF, hget', hdist⟩ := hsound.probabilities tp htp
      obtain rfl := Option.some.inj (hget.symm.trans hget')
      exact trainable_of_distribution hentry hdist
    refine ⟨htrainable, ?_, ?_⟩
    · obtain ⟨specifications, hsamples, -⟩ := hsound.onGrid
        ⟨fun _ => 0, fun _ => le_rfl, fun _ => one_pos⟩
      exact takeSamples_few hsamples
    · rintro rfl tp htp
      refine offsetsFit_of_sampleValue (htrainable tp htp) fun u hu hu' => ?_
      obtain ⟨specifications, hsamples, -⟩ := hsound.onGrid
        ⟨fun _ => u, fun _ => hu, fun _ => hu'⟩
      obtain ⟨⟨specification, model'⟩, hsample, -⟩ := Outcome.bind_eq_ok.mp hsamples
      obtain ⟨values, _, hvalues, _⟩ := sample_eq_ok.mp hsample
      obtain ⟨_, hvalue⟩ := sampleValue_of_sampleValues htrained htrainable htp hvalues
      exact hvalue
  · rintro ⟨htrainable, hn, hoffsets⟩
    obtain ⟨paramToCDF, hfill⟩ := OrdMap.fill_returns
      (fun tp htp => ⟨_, (distribution_of_trainable (htrainable tp htp)).1⟩)
      (.empty : ParamToCDF)
    have htrained := trained_of_fill hid hfill
    refine ⟨⟨paramToCDF, some (if rts then ss.rtsVector else ss.regions), 0⟩,
      fromConfigurationSamples_eq_ok.mpr ⟨hfill, rfl, rfl⟩, ?_, ?_⟩
    · intro tp htp
      obtain ⟨entry, hentry, hget⟩ := htrained.stored tp htp
      obtain ⟨hok, hdist⟩ := distribution_of_trainable (htrainable tp htp)
      obtain rfl := Outcome.ok.inj (hentry.symm.trans hok)
      exact ⟨_, hget, hdist⟩
    · intro draws
      cases n with
      | zero => exact ⟨[], rfl, by simp⟩
      | succ n =>
        obtain rfl : n = 0 := by omega
        obtain ⟨values, hvalues, hgrids⟩ := @sampleValues_onGrid T _ training ss draws
          ⟨paramToCDF, some (if rts then ss.rtsVector else ss.regions), 0⟩ hid htrained htrainable
          (hoffsets rfl)
        have hsample := (@sample_eq_ok draws _ rts _ _).mpr ⟨values, _, hvalues, rfl, rfl, rfl⟩
        refine ⟨[listSpecification rts values (if rts then ss.rtsVector else ss.regions)],
          ?_, by simpa [listSpecification] using hgrids⟩
        rw [takeSamples, hsample]
        rfl

/-- Three configurations of numbers that are their own tuning values. -/
def threeConfigurations : Training ℤ := ⟨fun _ val => some val, [{3}, {3}, {5}], 1⟩

theorem fromConfigurationSamples_sound_iff_ten :
    (∃ model, fromConfigurationSamples false (singleSpace 9) threeConfigurations = .ok model ∧
        Sound false (singleSpace 9) 1 model) ↔
      (∀ tp ∈ (singleSpace 9).variantSpace, threeConfigurations.Trainable tp) ∧ 1 ≤ 1 ∧
        (1 = 1 → ∀ tp ∈ (singleSpace 9).variantSpace, threeConfigurations.OffsetsFit tp) :=
  fromConfigurationSamples_sound_iff threeConfigurations ⟨by decide, by decide⟩ 1

/-- The second sample of a model reads the list that the first one deleted. -/
theorem not_fromConfigurationSamples_sound_twice : ¬ ∃ model,
    fromConfigurationSamples false (singleSpace 9) threeConfigurations = .ok model ∧
      Sound false (singleSpace 9) 2 model := by
  rintro ⟨model, -, hsound⟩
  obtain ⟨specifications, hsamples, -⟩ := hsound.onGrid
    ⟨fun _ => 0, fun _ => le_rfl, fun _ => one_pos⟩
  exact absurd (takeSamples_few hsamples) (by decide)

end Samples
end IndependentParametersModel
end ReadexPtf.Autotune
