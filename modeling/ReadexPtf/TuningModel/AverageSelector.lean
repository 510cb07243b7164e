import ReadexPtf.TuningModel.Vectors
import Mathlib

/-! `average_selector`: the mean value of each parameter, rounded to a multiple of its step. -/
namespace ReadexPtf.TuningModel
open ReadexPtf

/-- A number becomes an `int` if it is one. -/
def toCInt (z : Int) : Outcome CInt := if h : FitsInt z then .ok ⟨z, h⟩ else .undefined

theorem toCInt_eq {z : Int} (h : FitsInt z) : toCInt z = .ok ⟨z, h⟩ := dif_pos h

/-- `avg - rest` in tenths, and one step more if the rest is half a step or greater. -/
def roundToStep (avg step : Int) : Int :=
  let rest := avg.tmod (step * 10)
  if 2 * rest < step * 10 then (avg - rest).tdiv 10 else (avg - rest).tdiv 10 + step

/-- The values that some configurations have for a parameter, looked up by its name. -/
def sumValues (cs : List Configuration) (tp : TuningParameter) : Outcome Int :=
  cs.foldlM (fun sum c => do
    let tv ← Outcome.found (c.tuning_value tp.name)
    .ok (sum + tv.value)) 0

/-- The value of one parameter. Doubles are rational numbers here: what is converted to `int`
is cut towards zero and must fit. -/
def averageValue (cs : List Configuration) (tp : TuningParameter) : Outcome TuningValue := do
  let sum ← sumValues cs tp
  let avg ← toCInt ((sum * 10).tdiv cs.length)
  let _ ← toCInt (tp.step * 10)
  let value ← toCInt (roundToStep avg.val tp.step)
  tuning_value tp value

/-- One parameter of the selected configuration. -/
def selectValue (π : Iteration) (cs : List Configuration) (c : Configuration)
    (tp : TuningParameter) : Outcome Configuration := do
  let tv ← averageValue cs tp
  c.addNew π tv

/-- `cs` are the configurations in the iteration order of their set. -/
def average_selector (π : Iteration) (cs : List Configuration) : Outcome Configuration :=
  match cs with
  | [] => .aborts
  | first :: _ =>
    ((π _).order (first.tvs.map TuningValue.parameter)).foldlM (selectValue π cs)
      ⟨[], Configuration.distinct_nil⟩

/-- A value of the grid of its parameter. -/
def OnGrid (tv : TuningValue) : Prop :=
  ∃ k : ℕ, tv.value = tv.parameter.start + k * tv.parameter.step ∧
    tv.parameter.start ≤ tv.value ∧ tv.value ≤ tv.parameter.end_

/-- One value for each parameter, and all of them on their grids. -/
def SelectsOnGrid (π : Iteration) (cs : List Configuration) : Prop :=
  ∃ c, average_selector π cs = .ok c ∧
    (∀ c' ∈ cs, (c.tvs.map TuningValue.parameter).Perm (c'.tvs.map TuningValue.parameter)) ∧
    ∀ tv ∈ c.tvs, OnGrid tv

/-- The sum of the values of a parameter. -/
def total (cs : List Configuration) (tp : TuningParameter) : Int :=
  (cs.map fun c => ((c.tuning_value tp.name).map TuningValue.value).getD 0).sum

/-- Ten times the mean value of a parameter, without its fraction. -/
def tenfoldMean (cs : List Configuration) (tp : TuningParameter) : Int :=
  (total cs tp * 10).tdiv cs.length

/-- The mean is less than half a step outside of the range of the parameter, or a negative one
less than a step below it. -/
def NearRange (tp : TuningParameter) (mean : Int) : Prop :=
  if 0 ≤ mean then tp.start * 10 - tp.step * 5 ≤ mean ∧ mean < tp.end_ * 10 + tp.step * 5
  else tp.start * 10 - tp.step * 10 < mean ∧ mean ≤ tp.end_ * 10

instance (tp : TuningParameter) (mean : Int) : Decidable (NearRange tp mean) :=
  inferInstanceAs (Decidable (if 0 ≤ mean then _ ∧ _ else _ ∧ _))

/-- The grid contains the multiples of the step, and the numbers fit. -/
def Averageable (cs : List Configuration) (tp : TuningParameter) : Prop :=
  tp.step ∣ tp.start ∧ FitsInt (tp.step * 10) ∧ FitsInt (tenfoldMean cs tp) ∧
    NearRange tp (tenfoldMean cs tp)

section Rounding

theorem tmod_nonpos {a b : Int} (ha : a < 0) : a.tmod b ≤ 0 := by
  have hneg := Int.tmod_nonneg b (by omega : 0 ≤ -a)
  rw [Int.neg_tmod] at hneg
  omega

/-- The result is a multiple of the step, and the one that the average is rounded or cut to. -/
theorem roundToStep_spec (avg : Int) {step : Int} (hstep : 0 < step) :
    step ∣ roundToStep avg step ∧
      (0 ≤ avg → roundToStep avg step * 10 - step * 5 ≤ avg ∧
        avg < roundToStep avg step * 10 + step * 5) ∧
      (avg < 0 → roundToStep avg step * 10 - step * 10 < avg ∧ avg ≤ roundToStep avg step * 10) := by
  have hsplit := Int.mul_tdiv_add_tmod avg (step * 10)
  have hlow := Int.lt_tmod_of_pos avg (by omega : 0 < step * 10)
  have hhigh := Int.tmod_lt_of_pos avg (by omega : 0 < step * 10)
  have hnonneg : 0 ≤ avg → 0 ≤ avg.tmod (step * 10) := Int.tmod_nonneg _
  have hnonpos : avg < 0 → avg.tmod (step * 10) ≤ 0 := tmod_nonpos
  rw [roundToStep]
  generalize avg.tdiv (step * 10) = q at *
  generalize avg.tmod (step * 10) = rest at *
  have hmul : avg - rest = 10 * (step * q) := by linarith only [hsplit]
  have htenths : (avg - rest).tdiv 10 = step * q := by
    rw [hmul, Int.mul_tdiv_cancel_left _ (by decide)]
  rw [htenths]
  have hdvd : step ∣ step * q := dvd_mul_right step q
  generalize step * q = v at *
  split_ifs with hhalf
  · exact ⟨hdvd, fun h => ⟨by have := hnonneg h; omega, by omega⟩,
      fun h => ⟨by omega, by have := hnonpos h; omega⟩⟩
  · exact ⟨dvd_add hdvd dvd_rfl, fun h => ⟨by omega, by omega⟩,
      fun h => by have := hnonpos h; omega⟩

/-- Of two multiples the greater one is greater by a step. -/
theorem add_step_le {step x y : Int} (hx : step ∣ x) (hy : step ∣ y) (hlt : x < y) :
    x + step ≤ y := by
  have hle := Int.le_of_dvd (by omega) (dvd_sub hy hx)
  omega

/-- The rounded mean is in the range exactly if the mean is near it. -/
theorem roundToStep_range {tp : TuningParameter} (hstart : tp.step ∣ tp.start) (mean : Int) :
    tp.start ≤ roundToStep mean tp.step ∧ roundToStep mean tp.step ≤ tp.end_ ↔
      NearRange tp mean := by
  obtain ⟨hdvd, hpos, hneg⟩ := roundToStep_spec mean tp.step_pos
  have hstep := tp.step_pos
  have hend : tp.step ∣ tp.end_ := by
    have hsum := dvd_add tp.aligned hstart
    rwa [sub_add_cancel] at hsum
  have hbelow := add_step_le hdvd hstart
  have habove := add_step_le hend hdvd
  rw [NearRange]
  generalize roundToStep mean tp.step = value at *
  split_ifs with hsign
  · have hwindow := hpos hsign
    constructor
    · intro h
      omega
    · intro h
      by_contra hout
      rw [not_and_or, not_le, not_le] at hout
      cases hout with
      | inl hlow => have := hbelow hlow; omega
      | inr hhigh => have := habove hhigh; omega
  · have hwindow := hneg (by omega)
    constructor
    · intro h
      omega
    · intro h
      by_contra hout
      rw [not_and_or, not_le, not_le] at hout
      cases hout with
      | inl hlow => have := hbelow hlow; omega
      | inr hhigh => have := habove hhigh; omega

theorem onGrid_iff {tv : TuningValue} :
    OnGrid tv ↔ tv.parameter.step ∣ tv.value - tv.parameter.start ∧
      tv.parameter.start ≤ tv.value ∧ tv.value ≤ tv.parameter.end_ := by
  constructor
  · rintro ⟨k, hk, hrange⟩
    exact ⟨⟨k, by rw [hk]; ring⟩, hrange⟩
  · rintro ⟨⟨k, hk⟩, hrange⟩
    have hnonneg : 0 ≤ k := by
      have hstep := tv.parameter.step_pos
      by_contra hneg
      have := Int.mul_neg_of_pos_of_neg hstep (by omega : k < 0)
      omega
    refine ⟨k.toNat, ?_, hrange⟩
    rw [Int.toNat_of_nonneg hnonneg, mul_comm]
    omega

end Rounding

section Averages
variable {cs : List Configuration} {tp : TuningParameter}

theorem total_cons (c : Configuration) (cs : List Configuration) (tp : TuningParameter) :
    total (c :: cs) tp =
      ((c.tuning_value tp.name).map TuningValue.value).getD 0 + total cs tp := by
  rw [total, List.map_cons, List.sum_cons, total]

theorem sumValues_eq (hfound : ∀ c ∈ cs, ∃ tv, c.tuning_value tp.name = some tv) :
    sumValues cs tp = .ok (total cs tp) := by
  have hfold : ∀ sum : Int, cs.foldlM (fun sum c => do
      let tv ← Outcome.found (c.tuning_value tp.name)
      .ok (sum + tv.value)) sum = .ok (sum + total cs tp) := by
    induction cs with
    | nil => exact fun sum => by simp [total]
    | cons c cs ih =>
      intro sum
      obtain ⟨tv, htv⟩ := hfound c List.mem_cons_self
      rw [List.foldlM_cons, htv, Outcome.found, Outcome.ok_bind, Outcome.ok_bind,
        ih fun c' hc' => hfound c' (List.mem_cons_of_mem c hc'), total_cons, htv, add_assoc]
      rfl
  rw [sumValues, hfold, zero_add]

theorem averageValue_parameter {tv : TuningValue} (h : averageValue cs tp = .ok tv) :
    tv.parameter = tp := by
  obtain ⟨sum, -, h⟩ := Outcome.bind_eq_ok.mp h
  obtain ⟨avg, -, h⟩ := Outcome.bind_eq_ok.mp h
  obtain ⟨width, -, h⟩ := Outcome.bind_eq_ok.mp h
  obtain ⟨value, -, h⟩ := Outcome.bind_eq_ok.mp h
  rw [tuning_value] at h
  split_ifs at h
  rw [← Outcome.ok.inj h]

theorem toCInt_eq_ok {z : Int} {c : CInt} : toCInt z = .ok c ↔ ∃ h : FitsInt z, c = ⟨z, h⟩ := by
  rw [toCInt]
  split_ifs with h
  · rw [Outcome.ok.injEq, eq_comm]
    exact ⟨fun heq => ⟨h, heq⟩, fun ⟨_, heq⟩ => heq⟩
  · simp [h]

/-- The value of a parameter is on its grid exactly if the grid contains the multiples of the
step and the mean is near the range. -/
theorem averageValue_onGrid_iff
    (hfound : ∀ c ∈ cs, ∃ tv, c.tuning_value tp.name = some tv) :
    (∃ tv, averageValue cs tp = .ok tv ∧ OnGrid tv) ↔ Averageable cs tp := by
  have hround := roundToStep_spec (tenfoldMean cs tp) tp.step_pos
  constructor
  · rintro ⟨tv, hrun, hgrid⟩
    have hparameter := averageValue_parameter hrun
    rw [averageValue, sumValues_eq hfound, Outcome.ok_bind] at hrun
    obtain ⟨avg, havg, hrun⟩ := Outcome.bind_eq_ok.mp hrun
    obtain ⟨width, hwidth, hrun⟩ := Outcome.bind_eq_ok.mp hrun
    obtain ⟨value, hvalue, hrun⟩ := Outcome.bind_eq_ok.mp hrun
    obtain ⟨hfits, havg⟩ := toCInt_eq_ok.mp havg
    obtain ⟨hwide, -⟩ := toCInt_eq_ok.mp hwidth
    obtain ⟨_, hvalue⟩ := toCInt_eq_ok.mp hvalue
    have htv : tv.value = roundToStep (tenfoldMean cs tp) tp.step := by
      subst havg hvalue
      rw [tuning_value] at hrun
      split_ifs at hrun
      rw [← Outcome.ok.inj hrun]
      rfl
    rw [onGrid_iff, hparameter, htv] at hgrid
    have hstart : tp.step ∣ tp.start := (dvd_sub_right hround.1).mp hgrid.1
    exact ⟨hstart, hwide, hfits, (roundToStep_range hstart _).mp hgrid.2⟩
  · rintro ⟨hstart, hwide, hfits, hnear⟩
    obtain ⟨hlow, hhigh⟩ := (roundToStep_range hstart _).mpr hnear
    have hvalue : FitsInt (roundToStep (tenfoldMean cs tp) tp.step) :=
      ⟨tp.start_fits.1.trans hlow, hhigh.trans tp.end_fits.2⟩
    have hdistance : FitsInt (roundToStep (tenfoldMean cs tp) tp.step - tp.start) := by
      have hrange := tp.range_fits
      simp only [FitsInt, intMin, intMax] at hrange ⊢
      omega
    refine ⟨⟨tp, _, hvalue, hdistance⟩, ?_, onGrid_iff.mpr ⟨dvd_sub hround.1 hstart, hlow, hhigh⟩⟩
    rw [averageValue, sumValues_eq hfound, Outcome.ok_bind, ← tenfoldMean, toCInt_eq hfits,
      Outcome.ok_bind, toCInt_eq hwide, Outcome.ok_bind, toCInt_eq hvalue, Outcome.ok_bind,
      tuning_value, dif_pos hdistance]

/-- The values are on their grids exactly if each average is. -/
theorem selectValues_iff (π : Iteration) {tps : List TuningParameter} :
    ∀ {c : Configuration}, (names c.tvs ++ tps.map TuningParameter.name).Nodup →
      ((∃ c', tps.foldlM (selectValue π cs) c = .ok c' ∧
          (c'.tvs.map TuningValue.parameter).Perm (c.tvs.map TuningValue.parameter ++ tps) ∧
          ∀ tv ∈ c'.tvs, OnGrid tv) ↔
        (∀ tv ∈ c.tvs, OnGrid tv) ∧ ∀ tp ∈ tps, ∃ tv, averageValue cs tp = .ok tv ∧ OnGrid tv) := by
  induction tps with
  | nil => simp [List.foldlM_nil]
  | cons tp tps ih =>
    intro c hnodup
    cases hrun : averageValue cs tp with
    | ok tv =>
      have hparameter := averageValue_parameter hrun
      have hnew : tv.parameter.name ∉ names c.tvs := by
        rw [hparameter]
        exact fun hmem => (List.nodup_append'.mp hnodup).2.2 hmem List.mem_cons_self
      obtain ⟨hadd, hperm⟩ := addNew_eq π hnew
      have hnames : (names (c.add_tuning_value π tv).tvs ++ tps.map TuningParameter.name).Perm
          (names c.tvs ++ (tp :: tps).map TuningParameter.name) := by
        refine ((names_perm hperm).append_right _).trans (.of_eq ?_)
        rw [names_append, List.append_assoc, ← hparameter]
        rfl
      have hparameters : ((c.add_tuning_value π tv).tvs.map TuningValue.parameter ++ tps).Perm
          (c.tvs.map TuningValue.parameter ++ tp :: tps) := by
        refine ((hperm.map TuningValue.parameter).append_right _).trans (.of_eq ?_)
        rw [List.map_append, List.append_assoc, ← hparameter]
        rfl
      have hgrid : (∀ it ∈ (c.add_tuning_value π tv).tvs, OnGrid it) ↔
          (∀ it ∈ c.tvs, OnGrid it) ∧ OnGrid tv := by
        simp only [hperm.mem_iff, List.mem_append, List.mem_singleton, or_imp, forall_and,
          forall_eq]
      have hstep : selectValue π cs c tp = .ok (c.add_tuning_value π tv) := by
        rw [selectValue, hrun, Outcome.ok_bind, hadd]
      rw [List.foldlM_cons, hstep, Outcome.ok_bind, List.forall_mem_cons, hrun]
      simp only [← hparameters.congr_right]
      rw [ih (hnames.nodup_iff.mpr hnodup), hgrid, and_assoc]
      simp
    | _ => simp [List.foldlM_cons, selectValue, hrun]

end Averages

/-- A parameter of one configuration is found in every configuration over the same ones. -/
theorem exists_tuning_value {c c' : Configuration}
    (hsame : (c.tvs.map TuningValue.parameter).Perm (c'.tvs.map TuningValue.parameter))
    {tp : TuningParameter} (h : tp ∈ c.tvs.map TuningValue.parameter) :
    ∃ tv, c'.tuning_value tp.name = some tv := by
  obtain ⟨tv, htv, hparameter⟩ := List.mem_map.mp (hsame.mem_iff.mp h)
  exact ⟨tv, Configuration.tuning_value_eq_some.mpr ⟨htv, congrArg _ hparameter⟩⟩

/-- The run over the parameters of the first configuration. -/
theorem selectsOnGrid_cons_iff (π : Iteration) (first : Configuration) (rest : List Configuration)
    (hsame : ∀ c ∈ first :: rest, ∀ c' ∈ first :: rest,
      (c.tvs.map TuningValue.parameter).Perm (c'.tvs.map TuningValue.parameter)) :
    SelectsOnGrid π (first :: rest) ↔
      ∀ tp ∈ first.tvs.map TuningValue.parameter, Averageable (first :: rest) tp := by
  have horder := (π _).perm (first.tvs.map TuningValue.parameter)
  have hnodup : (names (⟨[], .nil⟩ : Configuration).tvs ++
      ((π _).order (first.tvs.map TuningValue.parameter)).map TuningParameter.name).Nodup := by
    have hnames := (horder.map TuningParameter.name).nodup_iff
    rw [List.map_map] at hnames
    exact hnames.mpr first.nodup
  have hrun := @selectValues_iff (first :: rest) π _ _ hnodup
  have hvalues : ∀ tp ∈ first.tvs.map TuningValue.parameter,
      ((∃ tv, averageValue (first :: rest) tp = .ok tv ∧ OnGrid tv) ↔
        Averageable (first :: rest) tp) := fun tp htp =>
    averageValue_onGrid_iff fun c hc =>
      exists_tuning_value (hsame first List.mem_cons_self c hc) htp
  constructor
  · rintro ⟨c, hselect, hparameters, hgrid⟩ tp htp
    refine (hvalues tp htp).mp ((hrun.mp ⟨c, hselect, ?_, hgrid⟩).2 tp (horder.mem_iff.mpr htp))
    exact (hparameters first List.mem_cons_self).trans horder.symm
  · intro h
    obtain ⟨c, hselect, hparameters, hgrid⟩ := hrun.mpr ⟨by simp, fun tp htp =>
      (hvalues tp (horder.mem_iff.mp htp)).mpr (h tp (horder.mem_iff.mp htp))⟩
    exact ⟨c, hselect, fun c' hc' => (hparameters.trans horder).trans
      (hsame first List.mem_cons_self c' hc'), hgrid⟩

/-- `average_selector` chooses values of the grids exactly if, for every parameter, the start is
a multiple of the step, the numbers fit and the mean is near the range. -/
theorem selectsOnGrid_iff (π : Iteration) (cs : List Configuration) (hne : cs ≠ [])
    (hsame : ∀ c ∈ cs, ∀ c' ∈ cs,
      (c.tvs.map TuningValue.parameter).Perm (c'.tvs.map TuningValue.parameter)) :
    SelectsOnGrid π cs ↔ ∀ c ∈ cs, ∀ tv ∈ c.tvs, Averageable cs tv.parameter := by
  cases cs with
  | nil => exact absurd rfl hne
  | cons first rest =>
    rw [selectsOnGrid_cons_iff π first rest hsame]
    constructor
    · intro h c hc tv htv
      exact h tv.parameter ((hsame c hc first List.mem_cons_self).mem_iff.mp
        (List.mem_map_of_mem htv))
    · intro h tp htp
      obtain ⟨tv, htv, hparameter⟩ := List.mem_map.mp htp
      exact hparameter ▸ h first List.mem_cons_self tv htv

/-- One configuration, the value of which is 3 on the grid 0, 1, 2, ... of its parameter. -/
theorem selectsOnGrid_three :
    (∀ c ∈ [(⟨[tenValue "p" 3 (by decide)], by decide⟩ : Configuration)], ∀ tv ∈ c.tvs,
      Averageable [⟨[tenValue "p" 3 (by decide)], by decide⟩] tv.parameter) ∧
    SelectsOnGrid (fun _ => .inserted) [⟨[tenValue "p" 3 (by decide)], by decide⟩] := by
  have haverage : ∀ c ∈ [(⟨[tenValue "p" 3 (by decide)], by decide⟩ : Configuration)],
      ∀ tv ∈ c.tvs, Averageable [⟨[tenValue "p" 3 (by decide)], by decide⟩] tv.parameter := by
    intro c hc tv htv
    rw [List.mem_singleton.mp hc, List.mem_singleton] at htv
    rw [htv]
    exact ⟨one_dvd _, by decide, by decide, by decide⟩
  refine ⟨haverage, (selectsOnGrid_iff _ _ (by simp) ?_).mpr haverage⟩
  intro c hc c' hc'
  rw [List.mem_singleton.mp hc, List.mem_singleton.mp hc']

/-- The odd numbers from 1 to 5. -/
def oddSteps : TuningParameter :=
  ⟨"p", 1, 2, 5, by decide, by decide, by decide, fits_one, by decide, fits_five, by decide⟩

/-- The value 3 of one configuration becomes 4. -/
theorem not_selectsOnGrid_odd :
    ¬ ∀ (π : Iteration) (cs : List Configuration), cs ≠ [] →
      (∀ c ∈ cs, ∀ c' ∈ cs,
        (c.tvs.map TuningValue.parameter).Perm (c'.tvs.map TuningValue.parameter)) →
      SelectsOnGrid π cs := by
  intro h
  have hsame : ∀ c ∈ [(⟨[⟨oddSteps, 3, by decide, by decide⟩], by simp⟩ : Configuration)],
      ∀ c' ∈ [(⟨[⟨oddSteps, 3, by decide, by decide⟩], by simp⟩ : Configuration)],
      (c.tvs.map TuningValue.parameter).Perm (c'.tvs.map TuningValue.parameter) := by
    intro c hc c' hc'
    rw [List.mem_singleton.mp hc, List.mem_singleton.mp hc']
  have hgrid := (selectsOnGrid_cons_iff (fun _ => .inserted) _ _ hsame).mp
    (h (fun _ => .inserted) _ (by simp) hsame) oddSteps (by simp)
  exact absurd hgrid.1 (by decide)

end ReadexPtf.TuningModel
