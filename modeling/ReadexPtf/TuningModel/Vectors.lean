import ReadexPtf.TuningModel.Hash
import ReadexPtf.TuningModel.Serialization
import Mathlib

/-! The vectors by which configurations are clustered: the values in the iteration order of the
map that holds them, and the euclidean distance of two such vectors. -/
namespace ReadexPtf.TuningModel
open ReadexPtf

/-- `sqrt`, which is zero at zero only. -/
structure SquareRoot (V : Type) [Zero V] [LE V] where
  sqrt : V → V
  eq_zero : ∀ x, 0 ≤ x → (sqrt x = 0 ↔ x = 0)

/-- `add_tuning_value` with its assertion that the parameter is new. -/
def Configuration.addNew (π : Iteration) (c : Configuration) (tv : TuningValue) :
    Outcome Configuration :=
  if (c.tuning_value tv.parameter.name).isSome then .aborts else .ok (c.add_tuning_value π tv)

/-- The constructor of a configuration adds its values one by one. -/
def configuration (π : Iteration) (tvs : List TuningValue) : Outcome Configuration :=
  tvs.foldlM (Configuration.addNew π) ⟨[], Configuration.distinct_nil⟩

/-- The names of some values. -/
def names (tvs : List TuningValue) : List String := tvs.map fun tv => tv.parameter.name

theorem names_perm {xs ys : List TuningValue} (h : xs.Perm ys) : (names xs).Perm (names ys) :=
  h.map _

theorem names_append (xs ys : List TuningValue) : names (xs ++ ys) = names xs ++ names ys :=
  List.map_append

/-- A hash table looks at keys: tables with the same keys in the same order of insertion are
iterated over in the same order of keys. -/
def ByKey (π : Iteration) : Prop :=
  ∀ l l' : List TuningValue, names l = names l' → names ((π _).order l) = names ((π _).order l')

section Vectors
variable {V : Type} [Field V]

def Configuration.to_vector (c : Configuration) : List V := c.tvs.map fun tv => (tv.value : V)

/-- The loop of `euclidean_distance`. -/
def sumSquares (v1 v2 : List V) : V :=
  (v1.zip v2).foldl (fun d p => d + (p.1 - p.2) * (p.1 - p.2)) 0

/-- The squares of the differences of all values of one parameter, in no order. -/
def parameterSquares (xs ys : List TuningValue) : V :=
  (xs.map fun x => (ys.map fun y =>
    if x.parameter.name = y.parameter.name then ((x.value : V) - y.value) * (x.value - y.value)
    else 0).sum).sum

theorem sumSquares_cons (a b : V) (v1 v2 : List V) :
    sumSquares (a :: v1) (b :: v2) = (a - b) * (a - b) + sumSquares v1 v2 := by
  have hfold : ∀ (ps : List (V × V)) (d : V),
      ps.foldl (fun d p => d + (p.1 - p.2) * (p.1 - p.2)) d =
        d + ps.foldl (fun d p => d + (p.1 - p.2) * (p.1 - p.2)) 0 := by
    intro ps
    induction ps with
    | nil => simp
    | cons p ps ih =>
      intro d
      rw [List.foldl_cons, List.foldl_cons, ih, ih (0 + _)]
      ring
  rw [sumSquares, List.zip_cons_cons, List.foldl_cons, hfold, zero_add]
  rfl

theorem parameterSquares_perm {xs xs' ys ys' : List TuningValue} (hx : xs.Perm xs')
    (hy : ys.Perm ys') : (parameterSquares xs ys : V) = parameterSquares xs' ys' := by
  rw [parameterSquares, parameterSquares, (hx.map _).sum_eq]
  exact congrArg List.sum (List.map_congr_left fun x _ => (hy.map _).sum_eq)

/-- Vectors with the same parameters at the same places: only those are subtracted. -/
theorem sumSquares_eq_parameterSquares {xs : List TuningValue} :
    ∀ {ys : List TuningValue}, names xs = names ys → (names xs).Nodup →
      sumSquares (xs.map fun x => (x.value : V)) (ys.map fun y => (y.value : V)) =
        parameterSquares xs ys := by
  induction xs with
  | nil =>
    intro ys hnames _
    rw [List.map_eq_nil_iff.mp hnames.symm]
    rfl
  | cons x xs ih =>
    intro ys hnames hnodup
    cases ys with
    | nil => simp [names] at hnames
    | cons y ys =>
      obtain ⟨hxy, hrest⟩ : x.parameter.name = y.parameter.name ∧ names xs = names ys :=
        List.cons.inj hnames
      obtain ⟨hx, hxs⟩ : x.parameter.name ∉ names xs ∧ (names xs).Nodup :=
        List.nodup_cons.mp hnodup
      have hrow : (ys.map fun y => if x.parameter.name = y.parameter.name then
          ((x.value : V) - y.value) * (x.value - y.value) else 0).sum = 0 := by
        refine List.sum_eq_zero fun v hv => ?_
        obtain ⟨y', hy', hv⟩ := List.mem_map.mp hv
        have hne : x.parameter.name ≠ y'.parameter.name := by
          intro heq
          rw [heq, hrest] at hx
          exact hx (List.mem_map_of_mem hy')
        rw [← hv, if_neg hne]
      have hcolumn : ∀ x' ∈ xs, x'.parameter.name ≠ y.parameter.name := by
        intro x' hx' heq
        rw [hxy, ← heq] at hx
        exact hx (List.mem_map_of_mem hx')
      rw [List.map_cons, List.map_cons, sumSquares_cons, ih hrest hxs, parameterSquares,
        parameterSquares, List.map_cons, List.sum_cons, List.map_cons, List.sum_cons, if_pos hxy,
        hrow, add_zero]
      refine congrArg _ (congrArg List.sum (List.map_congr_left fun x' hx' => ?_))
      rw [List.map_cons, List.sum_cons, if_neg (hcolumn x' hx'), zero_add]

variable [LinearOrder V] [IsStrictOrderedRing V]

theorem sumSquares_nonneg (v1 : List V) : ∀ v2 : List V, 0 ≤ sumSquares v1 v2 := by
  induction v1 with
  | nil => exact fun _ => le_rfl
  | cons a v1 ih =>
    intro v2
    cases v2 with
    | nil => exact le_rfl
    | cons b v2 =>
      rw [sumSquares_cons]
      exact add_nonneg (mul_self_nonneg _) (ih v2)

/-- Values of the same parameters are at distance zero only if they are the same. -/
theorem sumSquares_eq_zero {xs : List TuningValue} :
    ∀ {ys : List TuningValue}, names xs = names ys →
      (sumSquares (xs.map fun x => (x.value : V)) (ys.map fun y => (y.value : V)) = 0 ↔
        xs.map (fun x => (x.parameter.name, x.value)) =
          ys.map fun y => (y.parameter.name, y.value)) := by
  induction xs with
  | nil =>
    intro ys hnames
    rw [List.map_eq_nil_iff.mp hnames.symm]
    exact iff_of_true rfl rfl
  | cons x xs ih =>
    intro ys hnames
    cases ys with
    | nil => simp [names] at hnames
    | cons y ys =>
      obtain ⟨hxy, hrest⟩ : x.parameter.name = y.parameter.name ∧ names xs = names ys :=
        List.cons.inj hnames
      rw [List.map_cons, List.map_cons, sumSquares_cons,
        add_eq_zero_iff_of_nonneg (mul_self_nonneg _) (sumSquares_nonneg _ _), ih hrest,
        mul_self_eq_zero, sub_eq_zero, Int.cast_inj, List.map_cons, List.map_cons, List.cons.injEq,
        Prod.mk.injEq, and_iff_right hxy]

/-- `euclidean_distance` asserts that the vectors have one size. -/
def euclidean_distance (S : SquareRoot V) (v1 v2 : List V) : Outcome V :=
  if v1.length = v2.length then .ok (S.sqrt (sumSquares v1 v2)) else .aborts

/-- Of two configurations made of `xs` and `ys` the vectors have the same parameter at each
index, and their distance is zero exactly if the configurations are equal and does not depend
on the order of the values. -/
def VectorsAgree (S : SquareRoot V) (π : Iteration) (xs ys : List TuningValue) : Prop :=
  ∃ a b, configuration π xs = .ok a ∧ configuration π ys = .ok b ∧
    a.tvs.map TuningValue.parameter = b.tvs.map TuningValue.parameter ∧
    ∃ d, euclidean_distance S a.to_vector b.to_vector = .ok d ∧ (d = 0 ↔ a.equal b = true) ∧
      d = S.sqrt (parameterSquares xs ys)

end Vectors

section Building

/-- A value of a new parameter does not meet the assertion. -/
theorem addNew_eq (π : Iteration) {c : Configuration} {tv : TuningValue}
    (hnew : tv.parameter.name ∉ names c.tvs) :
    c.addNew π tv = .ok (c.add_tuning_value π tv) ∧
      (c.add_tuning_value π tv).tvs.Perm (c.tvs ++ [tv]) := by
  have hnone : ¬ (c.tuning_value tv.parameter.name).isSome := by
    intro hsome
    obtain ⟨it, hit⟩ := Option.isSome_iff_exists.mp hsome
    obtain ⟨hmem, hname⟩ := Configuration.tuning_value_eq_some.mp hit
    exact hnew (hname ▸ List.mem_map_of_mem hmem)
  exact ⟨if_neg hnone, tvs_add_tuning_value hnew⟩

theorem foldlM_addNew (π : Iteration) {l : List TuningValue} :
    ∀ {c : Configuration}, (names (c.tvs ++ l)).Nodup →
      l.foldlM (Configuration.addNew π) c = .ok (l.foldl (Configuration.add_tuning_value π) c) := by
  induction l with
  | nil => exact fun _ => rfl
  | cons tv l ih =>
    intro c hnodup
    have hnew : tv.parameter.name ∉ names c.tvs := by
      rw [names_append, List.nodup_append'] at hnodup
      exact fun hmem => hnodup.2.2 hmem List.mem_cons_self
    obtain ⟨hadd, hperm⟩ := addNew_eq π hnew
    have hrest := hperm.append_right l
    rw [List.append_assoc, List.singleton_append] at hrest
    rw [List.foldlM_cons, hadd, Outcome.ok_bind, List.foldl_cons]
    exact ih ((names_perm hrest).nodup_iff.mpr hnodup)

theorem configuration_eq (π : Iteration) {tvs : List TuningValue} (hnodup : (names tvs).Nodup) :
    configuration π tvs = .ok (tvs.foldl (Configuration.add_tuning_value π) ⟨[], .nil⟩) ∧
      (tvs.foldl (Configuration.add_tuning_value π) ⟨[], .nil⟩).tvs.Perm tvs :=
  ⟨foldlM_addNew π hnodup, tvs_foldl_add_tuning_value tvs ⟨[], .nil⟩ hnodup⟩

/-- The same keys inserted in the same order are iterated over in the same order. -/
theorem names_foldl {π : Iteration} (hπ : ByKey π) {l : List TuningValue} :
    ∀ {l' : List TuningValue} {c c' : Configuration}, names l = names l' →
      names c.tvs = names c'.tvs →
      names (l.foldl (Configuration.add_tuning_value π) c).tvs =
        names (l'.foldl (Configuration.add_tuning_value π) c').tvs := by
  induction l with
  | nil =>
    intro l' c c' hl hc
    rw [List.map_eq_nil_iff.mp hl.symm]
    exact hc
  | cons tv l ih =>
    intro l' c c' hl hc
    cases l' with
    | nil => simp [names] at hl
    | cons tv' l' =>
      obtain ⟨htv, hrest⟩ : tv.parameter.name = tv'.parameter.name ∧ names l = names l' :=
        List.cons.inj hl
      have hkept : ∀ (c : Configuration) (name : String),
          names (c.tvs.filter fun it => it.parameter.name ≠ name) =
            (names c.tvs).filter fun n => n ≠ name := by
        intro c name
        rw [names, names, List.filter_map]
        rfl
      rw [List.foldl_cons, List.foldl_cons]
      refine ih hrest (hπ _ _ ?_)
      have hlast : names [tv] = names [tv'] := congrArg (fun name => [name]) htv
      rw [names_append, names_append, hkept, hkept, hc, htv, hlast]

theorem names_configuration {π : Iteration} (hπ : ByKey π) {l l' : List TuningValue}
    (h : names l = names l') :
    names (l.foldl (Configuration.add_tuning_value π) ⟨[], .nil⟩).tvs =
      names (l'.foldl (Configuration.add_tuning_value π) ⟨[], .nil⟩).tvs :=
  names_foldl hπ h rfl

/-- A table that is iterated over in the order of insertion. -/
theorem tvs_inserted {tvs : List TuningValue} : ∀ {c : Configuration},
    (names (c.tvs ++ tvs)).Nodup →
      (tvs.foldl (Configuration.add_tuning_value fun _ => .inserted) c).tvs = c.tvs ++ tvs := by
  induction tvs with
  | nil => simp
  | cons tv tvs ih =>
    intro c hnodup
    have hkept : c.tvs.filter (fun it => it.parameter.name ≠ tv.parameter.name) = c.tvs := by
      refine List.filter_eq_self.mpr fun it hit => decide_eq_true fun heq => ?_
      rw [names, List.map_append, List.map_cons, List.nodup_append'] at hnodup
      exact hnodup.2.2 (List.mem_map_of_mem hit) (heq ▸ List.mem_cons_self)
    have hadded : (c.add_tuning_value (fun _ => .inserted) tv).tvs =
        c.tvs.filter (fun it => it.parameter.name ≠ tv.parameter.name) ++ [tv] := rfl
    have hstep : (c.add_tuning_value (fun _ => .inserted) tv).tvs = c.tvs ++ [tv] := by
      rw [hadded, hkept]
    rw [List.foldl_cons, ih, hstep, List.append_assoc, List.singleton_append]
    rw [hstep, List.append_assoc, List.singleton_append]
    exact hnodup

/-- Values with the same names that have the same parameters for them. -/
theorem map_parameter_eq {xs : List TuningValue} : ∀ {ys : List TuningValue},
    names xs = names ys →
    (∀ x ∈ xs, ∀ y ∈ ys, x.parameter.name = y.parameter.name → x.parameter = y.parameter) →
    xs.map TuningValue.parameter = ys.map TuningValue.parameter := by
  induction xs with
  | nil =>
    intro ys hnames _
    rw [List.map_eq_nil_iff.mp hnames.symm]
  | cons x xs ih =>
    intro ys hnames hsame
    cases ys with
    | nil => simp [names] at hnames
    | cons y ys =>
      obtain ⟨hxy, hrest⟩ : x.parameter.name = y.parameter.name ∧ names xs = names ys :=
        List.cons.inj hnames
      rw [List.map_cons, List.map_cons,
        hsame x List.mem_cons_self y List.mem_cons_self hxy,
        ih hrest fun x' hx' y' hy' => hsame x' (List.mem_cons_of_mem x hx') y'
          (List.mem_cons_of_mem y hy')]

/-- Two iterations in the same order of names are equal if they are permutations. -/
theorem eq_of_perm_of_names {l : List (String × Int)} : ∀ {l' : List (String × Int)},
    l.map Prod.fst = l'.map Prod.fst → (l.map Prod.fst).Nodup → l.Perm l' → l = l' := by
  induction l with
  | nil => exact fun _ _ hperm => hperm.nil_eq
  | cons e l ih =>
    intro l' hnames hnodup hperm
    cases l' with
    | nil => simp at hnames
    | cons e' l' =>
      obtain ⟨he, hrest⟩ : e.1 = e'.1 ∧ l.map Prod.fst = l'.map Prod.fst := List.cons.inj hnames
      have hmem : e' ∈ e :: l := hperm.mem_iff.mpr List.mem_cons_self
      have hself : e = e' := List.inj_on_of_nodup_map hnodup List.mem_cons_self hmem he
      subst hself
      rw [ih hrest (List.nodup_cons.mp hnodup).2 hperm.cons_inv]

end Building

variable {V : Type} [Field V] [LinearOrder V] [IsStrictOrderedRing V]

/-- Configurations iterated over in the same order of names. -/
theorem distance_of_names_eq (S : SquareRoot V) {a b : Configuration}
    (h : names a.tvs = names b.tvs) :
    euclidean_distance S a.to_vector b.to_vector = .ok (S.sqrt (parameterSquares a.tvs b.tvs)) ∧
      (S.sqrt (parameterSquares a.tvs b.tvs) = 0 ↔ a.equal b = true) := by
  have hlen : (a.to_vector : List V).length = (b.to_vector : List V).length := by
    have hsize := congrArg List.length h
    simpa [names, Configuration.to_vector] using hsize
  have hsum := sumSquares_eq_parameterSquares (V := V) h a.nodup
  constructor
  · rw [euclidean_distance, if_pos hlen, ← hsum]
    rfl
  · rw [S.eq_zero _ (hsum ▸ sumSquares_nonneg _ _), ← hsum, sumSquares_eq_zero h,
      Configuration.equal_iff_perm]
    constructor
    · intro heq
      exact .of_eq heq
    · refine eq_of_perm_of_names ?_ a.names_nodup
      rw [Configuration.iterated, Configuration.iterated, List.map_map, List.map_map]
      exact h

/-- The names of the same parameters are different, too. -/
theorem names_nodup_of_perm {xs ys : List TuningValue} (hnodup : (names xs).Nodup)
    (hsame : (xs.map TuningValue.parameter).Perm (ys.map TuningValue.parameter)) :
    (names ys).Nodup := by
  have hperm := hsame.map TuningParameter.name
  rw [List.map_map, List.map_map] at hperm
  exact hperm.nodup_iff.mp hnodup

omit [IsStrictOrderedRing V] in
/-- A table that is iterated over in the order of insertion shows that order. -/
theorem names_eq_of_vectorsAgree {S : SquareRoot V} {xs ys : List TuningValue}
    (hnodup : (names xs).Nodup) (hnodup' : (names ys).Nodup)
    (h : VectorsAgree S (fun _ => .inserted) xs ys) : names xs = names ys := by
  obtain ⟨a, b, ha, hb, haligned, -⟩ := h
  rw [(configuration_eq _ hnodup).1, Outcome.ok.injEq] at ha
  rw [(configuration_eq _ hnodup').1, Outcome.ok.injEq] at hb
  rw [← ha, ← hb, tvs_inserted (c := ⟨[], .nil⟩) hnodup,
    tvs_inserted (c := ⟨[], .nil⟩) hnodup'] at haligned
  have hnames := congrArg (List.map TuningParameter.name) haligned
  rw [List.map_map, List.map_map] at hnames
  exact hnames

/-- The vectors of two configurations over the same parameters agree, however hash tables are
iterated over, exactly if the values were inserted in the same order of parameters. -/
theorem vectorsAgree_iff (S : SquareRoot V) (xs ys : List TuningValue)
    (hnodup : (names xs).Nodup)
    (hsame : (xs.map TuningValue.parameter).Perm (ys.map TuningValue.parameter)) :
    (∀ π, ByKey π → VectorsAgree S π xs ys) ↔ names xs = names ys := by
  have hnodup' := names_nodup_of_perm hnodup hsame
  constructor
  · exact fun h => names_eq_of_vectorsAgree hnodup hnodup'
      (h (fun _ => .inserted) fun _ _ hnames => hnames)
  · intro hnames π hπ
    obtain ⟨ha, hperm⟩ := configuration_eq π hnodup
    obtain ⟨hb, hperm'⟩ := configuration_eq π hnodup'
    have hiterated := names_configuration hπ hnames
    obtain ⟨hdistance, hzero⟩ := distance_of_names_eq S hiterated
    refine ⟨_, _, ha, hb, map_parameter_eq hiterated ?_, _, hdistance, hzero,
      congrArg S.sqrt (parameterSquares_perm hperm hperm')⟩
    intro x hx y hy hxy
    have hx' : x.parameter ∈ xs.map TuningValue.parameter :=
      List.mem_map_of_mem (hperm.mem_iff.mp hx)
    have hy' : y.parameter ∈ xs.map TuningValue.parameter :=
      hsame.mem_iff.mpr (List.mem_map_of_mem (hperm'.mem_iff.mp hy))
    have hkeys : ((xs.map TuningValue.parameter).map TuningParameter.name).Nodup := by
      rw [List.map_map]
      exact hnodup
    exact List.inj_on_of_nodup_map hkeys hx' hy' hxy

noncomputable def realSqrt : SquareRoot ℝ := ⟨Real.sqrt, fun _ => Real.sqrt_eq_zero⟩

theorem byKey_reverse : ByKey fun _ => .reverse := by
  intro l l' hnames
  have hreverse := congrArg List.reverse hnames
  rwa [names, names, ← List.map_reverse, ← List.map_reverse] at hreverse

theorem vectorsAgree_two :
    VectorsAgree realSqrt (fun _ => .reverse)
      [tenValue "p" 1 (by decide), tenValue "q" 2 (by decide)]
      [tenValue "p" 3 (by decide), tenValue "q" 2 (by decide)] := by
  have hnodup : (names [tenValue "p" 1 (by decide), tenValue "q" 2 (by decide)]).Nodup := by
    decide
  refine (vectorsAgree_iff realSqrt _ [tenValue "p" 3 (by decide), tenValue "q" 2 (by decide)]
    hnodup ?_).mpr rfl _ byKey_reverse
  exact .refl [tenSteps "p", tenSteps "q"]

/-- One configuration, the parameters of which were inserted in two orders. -/
theorem not_vectorsAgree_orders :
    ¬ ∀ xs ys : List TuningValue, (names xs).Nodup →
      (xs.map TuningValue.parameter).Perm (ys.map TuningValue.parameter) →
      ∀ π, ByKey π → VectorsAgree realSqrt π xs ys := by
  intro h
  have hagree := h [tenValue "p" 1 (by decide), tenValue "q" 2 (by decide)]
    [tenValue "q" 2 (by decide), tenValue "p" 1 (by decide)] (by decide) (.swap _ _ _)
    (fun _ => .inserted) fun _ _ hnames => hnames
  exact absurd (names_eq_of_vectorsAgree (by decide) (by decide) hagree) (by decide)

end ReadexPtf.TuningModel
