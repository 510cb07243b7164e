import ReadexPtf.Autotune.GDE3Scenarios
import Mathlib

/-! The filter that every created scenario passes: the values lie on the grids of their
parameters as long as the `size_t` counter of the test does not wrap, and no two
scenarios have the same values. -/
namespace ReadexPtf.Autotune
open ReadexPtf

section Counter

/-- Integers that the conversion to `size_t` keeps apart. -/
def InWindow (z : ℤ) : Prop := -2 ^ 63 ≤ z ∧ z < 2 ^ 63

theorem toSize_add (a b : ℤ) : toSize (a + b) = (toSize a + toSize b) % 2 ^ 64 := by
  simp only [toSize]
  omega

theorem toSize_inj {a b : ℤ} (ha : InWindow a) (hb : InWindow b) (h : toSize a = toSize b) :
    a = b := by
  simp only [toSize, InWindow] at *
  omega

/-- A loop that finds the value has come to it in steps, if its counter stays in the window. -/
theorem onStep_sound {rangeTo step value : ℤ} (inv : ℤ → Prop) (hvalue : InWindow value)
    (hwindow : ∀ z, inv z → InWindow z)
    (hnext : ∀ z, inv z → toSize z ≤ toSize rangeTo → inv (z + step)) :
    ∀ rounds z, inv z →
      onStep (toSize rangeTo) (toSize step) (toSize value) rounds (toSize z) = .ok true →
      ∃ k : ℕ, value = z + k * step := by
  intro rounds
  induction rounds with
  | zero => exact fun z _ h => absurd h (by simp [onStep])
  | succ rounds ih =>
    intro z hz h
    rw [onStep] at h
    by_cases hle : toSize z ≤ toSize rangeTo
    · rw [if_pos hle] at h
      by_cases hhit : toSize z = toSize value
      · exact ⟨0, by rw [← toSize_inj (hwindow z hz) hvalue hhit]; omega⟩
      · rw [if_neg hhit, ← toSize_add] at h
        obtain ⟨k, hk⟩ := ih (z + step) (hnext z hz hle) h
        exact ⟨k + 1, by rw [hk]; push_cast; ring⟩
    · rw [if_neg hle] at h
      exact absurd h (by simp)

/-- A loop that comes to the value and meets the bound all the way finds it. -/
theorem onStep_reaches {rangeTo step value : ℕ} :
    ∀ (k rounds iter : ℕ), k < rounds →
      (∀ j ≤ k, (iter + j * step) % 2 ^ 64 ≤ rangeTo) → (iter + k * step) % 2 ^ 64 = value →
      onStep rangeTo step value rounds (iter % 2 ^ 64) = .ok true := by
  intro k
  induction k with
  | zero =>
    intro rounds iter hrounds hto hvalue
    obtain ⟨rounds, rfl⟩ := Nat.exists_eq_succ_of_ne_zero (by omega : rounds ≠ 0)
    have hle := hto 0 le_rfl
    rw [onStep, if_pos (by simpa using hle), if_pos (by simpa using hvalue)]
    rfl
  | succ k ih =>
    intro rounds iter hrounds hto hvalue
    obtain ⟨rounds, rfl⟩ := Nat.exists_eq_succ_of_ne_zero (by omega : rounds ≠ 0)
    have hle := hto 0 (by omega)
    rw [onStep, if_pos (by simpa using hle)]
    by_cases hhit : iter % 2 ^ 64 = value
    · rw [if_pos hhit]
      rfl
    · have hmod : (iter % 2 ^ 64 + step) % 2 ^ 64 = (iter + step) % 2 ^ 64 := by omega
      rw [if_neg hhit, hmod]
      apply ih rounds (iter + step) (by omega)
      · intro j hj
        have hj' := hto (j + 1) (by omega)
        rwa [show iter + step + j * step = iter + (j + 1) * step by ring]
      · rwa [show iter + step + k * step = iter + (k + 1) * step by ring]

end Counter

namespace TuningParameter

/-- The bounds and the step are values of `int`. -/
def IntTyped (tp : TuningParameter) : Prop :=
  FitsInt tp.rangeFrom ∧ FitsInt tp.rangeTo ∧ FitsInt tp.rangeStep

instance (tp : TuningParameter) : Decidable tp.IntTyped := inferInstanceAs (Decidable (_ ∧ _))

/-- On a range of negative numbers the counter does not come to zero. -/
def CounterFits (tp : TuningParameter) : Prop :=
  tp.elementWise = none → tp.rangeFrom ≤ tp.rangeTo → tp.rangeTo < 0 → 0 ≤ tp.rangeStep ∧
    tp.rangeFrom + gridCount tp.rangeFrom tp.rangeTo tp.rangeStep * tp.rangeStep < 0

instance (tp : TuningParameter) : Decidable tp.CounterFits :=
  inferInstanceAs (Decidable (_ → _ → _ → _ ∧ _))

/-- On a negative range every counter value up to the bound has a negative successor. -/
theorem CounterFits.next_neg {tp : TuningParameter} (hfits : tp.CounterFits)
    (helem : tp.elementWise = none) (hneg : tp.rangeTo < 0) {k : ℕ}
    (hle : tp.rangeFrom + k * tp.rangeStep ≤ tp.rangeTo) (hfrom : tp.rangeFrom ≤ tp.rangeTo) :
    tp.rangeFrom + (k + 1 : ℕ) * tp.rangeStep < 0 := by
  obtain ⟨hstep, hlast⟩ := hfits helem hfrom hneg
  cases hstep.lt_or_eq with
  | inr hzero =>
    rw [← hzero] at hle ⊢
    omega
  | inl hpos =>
    have hdiv : (k : ℤ) ≤ (tp.rangeTo - tp.rangeFrom) / tp.rangeStep :=
      (Int.le_ediv_iff_mul_le hpos).mpr (by omega)
    have hcount : k + 1 ≤ gridCount tp.rangeFrom tp.rangeTo tp.rangeStep := by
      rw [gridCount]
      omega
    have hmul : ((k + 1 : ℕ) : ℤ) * tp.rangeStep ≤
        gridCount tp.rangeFrom tp.rangeTo tp.rangeStep * tp.rangeStep :=
      Int.mul_le_mul_of_nonneg_right (by exact_mod_cast hcount) hstep
    omega

theorem checkValue_sound {tp : TuningParameter} (hint : tp.IntTyped) (hfits : tp.CounterFits)
    {value : ℤ} (h : tp.checkValue value = .ok true) : tp.Feasible value := by
  rw [checkValue] at h
  rw [Feasible]
  cases helem : tp.elementWise with
  | some v =>
    rw [helem] at h
    simpa using h
  | none =>
    rw [helem] at h
    simp only at h
    split_ifs at h with hfrom hto
    · exact absurd h (by simp)
    · exact absurd h (by simp)
    · refine ⟨by omega, ?_⟩
      obtain ⟨⟨hf1, hf2⟩, ⟨ht1, ht2⟩, ⟨hs1, hs2⟩⟩ := hint
      simp only [intMin, intMax] at hf1 hf2 ht1 ht2 hs1 hs2
      have hvalue : InWindow value := by
        rw [InWindow]
        omega
      by_cases hneg : tp.rangeTo < 0
      · -- the counter is negative until the loop ends
        have hstep := (hfits helem (by omega) hneg).1
        refine onStep_sound (fun z => z < 0 ∧ ∃ k : ℕ, z = tp.rangeFrom + k * tp.rangeStep)
          hvalue ?_ ?_ (2 ^ 64) tp.rangeFrom ⟨by omega, 0, by simp⟩ h
        · intro z hz'
          obtain ⟨hz, k, hk⟩ := hz'
          have hgrow : 0 ≤ (k : ℤ) * tp.rangeStep := Int.mul_nonneg (by omega) hstep
          rw [InWindow]
          omega
        · intro z hz' hle
          obtain ⟨hz, k, hk⟩ := hz'
          have hgrow : 0 ≤ (k : ℤ) * tp.rangeStep := Int.mul_nonneg (by omega) hstep
          have hz' : z ≤ tp.rangeTo := by
            simp only [toSize] at hle
            omega
          have hnext := hfits.next_neg helem hneg (hk ▸ hz') (by omega)
          have hsucc : z + tp.rangeStep = tp.rangeFrom + (k + 1 : ℕ) * tp.rangeStep := by
            rw [hk]
            push_cast
            ring
          exact ⟨hsucc ▸ hnext, k + 1, hsucc⟩
      · -- a counter below the bound is one of `int`
        refine onStep_sound InWindow hvalue (fun z hz => hz) ?_ (2 ^ 64) tp.rangeFrom ?_ h
        · intro z hz hle
          simp only [toSize, InWindow] at *
          omega
        · rw [InWindow]
          omega

end TuningParameter

theorem checkFeasible_sound {variant : Variant} {tps : List TuningParameter}
    (hint : ∀ tp ∈ tps, tp.IntTyped) (hfits : ∀ tp ∈ tps, tp.CounterFits)
    (h : checkFeasible variant tps = .ok true) :
    ∀ tp ∈ tps, tp.Feasible ((variant.get? tp.addr).getD 0) := by
  induction tps with
  | nil => simp
  | cons tp tps ih =>
    rw [checkFeasible] at h
    obtain ⟨b, hvalue, hrest⟩ := Outcome.bind_eq_ok.mp h
    cases b with
    | false => exact absurd hrest (by simp)
    | true =>
      rw [List.forall_mem_cons] at hint hfits ⊢
      exact ⟨TuningParameter.checkValue_sound hint.1 hfits.1 hvalue,
        ih hint.2 hfits.2 (by simpa using hrest)⟩

/-- Parameters on which the test of `checkFeasible` is exact enough: what it accepts is feasible. -/
def SearchSpace.Tested (space : SearchSpace) : Prop :=
  ∀ tp ∈ space.variantSpace, tp.IntTyped ∧ tp.CounterFits

/-- One specification for each search space, with feasible values. -/
def FeasibleIn (spaces : List SearchSpace) (ts : List TuningSpecification) : Prop :=
  List.Forall₂ (fun space t => ∀ tp ∈ space.variantSpace,
    tp.Feasible ((t.variant.get? tp.addr).getD 0)) spaces ts

/-- The values of a scenario, space by space in the order of its parameters. -/
def valueVector (ts : List TuningSpecification) : List (List ℤ) :=
  ts.map fun t => t.variant.entries.map Prod.snd

/-- The string under which the population knows a scenario. -/
def uniqueConfigOf (ts : List TuningSpecification) : String :=
  ts.foldl (fun uniqueConfig t => uniqueConfig ++ configString t.variant) ""

theorem uniqueConfigOf_append (ts : List TuningSpecification) (t : TuningSpecification) :
    uniqueConfigOf (ts ++ [t]) = uniqueConfigOf ts ++ configString t.variant := by
  rw [uniqueConfigOf, List.foldl_append]
  rfl

theorem uniqueConfigOf_congr {ts ts' : List TuningSpecification}
    (h : valueVector ts = valueVector ts') : uniqueConfigOf ts = uniqueConfigOf ts' := by
  have hstring : ∀ v : Variant, configString v =
      (v.entries.map Prod.snd).foldl (fun newString z => newString ++ toString z ++ ",") "" := by
    intro v
    rw [configString, List.foldl_map]
  have hvector : ∀ l : List TuningSpecification, uniqueConfigOf l =
      (valueVector l).foldl (fun uniqueConfig values => uniqueConfig ++
        values.foldl (fun newString z => newString ++ toString z ++ ",") "") "" := by
    intro l
    simp only [uniqueConfigOf, valueVector, List.foldl_map, hstring]
  rw [hvector, hvector, h]

namespace Generation
variable {V : Type} {A : DoubleArith V} {rand : ℕ → V} {stack : ℕ → ℤ} {rts : Bool}

/-- Nothing but the counters of a call may differ. -/
structure Counted (g g' : Generation) : Prop where
  searchSpaces : g'.searchSpaces = g.searchSpaces
  scenarios : g'.scenarios = g.scenarios
  population : g'.population = g.population
  parentChildMap : g'.parentChildMap = g.parentChildMap
  populElem : g'.populElem = g.populElem
  nextId : g'.nextId = g.nextId

theorem Counted.refl (g : Generation) : Counted g g := ⟨rfl, rfl, rfl, rfl, rfl, rfl⟩

theorem Counted.trans {g g' g'' : Generation} (h : Counted g g') (h' : Counted g' g'') :
    Counted g g'' :=
  ⟨h'.1.trans h.1, h'.2.trans h.2, h'.3.trans h.3, h'.4.trans h.4, h'.5.trans h.5, h'.6.trans h.6⟩

/-- A configuration that the population does not know yet, as the filter passes it. -/
structure Fresh (g : Generation) (ts : List TuningSpecification) (uniqueConfig : String) :
    Prop where
  unknown : uniqueConfig ∉ g.populElem
  config : uniqueConfig = uniqueConfigOf ts
  feasible : (∀ space ∈ g.searchSpaces, space.Tested) → FeasibleIn g.searchSpaces ts

/-- The last member is the child of the one at `parent`. -/
def paired (parent : Option ℕ) (g : Generation) : Generation :=
  match parent with
  | none => g
  | some idx => { g with
      parentChildMap := g.parentChildMap.set idx (g.population.length - 1) }

/-- What one attempt does: it changes the counters, or it enters one scenario. -/
inductive Bred (rts : Bool) (parent : Option ℕ) (g g' : Generation) : Prop where
  | counted (h : Counted g g')
  | entered (g₁ : Generation) (ts : List TuningSpecification) (uniqueConfig : String)
    (h : Counted g g₁) (hfresh : g₁.Fresh ts uniqueConfig)
    (h' : Counted ((g₁.pushScenario rts ts uniqueConfig).paired parent) g')

/-- The specifications of the spaces walked so far. -/
def Walked (spaces : List SearchSpace) (ts : List TuningSpecification) : Prop :=
  (∀ space ∈ spaces, space.Tested) → FeasibleIn spaces ts

theorem Walked.append {spaces : List SearchSpace} {ts : List TuningSpecification}
    (h : Walked spaces ts) {space : SearchSpace} {t : TuningSpecification}
    (hfeasible : checkFeasible t.variant space.variantSpace = .ok true) :
    Walked (spaces ++ [space]) (ts ++ [t]) := by
  intro htested
  rw [List.forall_mem_append, List.forall_mem_singleton] at htested
  apply List.rel_append (h htested.1)
  refine .cons ?_ .nil
  exact checkFeasible_sound (fun tp htp => (htested.2 tp htp).1)
    (fun tp htp => (htested.2 tp htp).2) hfeasible

theorem iterateTP_cases {next : List TuningSpecification → String → Generation → Outcome Generation}
    {space : SearchSpace} {ts : List TuningSpecification} {uniqueConfig : String}
    {g g' : Generation} :
    ∀ {tps : List TuningParameter} {newMap : Variant} {g₀ : Generation}, Counted g g₀ →
      iterateTP A rand rts next space tps newMap ts uniqueConfig g₀ = .ok g' →
      Counted g g' ∨ ∃ t g₁, Counted g g₁ ∧
        checkFeasible t.variant space.variantSpace = .ok true ∧
        next (ts ++ [t]) (uniqueConfig ++ configString t.variant) g₁ = .ok g' := by
  intro tps
  induction tps with
  | nil =>
    intro newMap g₀ hcount h
    rw [iterateTP] at h
    simp only at h
    by_cases hmax : g₀.noAttempts + 1 = g₀.maxAttempts
    · rw [if_pos hmax] at h
      left
      exact hcount.trans (Outcome.ok.inj h ▸ ⟨rfl, rfl, rfl, rfl, rfl, rfl⟩)
    · rw [if_neg hmax] at h
      obtain ⟨b, hcheck, h⟩ := Outcome.bind_eq_ok.mp h
      cases b with
      | false =>
        left
        have hret := Outcome.ok.inj (by simpa using h)
        exact hcount.trans (hret ▸ ⟨rfl, rfl, rfl, rfl, rfl, rfl⟩)
      | true =>
        right
        simp only [if_true] at h
        obtain ⟨t, hspec, h⟩ := Outcome.bind_eq_ok.mp h
        have hvariant : t.variant = newMap := by
          rw [specification] at hspec
          split_ifs at hspec with hrts
          · exact Outcome.ok.inj hspec ▸ rfl
          · cases hregions : space.regions with
            | nil =>
              rw [hregions] at hspec
              exact absurd hspec (by simp)
            | cons region rest =>
              rw [hregions] at hspec
              exact Outcome.ok.inj hspec ▸ rfl
        refine ⟨t, { g₀ with noAttempts := g₀.noAttempts + 1 },
          hcount.trans ⟨rfl, rfl, rfl, rfl, rfl, rfl⟩, hvariant ▸ hcheck, ?_⟩
        rw [hvariant]
        exact h
  | cons tp tps ih =>
    intro newMap g₀ hcount h
    rw [iterateTP] at h
    obtain ⟨value, -, h⟩ := Outcome.bind_eq_ok.mp h
    have hdrawn : Counted g { g₀ with drawn := g₀.drawn + 1 } :=
      hcount.trans ⟨rfl, rfl, rfl, rfl, rfl, rfl⟩
    exact ih hdrawn h

theorem iterateSS_bred {rest : List SearchSpace} :
    ∀ {walked : List SearchSpace} {ts : List TuningSpecification} {g g' : Generation},
      g.searchSpaces = walked ++ rest → Walked walked ts →
      iterateSS A rand rts rest ts (uniqueConfigOf ts) g = .ok g' → Bred rts none g g' := by
  induction rest with
  | nil =>
    intro walked ts g g' hspaces hwalked h
    rw [List.append_nil] at hspaces
    rw [iterateSS] at h
    by_cases hmem : uniqueConfigOf ts ∈ g.populElem
    · rw [if_pos hmem] at h
      exact .counted (Outcome.ok.inj h ▸ Counted.refl g)
    · rw [if_neg hmem] at h
      refine .entered g ts (uniqueConfigOf ts) (Counted.refl g) ⟨hmem, rfl, hspaces ▸ hwalked⟩ ?_
      have hret := Outcome.ok.inj h
      rw [← hret]
      split_ifs <;> exact ⟨rfl, rfl, rfl, rfl, rfl, rfl⟩
  | cons space rest ih =>
    intro walked ts g g' hspaces hwalked h
    rw [iterateSS] at h
    cases iterateTP_cases (Counted.refl g) h with
    | inl hcount => exact .counted hcount
    | inr hnext =>
      obtain ⟨t, g₁, hcount, hcheck, hrest⟩ := hnext
      rw [← uniqueConfigOf_append] at hrest
      have hspaces₁ : g₁.searchSpaces = (walked ++ [space]) ++ rest := by
        rw [hcount.searchSpaces, hspaces, List.append_assoc]
        rfl
      cases ih hspaces₁ (hwalked.append hcheck) hrest with
      | counted h' => exact .counted (hcount.trans h')
      | entered g₂ ts' uniqueConfig h' hfresh h'' =>
        exact .entered g₂ ts' uniqueConfig (hcount.trans h') hfresh h''

theorem selectRandom_counted {rounds idx popSize : ℕ} {g : Generation} {random : List ℤ} {i : ℕ}
    {g' : Generation} (h : selectRandom A rand stack rounds idx popSize g = .ok (random, i, g')) :
    Counted g g' := by
  rw [selectRandom] at h
  refine (Outcome.whileLoop_invariant (fun s => Counted g s.2.2) ?_ _ _ _ (Counted.refl g) h).1
  intro ⟨random, i, g₁⟩ s' _ hcount hround
  obtain ⟨newEntry, -, hret⟩ := Outcome.bind_eq_ok.mp hround
  have hdrawn : Counted g { g₁ with drawn := g₁.drawn + 1 } :=
    hcount.trans ⟨rfl, rfl, rfl, rfl, rfl, rfl⟩
  split_ifs at hret with hnew
  · exact Outcome.ok.inj hret ▸ hdrawn
  · exact Outcome.ok.inj hret ▸ hdrawn

theorem crossover_counted {idx : ℕ} {random : List ℤ} {i : ℕ} {randIndex : ℤ}
    {tps : List TuningParameter} :
    ∀ {curIndex : ℕ} {newChildMap : Variant} {g : Generation} {out : Variant × ℕ × Generation},
      crossover A rand idx random i randIndex tps curIndex newChildMap g = .ok out →
      Counted g out.2.2 := by
  induction tps with
  | nil =>
    intro curIndex newChildMap g out h
    exact Outcome.ok.inj h ▸ Counted.refl g
  | cons tp tps ih =>
    intro curIndex newChildMap g out h
    rw [crossover] at h
    obtain ⟨value, -, hrest⟩ := Outcome.bind_eq_ok.mp h
    have hdrawn : Counted g { g with drawn := g.drawn + 1 } := ⟨rfl, rfl, rfl, rfl, rfl, rfl⟩
    exact hdrawn.trans (ih hrest)

/-- A complete attempt has passed the filter in every search space. -/
def Passed (g : Generation) : Attempt → Prop
  | .exceeded g' => Counted g g'
  | .infeasible g' => Counted g g'
  | .complete g' ts uniqueConfig =>
    Counted g g' ∧ uniqueConfig = uniqueConfigOf ts ∧ Walked g.searchSpaces ts

theorem attemptChild_passed {idx : ℕ} {random : List ℤ} {randIndex : ℤ} {g : Generation}
    {rest : List SearchSpace} :
    ∀ {walked : List SearchSpace} {i curIndex : ℕ} {ts : List TuningSpecification}
      {g₀ : Generation} {out : Attempt},
      Counted g g₀ → g.searchSpaces = walked ++ rest → Walked walked ts →
      attemptChild A rand rts idx random randIndex rest i curIndex ts (uniqueConfigOf ts) g₀ =
        .ok out → g.Passed out := by
  induction rest with
  | nil =>
    intro walked i curIndex ts g₀ out hcount hspaces hwalked h
    rw [List.append_nil] at hspaces
    exact Outcome.ok.inj h ▸ ⟨hcount, rfl, hspaces ▸ hwalked⟩
  | cons space rest ih =>
    intro walked i curIndex ts g₀ out hcount hspaces hwalked h
    rw [attemptChild] at h
    obtain ⟨⟨newChildMap, curIndex', g₁⟩, hcross, h⟩ := Outcome.bind_eq_ok.mp h
    have hcount₁ : Counted g { g₁ with noAttempts := g₁.noAttempts + 1 } :=
      (hcount.trans (crossover_counted hcross)).trans ⟨rfl, rfl, rfl, rfl, rfl, rfl⟩
    simp only at h
    by_cases hmax : g₁.noAttempts + 1 = g₁.maxAttempts
    · rw [if_pos hmax] at h
      exact Outcome.ok.inj h ▸ hcount₁
    · rw [if_neg hmax] at h
      obtain ⟨b, hcheck, h⟩ := Outcome.bind_eq_ok.mp h
      cases b with
      | false =>
        have hret := Outcome.ok.inj (by simpa using h)
        exact hret ▸ hcount₁
      | true =>
        simp only [if_true] at h
        have hvariant : (childSpecification rts space newChildMap).variant = newChildMap := by
          rw [childSpecification]
          split_ifs <;> rfl
        have hspaces' : g.searchSpaces = (walked ++ [space]) ++ rest := by
          rw [hspaces, List.append_assoc]
          rfl
        have hwalked' := hwalked.append (t := childSpecification rts space newChildMap)
          (hvariant.symm ▸ hcheck)
        apply ih hcount₁ hspaces' hwalked'
        rw [uniqueConfigOf_append, hvariant]
        exact h

/-- One round: an attempt that does not get through leaves `idx`, a new child moves it on. -/
theorem createChild_bred {rounds popSize idx idx' : ℕ} {g g' : Generation} {b b' : Bool}
    (h : createChild A rand stack rts rounds popSize (g, idx, b) = .ok (g', idx', b')) :
    (idx' = idx ∧ Counted g g') ∨
      (idx' = idx + 1 ∧ b' = false ∧ ∃ g₁ ts uniqueConfig, Counted g g₁ ∧
        g₁.Fresh ts uniqueConfig ∧
        Counted ((g₁.pushScenario rts ts uniqueConfig).paired (some idx)) g') := by
  rw [createChild] at h
  obtain ⟨⟨random, i, g₁⟩, hselect, h⟩ := Outcome.bind_eq_ok.mp h
  obtain ⟨randIndex, -, h⟩ := Outcome.bind_eq_ok.mp h
  obtain ⟨attempt, hattempt, h⟩ := Outcome.bind_eq_ok.mp h
  have hdrawn : Counted g { g₁ with drawn := g₁.drawn + 1 } :=
    (selectRandom_counted hselect).trans ⟨rfl, rfl, rfl, rfl, rfl, rfl⟩
  have hstart : Walked [] [] := fun _ => .nil
  have hspaces : g.searchSpaces = [] ++ g₁.searchSpaces := by
    rw [List.nil_append]
    exact hdrawn.searchSpaces.symm
  have hpassed := attemptChild_passed hdrawn hspaces hstart hattempt
  cases attempt with
  | exceeded g₂ =>
    have hret := Outcome.ok.inj h
    simp only [Prod.mk.injEq] at hret
    exact .inl ⟨hret.2.1.symm, hret.1 ▸ hpassed⟩
  | infeasible g₂ =>
    have hret := Outcome.ok.inj h
    simp only [Prod.mk.injEq] at hret
    exact .inl ⟨hret.2.1.symm, hret.1 ▸ hpassed⟩
  | complete g₂ ts uniqueConfig =>
    obtain ⟨hcount, hconfig, hwalked⟩ := hpassed
    simp only at h
    by_cases hmem : uniqueConfig ∈ g₂.populElem
    · rw [if_pos hmem] at h
      have hret := Outcome.ok.inj h
      simp only [Prod.mk.injEq] at hret
      exact .inl ⟨hret.2.1.symm, hret.1 ▸ hcount⟩
    · rw [if_neg hmem] at h
      have hret := Outcome.ok.inj h
      simp only [Prod.mk.injEq] at hret
      have hfresh : g₂.Fresh ts uniqueConfig :=
        ⟨hmem, hconfig, hcount.searchSpaces.symm ▸ hwalked⟩
      refine .inr ⟨hret.2.1.symm, hret.2.2.symm, g₂, ts, uniqueConfig, hcount, hfresh, ?_⟩
      exact hret.1 ▸ ⟨rfl, rfl, rfl, rfl, rfl, rfl⟩

/-- What the search keeps about the scenarios it has made. -/
structure Registered (g : Generation) : Prop where
  older : ∀ id ∈ g.scenarios.keys, id < g.nextId
  known : ∀ id sc, g.scenarios.get? id = some sc → uniqueConfigOf sc.ts ∈ g.populElem
  distinct : ∀ id id' sc sc', g.scenarios.get? id = some sc → g.scenarios.get? id' = some sc' →
    uniqueConfigOf sc.ts = uniqueConfigOf sc'.ts → id = id'

theorem Registered.counted {g g' : Generation} (hg : g.Registered) (h : Counted g g') :
    g'.Registered := by
  constructor
  · rw [h.scenarios, h.nextId]
    exact hg.older
  · rw [h.scenarios, h.populElem]
    exact hg.known
  · rw [h.scenarios]
    exact hg.distinct

theorem uniqueConfigOf_listSpecification (ts : List TuningSpecification) :
    uniqueConfigOf (ts.map fun t => listSpecification rts t.variant t.entityList) =
      uniqueConfigOf ts := by
  rw [uniqueConfigOf, List.foldl_map]
  rfl

theorem Registered.pushScenario {g : Generation} (hg : g.Registered)
    {ts : List TuningSpecification} {uniqueConfig : String} (hfresh : g.Fresh ts uniqueConfig) :
    (g.pushScenario rts ts uniqueConfig).Registered := by
  have hconfig := hfresh.config
  have hnew : ∀ id sc, (g.pushScenario rts ts uniqueConfig).scenarios.get? id = some sc →
      (id = g.nextId ∧ uniqueConfigOf sc.ts = uniqueConfig) ∨ g.scenarios.get? id = some sc := by
    intro id sc h
    rw [Generation.pushScenario, OrdMap.get?_set] at h
    split_ifs at h with hid
    · left
      refine ⟨hid, ?_⟩
      rw [← Option.some.inj h, uniqueConfigOf_listSpecification, hconfig]
    · exact .inr h
  have hother : ∀ id sc, g.scenarios.get? id = some sc → uniqueConfigOf sc.ts ≠ uniqueConfig :=
    fun id sc h heq => hfresh.unknown (heq ▸ hg.known id sc h)
  constructor
  · intro id hid
    rw [Generation.pushScenario] at hid ⊢
    cases OrdMap.mem_keys_set.mp hid with
    | inl heq => exact heq ▸ Nat.lt_succ_self _
    | inr hold => exact Nat.lt_succ_of_lt (hg.older id hold)
  · intro id sc h
    cases hnew id sc h with
    | inl heq => exact heq.2 ▸ List.mem_cons_self
    | inr hold => exact List.mem_cons_of_mem _ (hg.known id sc hold)
  · intro id id' sc sc' h h' heq
    cases hnew id sc h with
    | inl hself =>
      cases hnew id' sc' h' with
      | inl hself' => exact hself.1.trans hself'.1.symm
      | inr hold' => exact absurd (heq.symm.trans hself.2) (hother id' sc' hold')
    | inr hold =>
      cases hnew id' sc' h' with
      | inl hself' => exact absurd (heq.trans hself'.2) (hother id sc hold)
      | inr hold' => exact hg.distinct id id' sc sc' hold hold' heq

theorem Members.pushScenario {g : Generation} (hg : g.Members) (ts : List TuningSpecification)
    (uniqueConfig : String) : (g.pushScenario rts ts uniqueConfig).Members := by
  constructor
  · apply List.pairwise_append.mpr
    refine ⟨hg.sorted, List.pairwise_singleton _ _, ?_⟩
    intro id hid id' hid'
    exact List.mem_singleton.mp hid' ▸ hg.older id hid
  · intro id hid
    cases List.mem_append.mp hid with
    | inl hold => exact Nat.lt_succ_of_lt (hg.older id hold)
    | inr hnew => exact List.mem_singleton.mp hnew ▸ Nat.lt_succ_self _

/-- Scenarios are only added, and each addition passes the filter. -/
structure Grown (g g' : Generation) : Prop where
  searchSpaces : g'.searchSpaces = g.searchSpaces
  registered : g.Registered → g'.Registered
  made : ∀ id sc, g'.scenarios.get? id = some sc →
    g.scenarios.get? id = some sc ∨ Walked g.searchSpaces sc.ts
  members : g.Members → g'.Members
  population : g.population <+: g'.population

theorem Counted.grown {g g' : Generation} (h : Counted g g') : Grown g g' where
  searchSpaces := h.searchSpaces
  registered hg := hg.counted h
  made id sc hsc := .inl (h.scenarios ▸ hsc)
  members hg := ⟨h.population.symm ▸ hg.sorted, by rw [h.population, h.nextId]; exact hg.older⟩
  population := h.population ▸ List.prefix_refl _

theorem Grown.trans {g g' g'' : Generation} (h : Grown g g') (h' : Grown g' g'') :
    Grown g g'' where
  searchSpaces := h'.searchSpaces.trans h.searchSpaces
  registered hg := h'.registered (h.registered hg)
  made id sc hsc := by
    cases h'.made id sc hsc with
    | inl hold => exact h.made id sc hold
    | inr hwalked => exact .inr (h.searchSpaces ▸ hwalked)
  members hg := h'.members (h.members hg)
  population := h.population.trans h'.population

theorem Walked.listSpecification {spaces : List SearchSpace} {ts : List TuningSpecification}
    (h : Walked spaces ts) :
    Walked spaces (ts.map fun t => listSpecification rts t.variant t.entityList) :=
  fun htested => List.forall₂_map_right_iff.mpr (h htested)

theorem Fresh.grown {g : Generation} {ts : List TuningSpecification} {uniqueConfig : String}
    (hfresh : g.Fresh ts uniqueConfig) : Grown g (g.pushScenario rts ts uniqueConfig) where
  searchSpaces := rfl
  registered hg := hg.pushScenario hfresh
  made id sc hsc := by
    rw [Generation.pushScenario, OrdMap.get?_set] at hsc
    split_ifs at hsc with hid
    · right
      have hwalked : Walked g.searchSpaces ts := hfresh.feasible
      exact Option.some.inj hsc ▸ hwalked.listSpecification
    · exact .inl hsc
  members hg := hg.pushScenario ts uniqueConfig
  population := List.prefix_append _ _

theorem paired_grown (parent : Option ℕ) (g : Generation) : Grown g (g.paired parent) := by
  cases parent with
  | none => exact (Counted.refl g).grown
  | some idx =>
    exact ⟨rfl, fun h => ⟨h.1, h.2, h.3⟩, fun _ _ h => .inl h, fun h => ⟨h.1, h.2⟩,
      List.prefix_refl _⟩

theorem Bred.grown {parent : Option ℕ} {g g' : Generation} (h : Bred rts parent g g') :
    Grown g g' := by
  cases h with
  | counted h => exact h.grown
  | entered g₁ ts uniqueConfig h hfresh h' =>
    exact h.grown.trans (hfresh.grown.trans ((paired_grown parent _).trans h'.grown))

theorem iterateSS_start {g g' : Generation}
    (h : iterateSS A rand rts g.searchSpaces [] "" g = .ok g') : Bred rts none g g' := by
  have hstart : Walked [] [] := fun _ => .nil
  exact iterateSS_bred (List.nil_append g.searchSpaces).symm hstart h

/-- What one attempt at a parent keeps, all attempts keep. -/
theorem createParents_grown {rounds : ℕ} {g g' : Generation} {b : Bool}
    (h : createParents A rand rts rounds g = .ok (g', b)) :
    Grown g g' ∧ g'.parentChildMap = g.parentChildMap := by
  rw [createParents] at h
  split_ifs at h with hnew
  · have hret := Outcome.ok.inj h
    simp only [Prod.mk.injEq] at hret
    exact hret.1 ▸ ⟨(Counted.refl g).grown, rfl⟩
  · refine (Outcome.whileLoop_invariant
      (fun s => Grown g s.1 ∧ s.1.parentChildMap = g.parentChildMap) ?_ _ _ _
      ⟨(Counted.refl g).grown, rfl⟩ h).1
    intro ⟨g₁, b₁⟩ s' _ ⟨hgrown, hmap⟩ hround
    obtain ⟨g₂, hiterate, hret⟩ := Outcome.bind_eq_ok.mp hround
    have hbred := iterateSS_start hiterate
    have hmap₂ : g₂.parentChildMap = g₁.parentChildMap := by
      cases hbred with
      | counted h => exact h.parentChildMap
      | entered g₃ ts uniqueConfig h hfresh h' => exact h'.parentChildMap.trans h.parentChildMap
    exact Outcome.ok.inj hret ▸ ⟨hgrown.trans hbred.grown, hmap₂.trans hmap⟩

/-- The children made so far by the loop over the first `popSize` members. -/
structure Raised (popSize : ℕ) (g : Generation) (idx : ℕ) : Prop extends Family g where
  size : popSize ≤ g.population.length
  children : ∀ j c, j < idx → g.parentChildMap.get? j = some c → popSize ≤ c

theorem Raised.counted {popSize idx : ℕ} {g g' : Generation} (hg : Raised popSize g idx)
    (h : Counted g g') : Raised popSize g' idx := by
  constructor
  · constructor
    · rw [h.parentChildMap, h.population]
      exact hg.inside
    · rw [h.parentChildMap]
      exact hg.later
    · rw [h.parentChildMap]
      exact hg.single
  · rw [h.population]
    exact hg.size
  · rw [h.parentChildMap]
    exact hg.children

/-- A new member as the child of `idx`, in place of the child it had. -/
theorem Raised.child {popSize idx : ℕ} {g : Generation} (hg : Raised popSize g idx)
    (hidx : idx < popSize) (ts : List TuningSpecification) (uniqueConfig : String) :
    Raised popSize ((g.pushScenario rts ts uniqueConfig).paired (some idx)) (idx + 1) := by
  have hlength : (g.pushScenario rts ts uniqueConfig).population.length =
      g.population.length + 1 := by
    rw [Generation.pushScenario, List.length_append]
    rfl
  have hget : ∀ j c, ((g.pushScenario rts ts uniqueConfig).paired
      (some idx)).parentChildMap.get? j = some c →
      (j = idx ∧ c = g.population.length) ∨ (j ≠ idx ∧ g.parentChildMap.get? j = some c) := by
    intro j c h
    rw [paired, OrdMap.get?_set, hlength] at h
    split_ifs at h with hj
    · exact .inl ⟨hj, (Option.some.inj h).symm⟩
    · exact .inr ⟨hj, h⟩
  have hkeys : ∀ j, j ∈ ((g.pushScenario rts ts uniqueConfig).paired
      (some idx)).parentChildMap.keys → j = idx ∨ j ∈ g.parentChildMap.keys :=
    fun j => OrdMap.mem_keys_set.mp
  have hsize := hg.size
  -- an old child that stays belongs to a parent after `idx`, or is a child of this loop
  have hstay : ∀ j c, j ≠ idx → g.parentChildMap.get? j = some c → idx < c := by
    intro j c hj h
    have hlater := hg.later j c j h (OrdMap.mem_keys.mpr ⟨c, h⟩)
    by_cases hlt : j < idx
    · have := hg.children j c hlt h
      omega
    · omega
  constructor
  · constructor
    · intro j c h
      have hgoal : c < g.population.length + 1 := by
        cases hget j c h with
        | inl hself => omega
        | inr hold =>
          have := hg.inside j c hold.2
          omega
      exact hlength.symm ▸ hgoal
    · intro i c j h hj
      cases hget i c h with
      | inl hself =>
        cases hkeys j hj with
        | inl hj => omega
        | inr hj =>
          obtain ⟨c', hc'⟩ := OrdMap.mem_keys.mp hj
          have h1 := hg.inside j c' hc'
          have h2 := hg.later j c' j hc' hj
          omega
      | inr hold =>
        cases hkeys j hj with
        | inl hj => exact hj ▸ hstay i c hold.1 hold.2
        | inr hj => exact hg.later i c j hold.2 hj
    · intro i j c hi hj
      cases hget i c hi with
      | inl hself =>
        cases hget j c hj with
        | inl hself' => omega
        | inr hold' =>
          have := hg.inside j c hold'.2
          omega
      | inr hold =>
        cases hget j c hj with
        | inl hself' =>
          have := hg.inside i c hold.2
          omega
        | inr hold' => exact hg.single i j c hold.2 hold'.2
  · have hgoal : popSize ≤ g.population.length + 1 := by omega
    exact hlength.symm ▸ hgoal
  · intro j c hj h
    cases hget j c h with
    | inl hself => omega
    | inr hold => exact hg.children j c (by omega) hold.2

theorem createChildren_grown {rounds : ℕ} {g g' : Generation} (hfamily : g.Family)
    (h : createChildren A rand stack rts rounds g = .ok g') : Grown g g' ∧ g'.Family := by
  rw [createChildren] at h
  obtain ⟨⟨g₁, idx, b⟩, hloop, hret⟩ := Outcome.bind_eq_ok.mp h
  have hraised : Raised g.population.length g 0 :=
    ⟨hfamily, le_rfl, fun j c hj => absurd hj (Nat.not_lt_zero j)⟩
  have hinv := (Outcome.whileLoop_invariant
    (fun s => Grown g s.1 ∧ Raised g.population.length s.1 s.2.1) ?_ _ _ _
    ⟨(Counted.refl g).grown, hraised⟩ hloop).1
  · exact Outcome.ok.inj hret ▸ ⟨hinv.1, hinv.2.toFamily⟩
  · intro ⟨g₂, idx₂, b₂⟩ ⟨g₃, idx₃, b₃⟩ hcond ⟨hgrown, hraised⟩ hround
    have hidx : idx₂ < g.population.length := by
      simp only [Bool.and_eq_true, decide_eq_true_eq] at hcond
      exact hcond.2
    cases createChild_bred hround with
    | inl hcount => exact ⟨hgrown.trans hcount.2.grown, hcount.1 ▸ hraised.counted hcount.2⟩
    | inr hchild =>
      obtain ⟨hnext, -, g₄, ts, uniqueConfig, hcount, hfresh, hcount'⟩ := hchild
      have hbred : Bred rts (some idx₂) g₂ g₃ := .entered g₄ ts uniqueConfig hcount hfresh hcount'
      refine ⟨hgrown.trans hbred.grown, ?_⟩
      exact hnext ▸ ((hraised.counted hcount).child hidx ts uniqueConfig).counted hcount'

/-- Creating scenarios adds members that pass the filter, and pairs parents with children. -/
theorem createScenarios_grown {rounds : ℕ} {g g' : Generation} (hfamily : g.Family)
    (h : createScenarios A rand stack rts rounds g = .ok g') : Grown g g' ∧ g'.Family := by
  rw [createScenarios] at h
  obtain ⟨⟨g₁, b⟩, hparents, h⟩ := Outcome.bind_eq_ok.mp h
  obtain ⟨hgrown, hmap⟩ := createParents_grown hparents
  have hcounted : Counted g { g with
      generationNo := g.generationNo + 1, noAttempts := 0, memberCreated := 0 } :=
    ⟨rfl, rfl, rfl, rfl, rfl, rfl⟩
  have hgrown₁ : Grown g g₁ := hcounted.grown.trans hgrown
  have hfamily₁ : g₁.Family := by
    have hlength := hgrown₁.population.length_le
    constructor
    · intro i c hc
      have := hfamily.inside i c (hmap ▸ hc)
      omega
    · rw [hmap]
      exact hfamily.later
    · rw [hmap]
      exact hfamily.single
  simp only at h
  split_ifs at h with hreturn
  · exact Outcome.ok.inj h ▸ ⟨hgrown₁, hfamily₁⟩
  · have hcount : Counted g₁ { g₁ with noAttempts := 0 } := ⟨rfl, rfl, rfl, rfl, rfl, rfl⟩
    have hfamily₂ : Family { g₁ with noAttempts := 0 } := ⟨hfamily₁.1, hfamily₁.2, hfamily₁.3⟩
    obtain ⟨hgrown₂, hfamily₃⟩ := createChildren_grown hfamily₂ h
    exact ⟨hgrown₁.trans (hcount.grown.trans hgrown₂), hfamily₃⟩

end Generation
end ReadexPtf.Autotune
