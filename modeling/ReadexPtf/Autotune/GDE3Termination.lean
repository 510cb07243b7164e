import ReadexPtf.Autotune.GDE3Runs
import Mathlib

/-! The end of the generational search: the counter of equal generations beside the history of
the populations that the generations ended with. -/
namespace ReadexPtf.Autotune
open ReadexPtf

section Streak
variable {α : Type*} [DecidableEq α]

/-- How many entries in a row, from the latest one on, are the latest one. -/
def streak (history : List α) : ℕ :=
  (history.takeWhile fun entry => history.head? = some entry).length

@[simp] theorem streak_nil : streak ([] : List α) = 0 := rfl

theorem streak_singleton (p : α) : streak [p] = 1 := by simp [streak]

theorem streak_cons_cons (p q : α) (rest : List α) :
    streak (p :: q :: rest) = if p = q then streak (q :: rest) + 1 else 1 := by
  by_cases hpq : p = q
  · subst hpq
    simp [streak]
  · simp [streak, hpq]

theorem streak_pos (p : α) (rest : List α) : 1 ≤ streak (p :: rest) := by
  simp [streak]

end Streak

namespace GDE3Search
variable {V : Type} {env : Environment V} {A : DoubleArith V} {srp : ResultsPool V}

section Frame

/-- What only the count of equal generations changes. -/
structure SameCount (search s : GDE3Search V) : Prop where
  recentPopulation : s.recentPopulation = search.recentPopulation
  samePopulationVector : s.samePopulationVector = search.samePopulationVector

theorem Selecting.sameCount {search s : GDE3Search V} {marks : Finset ℕ} {compared : ℕ → Prop}
    (h : Selecting search srp marks compared s) : SameCount search s.cleanupPopulation := by
  obtain ⟨r, optimalIds, rfl, -, -⟩ := h
  exact ⟨rfl, rfl⟩

theorem evaluateChildren_sameCount {search s : GDE3Search V} (h : search.Ready)
    (hrun : search.evaluateChildren A srp = .ok s) : SameCount search s := by
  obtain ⟨s₁, hloop, hret⟩ := Outcome.bind_eq_ok.mp hrun
  obtain ⟨hselecting, -⟩ := h.evaluateParents hloop
  exact Outcome.ok.inj hret ▸ hselecting.sameCount

theorem reducePopulation_sameCount {search s : GDE3Search V} (h : search.Ready)
    {order : Traversal (List V)} (hrun : search.reducePopulation A order srp = .ok s) :
    SameCount search s := by
  cases h.reducePopulation_cases hrun with
  | inl hdropped =>
    obtain ⟨marks, compared, s₁, hselecting, rfl⟩ := hdropped
    exact hselecting.sameCount
  | inr hsame =>
    subst hsame
    exact ⟨rfl, rfl⟩

/-- A call of `searchFinished` compares and reduces the population, then counts. -/
theorem searchFinished_counts {search s : GDE3Search V} (h : search.Ready)
    {order : Traversal (List V)} {timerExceeded b : Bool}
    (hrun : search.searchFinished A order srp timerExceeded = .ok (s, b)) :
    ∃ e r : GDE3Search V, search.evaluateChildren A srp = .ok e ∧
      e.reducePopulation A order srp = .ok r ∧ SameCount search r ∧ r.Ready ∧
      s = r.logObjectives.countEqualGenerations ∧
      b = (s.samePopulationVector == 3 || (s.generationNo : ℤ) == s.maxNoGenerations ||
        decide (s.noAttempts ≥ s.maxAttempts) || timerExceeded) := by
  cases he : search.evaluateChildren A srp with
  | ok e =>
    rw [searchFinished, he, Outcome.ok_bind] at hrun
    cases hr : e.reducePopulation A order srp with
    | ok r =>
      rw [hr, Outcome.ok_bind] at hrun
      obtain ⟨hs, hb⟩ := Prod.mk.inj (Outcome.ok.inj hrun)
      have hready := (h.evaluateChildren he).ready
      have hfirst := evaluateChildren_sameCount h he
      have hsecond := reducePopulation_sameCount hready hr
      refine ⟨e, r, rfl, hr, ⟨hsecond.1.trans hfirst.1, hsecond.2.trans hfirst.2⟩,
        (hready.reducePopulation hr).1, hs.symm, ?_⟩
      rw [← hb, ← hs]
    | _ => exact absurd hrun (by simp [hr])
  | _ => exact absurd hrun (by simp [searchFinished, he])

end Frame

section History

/-- The population of a generation joins the history when the generation is evaluated. -/
def remember (history : List (Finset ℕ)) (search : GDE3Search V) : GDE3Op V → List (Finset ℕ)
  | .searchFinished _ _ => search.population.toFinset :: history
  | _ => history

variable (env) in
/-- One call, with the history of the populations beside the search. -/
def observe (s : GDE3Search V × List (Finset ℕ)) (op : GDE3Op V) :
    Outcome (GDE3Search V × List (Finset ℕ)) := do
  let search ← s.1.step env op
  return (search, remember s.2 search op)

/-- The search remembers the population that is latest in the history. -/
structure Remembers (s : GDE3Search V × List (Finset ℕ)) : Prop where
  consistent : s.1.Consistent
  sorted : s.1.recentPopulation.Pairwise (· < ·)
  latest : s.1.recentPopulation.toFinset = s.2.headD ∅
  counts : s.1.samePopulationVector = streak s.2

theorem remembers_start (nextId drawn : ℕ) :
    Remembers (start env nextId drawn, []) :=
  ⟨consistent_start nextId drawn, .nil, rfl, rfl⟩

theorem sorted_eq_iff {xs ys : List ℕ} (hxs : xs.Pairwise (· < ·)) (hys : ys.Pairwise (· < ·)) :
    xs.toFinset = ys.toFinset ↔ xs = ys := by
  constructor
  · intro h
    have hperm : xs.Perm ys := List.perm_of_nodup_nodup_toFinset_eq
      (hxs.imp fun h => h.ne) (hys.imp fun h => h.ne) h
    exact hperm.eq_of_pairwise (fun a b _ _ hab hba => absurd hab hba.asymm) hxs hys
  · exact fun h => h ▸ rfl

theorem card_toFinset {xs : List ℕ} (hxs : xs.Pairwise (· < ·)) : xs.toFinset.card = xs.length :=
  List.toFinset_card_of_nodup (hxs.imp fun h => h.ne)

/-- A generation of as many members as the one before it, if there is one; or after one, not
empty, that itself differs from the one before it. -/
def SizeKept (history : List (Finset ℕ)) (size : ℕ) : Prop :=
  ∀ p rest, history = p :: rest → size = p.card ∨ p ≠ ∅ ∧ streak history = 1

/-- The count of one generation. -/
theorem Remembers.count_iff {s : GDE3Search V × List (Finset ℕ)} {r : GDE3Search V}
    (h : Remembers s) (hsame : SameCount s.1 r) (hready : r.Ready) :
    r.logObjectives.countEqualGenerations.samePopulationVector =
        streak (r.population.toFinset :: s.2) ↔ SizeKept s.2 r.population.length := by
  have hsorted := hready.members.sorted
  have hold : r.samePopulationVector = streak s.2 := hsame.samePopulationVector.trans h.counts
  have hcounter : r.logObjectives.countEqualGenerations.samePopulationVector =
      if r.population.length ≠
          (if s.1.recentPopulation = [] then r.population else s.1.recentPopulation).length then
        streak s.2
      else if r.population =
          (if s.1.recentPopulation = [] then r.population else s.1.recentPopulation) then
        streak s.2 + 1
      else 1 := by
    rw [← hold, ← hsame.recentPopulation]
    rfl
  have hlatest := h.latest
  cases hhistory : s.2 with
  | nil =>
    rw [hhistory] at hlatest
    have hempty : s.1.recentPopulation = [] := by simpa using hlatest
    rw [hcounter, hhistory, hempty]
    simp [SizeKept, streak_singleton]
  | cons p rest =>
    rw [hhistory, List.headD_cons] at hlatest
    have hcard : s.1.recentPopulation.length = p.card := by
      rw [← card_toFinset h.sorted, hlatest]
    have hpos := streak_pos p rest
    have hkept : SizeKept (p :: rest) r.population.length ↔
        r.population.length = p.card ∨ p ≠ ∅ ∧ streak (p :: rest) = 1 := by
      simp [SizeKept]
    rw [hcounter, hhistory, hkept, streak_cons_cons]
    by_cases hempty : s.1.recentPopulation = []
    · -- an empty population is taken for none
      have hp : p = ∅ := by rw [← hlatest, hempty]; rfl
      subst hp
      rw [if_pos hempty]
      by_cases hnow : r.population = []
      · simp [hnow]
      · have hcount : streak (∅ :: rest) ≠ 0 := by omega
        simp [hnow, hcount]
    · have hp : p ≠ ∅ := by simpa [← hlatest] using hempty
      have heq : r.population = s.1.recentPopulation ↔ r.population.toFinset = p := by
        rw [← hlatest, sorted_eq_iff hsorted h.sorted]
      rw [if_neg hempty, hcard]
      by_cases hlength : r.population.length = p.card
      · simp [hlength, heq]
      · have hdiffer : r.population.toFinset ≠ p := by
          rintro rfl
          exact hlength (card_toFinset hsorted).symm
        simp [hlength, hdiffer, hp]

variable (env)

/-- After a call the counter is the number of generations in a row with the population of now,
and the call ends the search for this reason exactly after three of them. -/
def CountsGenerations (s : GDE3Search V × List (Finset ℕ)) (op : GDE3Op V) : Prop :=
  ∀ s', observe env s op = .ok s' → s'.1.samePopulationVector = streak s'.2 ∧
    ∀ srp timerExceeded b, op = .searchFinished srp timerExceeded →
      s.1.searchFinished env.arith env.order srp timerExceeded = .ok (s'.1, b) →
      (b = true ↔ streak s'.2 = 3 ∨ (s'.1.generationNo : ℤ) = s'.1.maxNoGenerations ∨
        s'.1.maxAttempts ≤ s'.1.noAttempts ∨ timerExceeded = true)

/-- The condition on the population that a call of `searchFinished` counts. -/
def KeepsSize (s : GDE3Search V × List (Finset ℕ)) : GDE3Op V → Prop
  | .searchFinished srp _ => ∀ e r, s.1.evaluateChildren env.arith srp = .ok e →
      e.reducePopulation env.arith env.order srp = .ok r → SizeKept s.2 r.population.length
  | _ => True

variable {env}

theorem observe_eq_ok {s s' : GDE3Search V × List (Finset ℕ)} {op : GDE3Op V} :
    observe env s op = .ok s' ↔ s.1.step env op = .ok s'.1 ∧ s'.2 = remember s.2 s'.1 op := by
  rw [observe, Outcome.bind_eq_ok]
  constructor
  · rintro ⟨search, hstep, hret⟩
    rw [← Outcome.ok.inj hret]
    exact ⟨hstep, rfl⟩
  · rintro ⟨hstep, hhistory⟩
    exact ⟨s'.1, hstep, by rw [← hhistory]; rfl⟩

theorem step_searchFinished {search s : GDE3Search V} {timerExceeded : Bool} :
    search.step env (.searchFinished srp timerExceeded) = .ok s ↔
      ∃ b, search.searchFinished env.arith env.order srp timerExceeded = .ok (s, b) := by
  constructor
  · intro h
    obtain ⟨⟨s', b⟩, hrun, hret⟩ := Outcome.bind_eq_ok.mp h
    exact ⟨b, by rw [hrun]; exact congrArg _ (Prod.ext (Outcome.ok.inj hret) rfl)⟩
  · rintro ⟨b, hrun⟩
    rw [step, hrun]
    rfl

/-- Other calls count nothing. -/
theorem step_sameCount {search s : GDE3Search V} {op : GDE3Op V}
    (hop : ∀ srp timerExceeded, op ≠ .searchFinished srp timerExceeded)
    (h : search.step env op = .ok s) : SameCount search s := by
  cases op with
  | searchFinished srp timerExceeded => exact absurd rfl (hop srp timerExceeded)
  | createScenarios rounds =>
    obtain ⟨g, -, hret⟩ := Outcome.bind_eq_ok.mp h
    exact Outcome.ok.inj hret ▸ ⟨rfl, rfl⟩
  | _ => exact Outcome.ok.inj h ▸ ⟨rfl, rfl⟩

theorem remember_eq {history : List (Finset ℕ)} {search : GDE3Search V} {op : GDE3Op V}
    (hop : ∀ srp timerExceeded, op ≠ .searchFinished srp timerExceeded) :
    remember history search op = history := by
  cases op with
  | searchFinished srp timerExceeded => exact absurd rfl (hop srp timerExceeded)
  | _ => rfl

theorem Remembers.countsGenerations_iff {s : GDE3Search V × List (Finset ℕ)} (h : Remembers s)
    (op : GDE3Op V) : CountsGenerations env s op ↔ KeepsSize env s op := by
  by_cases hop : ∀ srp timerExceeded, op ≠ .searchFinished srp timerExceeded
  · refine iff_of_true ?_ (by cases op <;> first | trivial | exact absurd rfl (hop _ _))
    intro s' hs'
    obtain ⟨hstep, hhistory⟩ := observe_eq_ok.mp hs'
    rw [(step_sameCount hop hstep).samePopulationVector, hhistory, remember_eq hop]
    exact ⟨h.counts, fun srp timerExceeded b heq => absurd heq (hop srp timerExceeded)⟩
  · simp only [ne_eq, not_forall, not_not] at hop
    obtain ⟨srp, timerExceeded, rfl⟩ := hop
    constructor
    · intro hcounts e r he hr
      have hready := h.consistent.ready
      obtain ⟨b, hrun⟩ : ∃ b, s.1.searchFinished env.arith env.order srp timerExceeded =
          .ok (r.logObjectives.countEqualGenerations, b) := by
        rw [searchFinished, he, Outcome.ok_bind, hr]
        exact ⟨_, rfl⟩
      have hcount := (hcounts (r.logObjectives.countEqualGenerations,
        r.population.toFinset :: s.2) (observe_eq_ok.mpr
          ⟨step_searchFinished.mpr ⟨b, hrun⟩, rfl⟩)).1
      obtain ⟨e', r', he', hr', hsame, hready', hs, -⟩ := searchFinished_counts hready hrun
      have hee : e = e' := Outcome.ok.inj (he.symm.trans he')
      subst hee
      have hrr : r = r' := Outcome.ok.inj (hr.symm.trans hr')
      subst hrr
      exact (h.count_iff hsame hready').mp hcount
    · intro hkept s' hs'
      obtain ⟨hstep, hhistory⟩ := observe_eq_ok.mp hs'
      obtain ⟨b, hrun⟩ := step_searchFinished.mp hstep
      obtain ⟨e, r, he, hr, hsame, hready, hs, -⟩ :=
        searchFinished_counts h.consistent.ready hrun
      have hcount : s'.1.samePopulationVector = streak s'.2 := by
        rw [hhistory, hs]
        exact (h.count_iff hsame hready).mpr (hkept e r he hr)
      refine ⟨hcount, ?_⟩
      intro srp' timerExceeded' b' hop' hrun'
      obtain ⟨rfl, rfl⟩ := GDE3Op.searchFinished.injEq .. ▸ hop'
      obtain ⟨-, -, -, -, -, -, -, hb⟩ := searchFinished_counts h.consistent.ready hrun'
      rw [hb, hcount]
      simp [or_assoc]

theorem Remembers.observe {s s' : GDE3Search V × List (Finset ℕ)} {op : GDE3Op V}
    (h : Remembers s) (hcounts : CountsGenerations env s op)
    (hs' : GDE3Search.observe env s op = .ok s') : Remembers s' := by
  obtain ⟨hstep, hhistory⟩ := observe_eq_ok.mp hs'
  have hconsistent := h.consistent.step hstep
  have hcount := (hcounts s' hs').1
  by_cases hop : ∀ srp timerExceeded, op ≠ .searchFinished srp timerExceeded
  · have hsame := step_sameCount hop hstep
    refine ⟨hconsistent, hsame.recentPopulation ▸ h.sorted, ?_, hcount⟩
    rw [hsame.recentPopulation, hhistory, remember_eq hop]
    exact h.latest
  · simp only [ne_eq, not_forall, not_not] at hop
    obtain ⟨srp, timerExceeded, rfl⟩ := hop
    obtain ⟨b, hrun⟩ := step_searchFinished.mp hstep
    obtain ⟨-, r, -, -, -, -, hs, -⟩ := searchFinished_counts h.consistent.ready hrun
    have hrecent : s'.1.recentPopulation = s'.1.population := by rw [hs]; rfl
    refine ⟨hconsistent, hrecent ▸ hconsistent.ready.members.sorted, ?_, hcount⟩
    rw [hrecent, hhistory]
    rfl

/-- Over a whole run the counter is right after every call exactly if no generation changes the
size of a population that has stayed the same, or is the first after an empty one. -/
theorem run_countsGenerations_iff (nextId drawn : ℕ) (ops : List (GDE3Op V)) :
    Outcome.StepsMeet (CountsGenerations env) (observe env) ops (start env nextId drawn, []) ↔
      Outcome.StepsMeet (KeepsSize env) (observe env) ops (start env nextId drawn, []) :=
  Outcome.StepsMeet.congr Remembers (fun _ _ _ h hcounts hs' => h.observe hcounts hs')
    (fun _ op h => h.countsGenerations_iff op) (remembers_start nextId drawn)

end History

section Settled

/-- A grid of a hundred values. -/
def wideSpace : SearchSpace := ⟨["region"], [], [⟨0, 0, 99, 1, none⟩]⟩

/-- Random numbers for five parents and three generations of five children. -/
def settledDraws : List ℚ :=
  [0, 10 / 99, 24 / 99, 50 / 99, 90 / 99] ++
    ([[1, 2, 3], [0, 2, 3], [0, 1, 3], [0, 1, 2], [1, 0, 2],
      [1, 2, 4], [0, 2, 4], [0, 1, 4], [1, 0, 4], [1, 0, 3],
      [1, 3, 2], [0, 3, 4], [0, 4, 3], [2, 0, 1], [2, 0, 3]] : List (List ℚ)).flatMap
      fun random => random.map (fun k => (2 * k + 1) / 10) ++ [0, 0]

def settledEnvironment : Environment ℚ where
  arith := ratArith
  rand n := settledDraws.getD n 0
  stack _ := -1
  rts := false
  order := .inserted
  minObjective id srp := (srp id).headD 0

/-- The parents win against the children of two generations, not against those of the third. -/
def settledResults : ResultsPool ℚ := resultsOf
  ([[44, 24], [50, 16], [72, 20], [8, 72], [41, 28]] ++ List.replicate 10 [100, 100] ++
    [[45, 25], [51, 17], [73, 21], [26, 48], [56, 8]])

def settledOps : List (GDE3Op ℚ) :=
  [.addSearchSpace wideSpace, .setPopulationSize 5,
    .addObjectiveFunction fun id srp => (srp id).getD 0 0,
    .addObjectiveFunction fun id srp => (srp id).getD 1 0,
    .createScenarios 10, .searchFinished settledResults false,
    .createScenarios 10, .searchFinished settledResults false,
    .createScenarios 10, .searchFinished settledResults false]

set_option maxRecDepth 10000 in
/-- The third generation has four members, and the counter stays at two. -/
theorem not_run_countsGenerations_settled :
    ¬ Outcome.StepsMeet (CountsGenerations settledEnvironment) (observe settledEnvironment)
      settledOps (start settledEnvironment 0 0, []) := by
  intro h
  have hrun : (settledOps.foldlM (observe settledEnvironment)
      (start settledEnvironment 0 0, [])).returnsWith fun s =>
        decide (s.1.samePopulationVector ≠ streak s.2) := by
    decide +kernel
  obtain ⟨s, hs, hdiffer⟩ := Outcome.returnsWith_iff.mp hrun
  have hremembers := h.invariant Remembers (fun _ _ _ h hcounts hs' => h.observe hcounts hs')
    (remembers_start 0 0) hs
  exact of_decide_eq_true hdiffer hremembers.counts

end Settled
end GDE3Search
end ReadexPtf.Autotune
