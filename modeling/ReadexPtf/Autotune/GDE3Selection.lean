import ReadexPtf.Autotune.GDE3Feasible
import ReadexPtf.Autotune.RationalArith
import Mathlib

/-! Differential evolution: the three other members that a child comes from, the slots that
choosing them reads, and the parameters of the child that come from the mutant. -/
namespace ReadexPtf.Autotune
open ReadexPtf
variable {V : Type} {A : DoubleArith V} {rand : ℕ → V} {stack : ℕ → ℤ} {rts : Bool}

/-- Numbers from `[0, 1)`, scaled, are positions. -/
def DrawsPositions (A : DoubleArith V) (rand : ℕ → V) : Prop :=
  ∀ n size : ℕ, 0 < size → ∃ entry : ℕ, entry < size ∧
    A.toInt (A.mul (rand n) (A.ofInt size)) = some (entry : ℤ)

namespace Generation
variable (A rand stack)

/-- One round of the selection: an entry is drawn for slot `i`. -/
def selectRound (idx popSize : ℕ) : List ℤ × ℕ × Generation → Outcome (List ℤ × ℕ × Generation)
  | (random, i, g) => do
    let (draw, g) := g.uniform rand
    let newEntry ← Outcome.found (A.toInt (A.mul draw (A.ofInt popSize)))
    if newEntry ≠ readRandom stack random (((i : ℤ) + 1).tmod 3) g ∧
        newEntry ≠ readRandom stack random (((i : ℤ) - 1).tmod 3) g ∧ newEntry ≠ idx then
      return (random.set i newEntry, i + 1, g)
    else return (random, i, g)

theorem selectRandom_eq (rounds idx popSize : ℕ) (g : Generation) :
    selectRandom A rand stack rounds idx popSize g =
      Outcome.whileLoop (fun (_, i, _) => i < 3) (selectRound A rand stack idx popSize) rounds
        ([-1, -1, -1], 0, g) :=
  rfl

/-- The slots read by the test of an entry for slot `i`: the second one only if the entry is
not in the first one. -/
def slotsRead (random : List ℤ) (i : ℕ) (newEntry : ℤ) (g : Generation) : List ℤ :=
  let next := ((i : ℤ) + 1).tmod 3
  if newEntry ≠ readRandom stack random next g then [next, ((i : ℤ) - 1).tmod 3] else [next]

/-- The slots read by as many rounds, in their order. -/
def selectionReads (idx popSize : ℕ) : ℕ → List ℤ × ℕ × Generation → List ℤ
  | 0, _ => []
  | rounds + 1, (random, i, g) =>
    if i < 3 then
      match A.toInt (A.mul (rand g.drawn) (A.ofInt popSize)),
        selectRound A rand stack idx popSize (random, i, g) with
      | some newEntry, .ok s =>
        slotsRead stack random i newEntry (g.uniform rand).2 ++
          selectionReads idx popSize rounds s
      | _, _ => []
    else []

/-- `int random[ 3 ] = { -1, -1, -1 };` -/
def Initialised (slot : ℤ) : Prop := 0 ≤ slot ∧ slot < 3

instance (slot : ℤ) : Decidable (Initialised slot) := inferInstanceAs (Decidable (_ ∧ _))

/-- Three different members other than the target. -/
structure Selected (idx popSize : ℕ) (random : List ℤ) : Prop where
  size : random.length = 3
  distinct : random.Nodup
  members : ∀ entry ∈ random, 0 ≤ entry ∧ entry < popSize ∧ entry ≠ idx

/-- The first `i` slots hold different members other than the target, the others nothing yet. -/
structure Selecting (idx popSize : ℕ) (random : List ℤ) (i : ℕ) : Prop where
  chosen : ∃ entries : List ℤ, random = entries ++ List.replicate (3 - i) (-1) ∧
    entries.length = i ∧ entries.Nodup ∧ ∀ entry ∈ entries, 0 ≤ entry ∧ entry < popSize ∧ entry ≠ idx
  bound : i ≤ 3

variable {A rand stack}

theorem Selecting.start (idx popSize : ℕ) : Selecting idx popSize [-1, -1, -1] 0 :=
  ⟨⟨[], rfl, rfl, List.nodup_nil, by simp⟩, by omega⟩

theorem Selecting.selected {idx popSize : ℕ} {random : List ℤ}
    (h : Selecting idx popSize random 3) : Selected idx popSize random := by
  obtain ⟨entries, hrandom, hlength, hnodup, hmembers⟩ := h.chosen
  have heq : random = entries := by simpa using hrandom
  exact ⟨heq ▸ hlength, heq ▸ hnodup, heq ▸ hmembers⟩

/-- The two slots tested are the other two, so an entry that passes is in none of the slots. -/
theorem Selecting.set {idx popSize : ℕ} {random : List ℤ} {i : ℕ} {newEntry : ℤ} {g : Generation}
    (h : Selecting idx popSize random i) (hi : i < 3) (hfits : 0 ≤ newEntry ∧ newEntry < popSize)
    (hnext : newEntry ≠ readRandom stack random (((i : ℤ) + 1).tmod 3) g)
    (hprevious : newEntry ≠ readRandom stack random (((i : ℤ) - 1).tmod 3) g)
    (hidx : newEntry ≠ idx) : Selecting idx popSize (random.set i newEntry) (i + 1) := by
  obtain ⟨entries, rfl, rfl, hnodup, hmembers⟩ := h.chosen
  have hset : (entries ++ List.replicate (3 - entries.length) (-1)).set entries.length newEntry =
      (entries ++ [newEntry]) ++ List.replicate (3 - (entries.length + 1)) (-1) := by
    have hreplicate : List.replicate (3 - entries.length) (-1 : ℤ) =
        -1 :: List.replicate (3 - (entries.length + 1)) (-1) := by
      rw [← List.replicate_succ]
      congr 1
      omega
    rw [List.set_append_right _ _ le_rfl, Nat.sub_self, hreplicate, List.set_cons_zero,
      List.append_assoc, List.singleton_append]
  have hnew : newEntry ∉ entries := by
    cases entries with
    | nil => simp
    | cons a rest =>
      cases rest with
      | nil => simpa [readRandom] using hprevious
      | cons b rest =>
        have hrest : rest = [] := by
          rw [List.length_cons, List.length_cons] at hi
          exact List.eq_nil_of_length_eq_zero (by omega)
        subst hrest
        simp only [List.mem_cons, List.not_mem_nil, or_false, not_or]
        exact ⟨by simpa [readRandom] using hnext, by simpa [readRandom] using hprevious⟩
  refine ⟨⟨entries ++ [newEntry], hset, by simp, ?_, ?_⟩, by omega⟩
  · exact List.nodup_append.mpr ⟨hnodup, List.nodup_singleton newEntry, by
      intro a ha b hb
      rw [List.mem_singleton] at hb
      exact fun heq => hnew (hb ▸ heq ▸ ha)⟩
  · intro entry hentry
    rw [List.mem_append, List.mem_singleton] at hentry
    cases hentry with
    | inl hold => exact hmembers entry hold
    | inr hnew => exact hnew ▸ ⟨hfits.1, hfits.2, hidx⟩

theorem selectRound_eq {idx popSize : ℕ} {newEntry : ℤ} (random : List ℤ) (i : ℕ)
    (g : Generation) (hentry : A.toInt (A.mul (rand g.drawn) (A.ofInt popSize)) = some newEntry) :
    selectRound A rand stack idx popSize (random, i, g) =
      if newEntry ≠ readRandom stack random (((i : ℤ) + 1).tmod 3) (g.uniform rand).2 ∧
          newEntry ≠ readRandom stack random (((i : ℤ) - 1).tmod 3) (g.uniform rand).2 ∧
          newEntry ≠ idx then
        .ok (random.set i newEntry, i + 1, (g.uniform rand).2)
      else .ok (random, i, (g.uniform rand).2) := by
  have hfound : Outcome.found (A.toInt (A.mul (rand g.drawn) (A.ofInt popSize))) =
      .ok newEntry := Outcome.found_eq_ok.mpr hentry
  rw [selectRound, uniform]
  dsimp only
  rw [hfound]
  rfl

/-- A round either fills slot `i` or leaves the slots as they are. -/
theorem selectRound_cases {idx popSize : ℕ} {random random' : List ℤ} {i i' : ℕ}
    {g g' : Generation}
    (h : selectRound A rand stack idx popSize (random, i, g) = .ok (random', i', g')) :
    ∃ newEntry, A.toInt (A.mul (rand g.drawn) (A.ofInt popSize)) = some newEntry ∧
      g' = (g.uniform rand).2 ∧
      ((newEntry ≠ readRandom stack random (((i : ℤ) + 1).tmod 3) g' ∧
          newEntry ≠ readRandom stack random (((i : ℤ) - 1).tmod 3) g' ∧ newEntry ≠ idx ∧
          random' = random.set i newEntry ∧ i' = i + 1) ∨
        (random' = random ∧ i' = i)) := by
  obtain ⟨newEntry, hentry, hret⟩ := Outcome.bind_eq_ok.mp h
  refine ⟨newEntry, Outcome.found_eq_ok.mp hentry, ?_⟩
  split_ifs at hret with hnew
  · obtain ⟨rfl, rfl, rfl⟩ := Prod.mk.injEq .. ▸ Outcome.ok.inj hret
    exact ⟨rfl, .inl ⟨hnew.1, hnew.2.1, hnew.2.2, rfl, rfl⟩⟩
  · obtain ⟨rfl, rfl, rfl⟩ := Prod.mk.injEq .. ▸ Outcome.ok.inj hret
    exact ⟨rfl, .inr ⟨rfl, rfl⟩⟩

theorem selectRound_returns {idx popSize : ℕ} {newEntry : ℤ} (random : List ℤ) (i : ℕ)
    (g : Generation) (hentry : A.toInt (A.mul (rand g.drawn) (A.ofInt popSize)) = some newEntry) :
    ∃ s, selectRound A rand stack idx popSize (random, i, g) = .ok s := by
  rw [selectRound_eq random i g hentry]
  split_ifs
  · exact ⟨_, rfl⟩
  · exact ⟨_, rfl⟩

theorem selectRound_selecting {idx popSize : ℕ} {random random' : List ℤ} {i i' : ℕ}
    {g g' : Generation} (hdraws : DrawsPositions A rand) (hpop : 0 < popSize) (hi : i < 3)
    (h : Selecting idx popSize random i)
    (hround : selectRound A rand stack idx popSize (random, i, g) = .ok (random', i', g')) :
    Selecting idx popSize random' i' := by
  obtain ⟨newEntry, hentry, -, hcases⟩ := selectRound_cases hround
  obtain ⟨entry, hlt, hdraw⟩ := hdraws g.drawn popSize hpop
  have heq : newEntry = entry := Option.some.inj (hentry.symm.trans hdraw)
  cases hcases with
  | inl hnew =>
    obtain ⟨hnext, hprevious, hidx, rfl, rfl⟩ := hnew
    exact h.set hi (by omega) hnext hprevious hidx
  | inr hkept => exact hkept.1 ▸ hkept.2 ▸ h

/-- A selection that comes to an end has chosen three different members, whatever stands
before the first slot. -/
theorem selectRandom_selected {rounds idx popSize : ℕ} {g g' : Generation} {random : List ℤ}
    {i : ℕ} (hdraws : DrawsPositions A rand) (hpop : 0 < popSize)
    (h : selectRandom A rand stack rounds idx popSize g = .ok (random, i, g')) :
    Selected idx popSize random := by
  rw [selectRandom_eq] at h
  have hend := Outcome.whileLoop_invariant (fun s => Selecting idx popSize s.1 s.2.1)
    (fun s s' hcond hs hround => selectRound_selecting hdraws hpop (by simpa using hcond) hs hround)
    rounds _ _ (Selecting.start idx popSize) h
  have hi : i = 3 := by
    have hbound := hend.1.bound
    have hcond := hend.2
    simp only [decide_eq_true_eq, not_lt] at hbound hcond
    omega
  exact (hi ▸ hend.1 : Selecting idx popSize random 3).selected

/-- The test for slot `i` reads slots of the array but for the one before the first, which it
reads for the first slot. -/
theorem slotsRead_subset {random : List ℤ} {i : ℕ} {newEntry slot : ℤ} {g : Generation}
    (hi : i < 3) (h : slot ∈ slotsRead stack random i newEntry g) :
    Initialised slot ∨ (slot = -1 ∧ i = 0) := by
  have hslot : slot = ((i : ℤ) + 1).tmod 3 ∨ slot = ((i : ℤ) - 1).tmod 3 := by
    rw [slotsRead] at h
    split_ifs at h
    · simpa using h
    · exact .inl (by simpa using h)
  cases hslot with
  | inl hnext =>
    subst hnext
    exact .inl (by interval_cases i <;> decide)
  | inr hprevious =>
    subst hprevious
    cases i with
    | zero => exact .inr ⟨rfl, rfl⟩
    | succ i =>
      have hlt : i < 2 := by omega
      exact .inl (by interval_cases i <;> decide)

theorem selectionReads_subset {rounds idx popSize : ℕ} {slot : ℤ} :
    ∀ {s : List ℤ × ℕ × Generation}, slot ∈ selectionReads A rand stack idx popSize rounds s →
      Initialised slot ∨ slot = -1 := by
  induction rounds with
  | zero => exact fun h => absurd h (by simp [selectionReads])
  | succ rounds ih =>
    intro s h
    obtain ⟨random, i, g⟩ := s
    rw [selectionReads] at h
    split_ifs at h with hi
    · cases hentry : A.toInt (A.mul (rand g.drawn) (A.ofInt popSize)) with
      | none => simp [hentry] at h
      | some newEntry =>
        obtain ⟨s', hround⟩ := @selectRound_returns V A rand stack idx popSize newEntry random i g hentry
        rw [hentry, hround] at h
        cases List.mem_append.mp h with
        | inl hround => exact (slotsRead_subset hi hround).imp_right And.left
        | inr hrest => exact ih hrest
    · simp at h

/-- The very first test reads the slot before the array. -/
theorem mem_selectionReads {rounds idx popSize : ℕ} (g : Generation)
    (hdraws : DrawsPositions A rand) (hpop : 0 < popSize) :
    -1 ∈ selectionReads A rand stack idx popSize (rounds + 1) ([-1, -1, -1], 0, g) := by
  obtain ⟨entry, -, hdraw⟩ := hdraws g.drawn popSize hpop
  obtain ⟨s, hs⟩ := @selectRound_returns V A rand stack idx popSize entry [-1, -1, -1] 0 g hdraw
  have hempty : (entry : ℤ) ≠ readRandom stack [-1, -1, -1] 1 (g.uniform rand).2 := by
    have hslot : readRandom stack [-1, -1, -1] 1 (g.uniform rand).2 = -1 := rfl
    rw [hslot]
    omega
  have hreads : slotsRead stack [-1, -1, -1] 0 entry (g.uniform rand).2 = [1, -1] := by
    rw [slotsRead]
    exact if_pos hempty
  rw [selectionReads, if_pos (by omega), hdraw, hs]
  simp [hreads]

/-- The selection comes to an end from here. -/
def Ends (A : DoubleArith V) (rand : ℕ → V) (stack : ℕ → ℤ) (idx popSize : ℕ)
    (s : List ℤ × ℕ × Generation) : Prop :=
  ∃ rounds s', Outcome.whileLoop (fun (_, i, _) => i < 3) (selectRound A rand stack idx popSize)
    rounds s = .ok s'

theorem Ends.step {idx popSize : ℕ} {random : List ℤ} {i : ℕ} {g : Generation}
    {s : List ℤ × ℕ × Generation} (hi : i < 3)
    (hround : selectRound A rand stack idx popSize (random, i, g) = .ok s)
    (h : Ends A rand stack idx popSize s) : Ends A rand stack idx popSize (random, i, g) := by
  obtain ⟨rounds, s', hs'⟩ := h
  refine ⟨rounds + 1, s', ?_⟩
  rw [Outcome.whileLoop, if_pos (by simpa using hi), hround]
  exact hs'

theorem readRandom_ne {random : List ℤ} {slot entry : ℤ} {g : Generation} (hentry : 0 ≤ entry)
    (hnot : entry ∉ random) (hstack : stack g.drawn ≠ entry) :
    entry ≠ readRandom stack random slot g := by
  rw [readRandom]
  split_ifs with hslot
  · exact hstack.symm
  · intro heq
    cases hget : random[slot.toNat]? with
    | none =>
      rw [List.getD_eq_getElem?_getD, hget, Option.getD_none] at heq
      omega
    | some a =>
      rw [List.getD_eq_getElem?_getD, hget, Option.getD_some] at heq
      exact hnot (heq ▸ List.mem_of_getElem? hget)

/-- Every member keeps coming up, and not only when its number stands before the first slot. -/
def KeepsDrawing (A : DoubleArith V) (rand : ℕ → V) (stack : ℕ → ℤ) (popSize : ℕ) : Prop :=
  ∀ n entry : ℕ, entry < popSize → ∃ m, n ≤ m ∧
    A.toInt (A.mul (rand m) (A.ofInt popSize)) = some (entry : ℤ) ∧ stack (m + 1) ≠ entry

/-- Slot `i` gets filled, at the latest when the member `entry` comes up. -/
theorem Ends.fill {idx popSize i entry : ℕ} (hdraws : DrawsPositions A rand) (hpop : 0 < popSize)
    (hi : i < 3) (hidx : entry ≠ idx)
    (hnext : ∀ random g, Selecting idx popSize random (i + 1) →
      Ends A rand stack idx popSize (random, i + 1, g)) (d : ℕ) :
    ∀ {random : List ℤ} {g : Generation}, Selecting idx popSize random i →
      (entry : ℤ) ∉ random →
      A.toInt (A.mul (rand (g.drawn + d)) (A.ofInt popSize)) = some (entry : ℤ) →
      stack (g.drawn + d + 1) ≠ entry → Ends A rand stack idx popSize (random, i, g) := by
  induction d with
  | zero =>
    intro random g hselecting hnot hdraw hstack
    have hother : ∀ slot, (entry : ℤ) ≠ readRandom stack random slot (g.uniform rand).2 :=
      fun slot => readRandom_ne (by omega) hnot hstack
    have hround : selectRound A rand stack idx popSize (random, i, g) =
        .ok (random.set i entry, i + 1, (g.uniform rand).2) := by
      rw [selectRound_eq random i g hdraw, if_pos ⟨hother _, hother _, by exact_mod_cast hidx⟩]
    exact Ends.step hi hround
      (hnext _ _ (selectRound_selecting hdraws hpop hi hselecting hround))
  | succ d ih =>
    intro random g hselecting hnot hdraw hstack
    obtain ⟨entry', -, hdraw'⟩ := hdraws g.drawn popSize hpop
    obtain ⟨⟨random', i', g'⟩, hround⟩ :=
      @selectRound_returns V A rand stack idx popSize entry' random i g hdraw'
    apply Ends.step hi hround
    have hselecting' := selectRound_selecting hdraws hpop hi hselecting hround
    obtain ⟨newEntry, -, hg', hcases⟩ := selectRound_cases hround
    cases hcases with
    | inl hnew =>
      obtain ⟨-, -, -, -, rfl⟩ := hnew
      exact hnext random' g' hselecting'
    | inr hkept =>
      obtain ⟨rfl, rfl⟩ := hkept
      have hdrawn : g'.drawn = g.drawn + 1 := by rw [hg']; rfl
      apply ih hselecting' hnot
      · rw [hdrawn, Nat.add_right_comm]
        exact hdraw
      · rw [hdrawn, Nat.add_right_comm g.drawn 1 d]
        exact hstack

/-- Some member is neither the target nor in one of the three slots. -/
theorem exists_other {idx popSize : ℕ} {random : List ℤ} (hpop : 5 ≤ popSize)
    (hlength : random.length = 3) :
    ∃ entry : ℕ, entry < popSize ∧ entry ≠ idx ∧ (entry : ℤ) ∉ random := by
  have hcard : ((idx :: random.map Int.toNat).toFinset).card < (Finset.range popSize).card := by
    have hle := List.toFinset_card_le (idx :: random.map Int.toNat)
    rw [List.length_cons, List.length_map, hlength] at hle
    rw [Finset.card_range]
    omega
  obtain ⟨entry, hentry, hnot⟩ := Finset.exists_mem_notMem_of_card_lt_card hcard
  rw [List.mem_toFinset, List.mem_cons, not_or] at hnot
  refine ⟨entry, Finset.mem_range.mp hentry, hnot.1, ?_⟩
  intro hmem
  exact hnot.2 (List.mem_map.mpr ⟨entry, hmem, Int.toNat_natCast entry⟩)

theorem Selecting.length {idx popSize : ℕ} {random : List ℤ} {i : ℕ}
    (h : Selecting idx popSize random i) : random.length = 3 := by
  obtain ⟨entries, rfl, rfl, -, -⟩ := h.chosen
  have hbound := h.bound
  rw [List.length_append, List.length_replicate]
  omega

/-- In a population that is large enough the selection ends. -/
theorem selectRandom_ends {idx popSize : ℕ} (hdraws : DrawsPositions A rand)
    (hkeeps : KeepsDrawing A rand stack popSize) (hpop : 5 ≤ popSize) (g : Generation) :
    ∃ rounds s, selectRandom A rand stack rounds idx popSize g = .ok s := by
  have hends : ∀ left i random g, left + i = 3 → Selecting idx popSize random i →
      Ends A rand stack idx popSize (random, i, g) := by
    intro left
    induction left with
    | zero =>
      intro i random g hi _
      refine ⟨0, (random, i, g), ?_⟩
      rw [Outcome.whileLoop, if_neg (by simp; omega)]
    | succ left ih =>
      intro i random g hi hselecting
      obtain ⟨entry, hlt, hidx, hnot⟩ := exists_other hpop hselecting.length
      obtain ⟨m, hm, hdraw, hstack⟩ := hkeeps g.drawn entry hlt
      obtain ⟨d, rfl⟩ := Nat.exists_eq_add_of_le hm
      exact Ends.fill hdraws (by omega) (by omega) hidx
        (fun random g h => ih (i + 1) random g (by omega) h) d hselecting hnot hdraw hstack
  exact hends 3 0 _ g rfl (Selecting.start idx popSize)

/-- The five members come up in turn. -/
theorem selectRandom_ends_five : ∃ rounds s,
    selectRandom ratArith (fun n => ((n % 5 : ℕ) : ℚ) / 5) (fun _ => -1) rounds 0 5
      ⟨[], .empty, [0, 1, 2, 3, 4], .empty, [], 5, 0, 1, 0, 30, 5, 0⟩ = .ok s := by
  have hdraw : ∀ n size : ℕ, ratArith.toInt (ratArith.mul (((n % 5 : ℕ) : ℚ) / 5)
      (ratArith.ofInt size)) = some ((n % 5 * size / 5 : ℕ) : ℤ) := by
    intro n size
    have hquot : ((n % 5 : ℕ) : ℚ) / 5 * ((size : ℤ) : ℚ) =
        ((n % 5 * size : ℕ) : ℤ) / ((5 : ℕ) : ℚ) := by
      generalize n % 5 = r
      push_cast
      ring
    have hpos : ¬ ((n % 5 : ℕ) : ℚ) / 5 * ((size : ℤ) : ℚ) < 0 := not_lt.mpr (by positivity)
    simp only [ratArith, truncate, if_neg hpos]
    rw [hquot]
    exact congrArg some ((Rat.floor_intCast_div_natCast _ 5).trans (Int.natCast_div _ 5).symm)
  refine selectRandom_ends (fun n size hsize => ⟨_, ?_, hdraw n size⟩)
    (fun n entry hentry => ?_) le_rfl _
  · have hlt := Nat.mod_lt n (by decide : 5 > 0)
    exact Nat.div_lt_of_lt_mul (Nat.mul_lt_mul_of_pos_right hlt hsize)
  · refine ⟨5 * n + entry, by omega, ?_, by omega⟩
    rw [hdraw]
    congr 2
    omega

/-- The parameters of all search spaces in a row, each with the number of its space. -/
def flattened : List SearchSpace → ℕ → List (ℕ × TuningParameter)
  | [], _ => []
  | space :: rest, i => space.variantSpace.map (fun tp => (i, tp)) ++ flattened rest (i + 1)

variable (A rand) in
/-- Whether the crossover takes the parameter at a position of the flattened space from the
mutant; its first draw has the number `drawn`. -/
def crosses (drawn : ℕ) (randIndex : ℤ) (position : ℕ) : Bool :=
  A.lt (rand (drawn + position)) (half A) || (position : ℤ) == randIndex

theorem memberValue_congr {g g' : Generation} (h : Counted g g') (member : ℤ) (i addr : ℕ) :
    g'.memberValue member i addr = g.memberValue member i addr := by
  rw [memberValue, memberValue, h.population]
  simp only [specifications, h.scenarios]

theorem childValue_congr {g g' : Generation} (h : Counted g g') (idx : ℕ) (random : List ℤ) (i : ℕ)
    (b : Bool) (tp : TuningParameter) :
    childValue A idx random i b tp g' = childValue A idx random i b tp g := by
  simp only [childValue, memberValue_congr h]

/-- The crossover draws once for each parameter, in their order, and enters one value for
each. -/
theorem crossover_values {idx : ℕ} {random : List ℤ} {i drawn : ℕ} {randIndex : ℤ}
    {g₀ : Generation} {tps : List TuningParameter} :
    ∀ {curIndex curIndex' : ℕ} {newChildMap newChildMap' : Variant} {g g' : Generation},
      Counted g₀ g → g.drawn = drawn + curIndex →
      crossover A rand idx random i randIndex tps curIndex newChildMap g =
        .ok (newChildMap', curIndex', g') →
      curIndex' = curIndex + tps.length ∧ g'.drawn = drawn + curIndex' ∧
      (∀ addr ∉ tps.map TuningParameter.addr, newChildMap'.get? addr = newChildMap.get? addr) ∧
      ∀ j tp, tps[j]? = some tp → ∃ value,
        childValue A idx random i (crosses A rand drawn randIndex (curIndex + j)) tp g₀ =
          .ok value ∧
        ((tps.map TuningParameter.addr).Nodup → newChildMap'.get? tp.addr = some value) := by
  induction tps with
  | nil =>
    intro curIndex curIndex' newChildMap newChildMap' g g' _ hdrawn h
    obtain ⟨rfl, rfl, rfl⟩ := Prod.mk.injEq .. ▸ Outcome.ok.inj h
    exact ⟨rfl, hdrawn, fun _ _ => rfl, by simp⟩
  | cons tp tps ih =>
    intro curIndex curIndex' newChildMap newChildMap' g g' hcount hdrawn h
    rw [crossover] at h
    obtain ⟨value, hvalue, hrest⟩ := Outcome.bind_eq_ok.mp h
    have hcount' : Counted g₀ { g with drawn := g.drawn + 1 } :=
      hcount.trans ⟨rfl, rfl, rfl, rfl, rfl, rfl⟩
    have hdrawn' : g.drawn + 1 = drawn + (curIndex + 1) := by omega
    obtain ⟨hindex, hend, hother, hvalues⟩ := ih hcount' hdrawn' hrest
    have hfirst : childValue A idx random i (crosses A rand drawn randIndex curIndex) tp g₀ =
        .ok value := by
      rw [← childValue_congr hcount', crosses, ← hdrawn]
      exact hvalue
    refine ⟨by rw [hindex, List.length_cons]; omega, hend, ?_, ?_⟩
    · intro addr haddr
      rw [List.map_cons, List.mem_cons, not_or] at haddr
      rw [hother addr haddr.2, OrdMap.get?_set, if_neg haddr.1]
    · intro j tp' hj
      cases j with
      | zero =>
        obtain rfl : tp = tp' := by simpa using hj
        refine ⟨value, hfirst, ?_⟩
        intro hnodup
        rw [hother tp.addr (List.nodup_cons.mp hnodup).1, OrdMap.get?_set, if_pos rfl]
      | succ j =>
        obtain ⟨value', hvalue', hget⟩ := hvalues j tp' (by simpa using hj)
        refine ⟨value', ?_, fun hnodup => hget (List.nodup_cons.mp hnodup).2⟩
        rw [← hvalue', Nat.add_assoc, Nat.add_comm 1 j]

/-- No parameter occurs twice in a search space. -/
def DistinctParameters (spaces : List SearchSpace) : Prop :=
  ∀ space ∈ spaces, (space.variantSpace.map TuningParameter.addr).Nodup

/-- A complete child has a specification for each search space, with the values of the
crossover. -/
theorem attemptChild_values {idx : ℕ} {random : List ℤ} {drawn : ℕ} {randIndex : ℤ}
    {g₀ : Generation} {spaces : List SearchSpace} :
    ∀ {i curIndex : ℕ} {ts ts' : List TuningSpecification} {config config' : String}
      {g g' : Generation}, Counted g₀ g → g.drawn = drawn + curIndex →
      attemptChild A rand rts idx random randIndex spaces i curIndex ts config g =
        .ok (.complete g' ts' config') →
      ∃ specs, ts' = ts ++ specs ∧ specs.length = spaces.length ∧
        ∀ position i' tp, (flattened spaces i)[position]? = some (i', tp) → ∃ value,
          childValue A idx random i' (crosses A rand drawn randIndex (curIndex + position)) tp g₀ =
            .ok value ∧
          (DistinctParameters spaces → ∃ n spec, i' = i + n ∧ specs[n]? = some spec ∧
            spec.variant.get? tp.addr = some value) := by
  induction spaces with
  | nil =>
    intro i curIndex ts ts' config config' g g' _ _ h
    obtain ⟨-, rfl, -⟩ := Attempt.complete.injEq .. ▸ Outcome.ok.inj h
    exact ⟨[], (List.append_nil ts).symm, rfl, by simp [flattened]⟩
  | cons space rest ih =>
    intro i curIndex ts ts' config config' g g' hcount hdrawn h
    rw [attemptChild] at h
    obtain ⟨⟨newChildMap, curIndex', g₁⟩, hcross, h⟩ := Outcome.bind_eq_ok.mp h
    obtain ⟨hindex, hend, -, hvalues⟩ := crossover_values hcount hdrawn hcross
    have hcount₁ : Counted g₀ { g₁ with noAttempts := g₁.noAttempts + 1 } :=
      (hcount.trans (crossover_counted hcross)).trans ⟨rfl, rfl, rfl, rfl, rfl, rfl⟩
    simp only at h
    by_cases hmax : g₁.noAttempts + 1 = g₁.maxAttempts
    · rw [if_pos hmax] at h
      exact absurd (Outcome.ok.inj h) (by simp)
    · rw [if_neg hmax] at h
      obtain ⟨b, hcheck, h⟩ := Outcome.bind_eq_ok.mp h
      cases b with
      | false =>
        simp only [Bool.false_eq_true, if_false] at h
        exact absurd (Outcome.ok.inj h) (by simp)
      | true =>
        simp only [if_true] at h
        obtain ⟨specs, rfl, hlength, hrest⟩ := ih hcount₁ hend h
        refine ⟨childSpecification rts space newChildMap :: specs, by simp, by simp [hlength], ?_⟩
        intro position i' tp hposition
        rw [flattened] at hposition
        by_cases hlt : position < space.variantSpace.length
        · rw [List.getElem?_append_left (by simpa using hlt), List.getElem?_map] at hposition
          obtain ⟨tp', htp, heq⟩ := Option.map_eq_some_iff.mp hposition
          obtain ⟨rfl, rfl⟩ := Prod.mk.injEq .. ▸ heq
          obtain ⟨value, hvalue, hget⟩ := hvalues position tp' htp
          refine ⟨value, hvalue, ?_⟩
          intro hdistinct
          refine ⟨0, _, rfl, rfl, ?_⟩
          have hvariant : (childSpecification rts space newChildMap).variant = newChildMap := by
            rw [childSpecification]
            split_ifs <;> rfl
          rw [hvariant]
          exact hget (hdistinct space List.mem_cons_self)
        · rw [List.getElem?_append_right (by simpa using hlt), List.length_map] at hposition
          obtain ⟨value, hvalue, hget⟩ := hrest _ i' tp hposition
          have hwhere : curIndex' + (position - space.variantSpace.length) = curIndex + position := by
            omega
          refine ⟨value, hwhere ▸ hvalue, ?_⟩
          intro hdistinct
          obtain ⟨n, spec, hn, hspec, hvariant⟩ :=
            hget fun s hs => hdistinct s (List.mem_cons_of_mem space hs)
          exact ⟨n + 1, spec, by omega, by simpa using hspec, hvariant⟩

variable (A rand) in
/-- The value of some parameter of the child is the mutant's. -/
def TakesFromMutant (idx : ℕ) (random : List ℤ) (randIndex : ℤ) (g : Generation) : Prop :=
  ∃ position i tp value, (flattened g.searchSpaces 0)[position]? = some (i, tp) ∧
    crosses A rand g.drawn randIndex position ∧
    childValue A idx random i true tp g = .ok value

/-- The parameter that is forced on the child is counted from one, the parameters from zero. -/
theorem takesFromMutant_iff {idx : ℕ} {random : List ℤ} {randIndex : ℤ} {g g' : Generation}
    {ts : List TuningSpecification} {uniqueConfig : String}
    (h : attemptChild A rand rts idx random randIndex g.searchSpaces 0 0 [] "" g =
      .ok (.complete g' ts uniqueConfig)) :
    TakesFromMutant A rand idx random randIndex g ↔
      (∃ position < (flattened g.searchSpaces 0).length,
        A.lt (rand (g.drawn + position)) (half A)) ∨
      0 ≤ randIndex ∧ randIndex < (flattened g.searchSpaces 0).length := by
  obtain ⟨specs, -, -, hvalues⟩ :=
    attemptChild_values (Counted.refl g) (Nat.add_zero g.drawn).symm h
  have htakes : ∀ position < (flattened g.searchSpaces 0).length,
      crosses A rand g.drawn randIndex position = true →
      TakesFromMutant A rand idx random randIndex g := by
    intro position hlt hcross
    have hget := List.getElem?_eq_getElem hlt
    obtain ⟨value, hvalue, -⟩ := hvalues position _ _ hget
    rw [Nat.zero_add, hcross] at hvalue
    exact ⟨position, _, _, value, hget, hcross, hvalue⟩
  constructor
  · rintro ⟨position, i, tp, value, hget, hcrosses, -⟩
    have hlt := (List.getElem?_eq_some_iff.mp hget).1
    rw [crosses, Bool.or_eq_true, beq_iff_eq] at hcrosses
    cases hcrosses with
    | inl hdraw => exact .inl ⟨position, hlt, hdraw⟩
    | inr hforced => exact .inr (by omega)
  · intro h
    cases h with
    | inl hdraw =>
      obtain ⟨position, hlt, hdraw⟩ := hdraw
      exact htakes position hlt (by rw [crosses, hdraw, Bool.true_or])
    | inr hforced =>
      apply htakes randIndex.toNat (by omega)
      rw [crosses, Bool.or_eq_true, beq_iff_eq]
      exact .inr (Int.toNat_of_nonneg hforced.1)

/-- What differential evolution asks of a child of the target `idx`. -/
structure Evolves (A : DoubleArith V) (rand : ℕ → V) (stack : ℕ → ℤ) (rts : Bool)
    (rounds idx popSize : ℕ) (g : Generation) : Prop where
  parents : ∀ random i g', selectRandom A rand stack rounds idx popSize g = .ok (random, i, g') →
    Selected idx popSize random
  reads : ∀ slot ∈ selectionReads A rand stack idx popSize rounds ([-1, -1, -1], 0, g),
    Initialised slot
  mutant : ∀ random i g₁, selectRandom A rand stack rounds idx popSize g = .ok (random, i, g₁) →
    ∀ randIndex g' ts uniqueConfig,
      attemptChild A rand rts idx random randIndex g.searchSpaces 0 0 [] "" (g₁.uniform rand).2 =
        .ok (.complete g' ts uniqueConfig) →
      TakesFromMutant A rand idx random randIndex (g₁.uniform rand).2

/-- Of every child the parents are as they should be, but choosing them reads the slot before
the first one; and the parameter forced on the child may be one behind the last. -/
theorem evolves_parts (hdraws : DrawsPositions A rand) {popSize : ℕ} (hpop : 0 < popSize)
    (rounds idx : ℕ) (g : Generation) :
    ¬ Evolves A rand stack rts (rounds + 1) idx popSize g ∧
    (∀ random i g', selectRandom A rand stack (rounds + 1) idx popSize g = .ok (random, i, g') →
      Selected idx popSize random) ∧
    (∀ slot, slot ∈ selectionReads A rand stack idx popSize (rounds + 1) ([-1, -1, -1], 0, g) →
      Initialised slot ∨ slot = -1) ∧
    ∀ random i g₁, selectRandom A rand stack (rounds + 1) idx popSize g = .ok (random, i, g₁) →
      ∀ randIndex g' ts uniqueConfig,
        attemptChild A rand rts idx random randIndex g.searchSpaces 0 0 [] ""
          (g₁.uniform rand).2 = .ok (.complete g' ts uniqueConfig) →
        (TakesFromMutant A rand idx random randIndex (g₁.uniform rand).2 ↔
          (∃ position < (flattened g.searchSpaces 0).length,
            A.lt (rand (g₁.drawn + 1 + position)) (half A)) ∨
          0 ≤ randIndex ∧ randIndex < (flattened g.searchSpaces 0).length) := by
  refine ⟨?_, fun random i g' h => selectRandom_selected hdraws hpop h,
    fun slot h => selectionReads_subset h, ?_⟩
  · intro h
    exact absurd (h.reads (-1) (mem_selectionReads g hdraws hpop)) (by decide)
  · intro random i g₁ hselect randIndex g' ts uniqueConfig hattempt
    have hspaces : (g₁.uniform rand).2.searchSpaces = g.searchSpaces :=
      (selectRandom_counted hselect).searchSpaces
    rw [← hspaces] at hattempt ⊢
    exact takesFromMutant_iff hattempt

/-- A population of five without parameters. -/
def fiveMembers : Generation := ⟨[], .empty, [0, 1, 2, 3, 4], .empty, [], 5, 0, 1, 0, 30, 5, 0⟩

theorem drawsPositions_zero : DrawsPositions ratArith fun _ => 0 := by
  intro n size hsize
  have hzero : Rat.floor 0 = 0 := by decide
  exact ⟨0, hsize, by simp [ratArith, truncate, hzero]⟩

theorem evolves_parts_five :
    ¬ Evolves ratArith (fun _ => 0) (fun _ => 0) false (0 + 1) 0 5 fiveMembers ∧
    (∀ random i g', selectRandom ratArith (fun _ => 0) (fun _ => 0) (0 + 1) 0 5 fiveMembers =
        .ok (random, i, g') → Selected 0 5 random) ∧
    (∀ slot, slot ∈ selectionReads ratArith (fun _ => 0) (fun _ => 0) 0 5 (0 + 1)
        ([-1, -1, -1], 0, fiveMembers) → Initialised slot ∨ slot = -1) ∧
    ∀ random i g₁, selectRandom ratArith (fun _ => 0) (fun _ => 0) (0 + 1) 0 5 fiveMembers =
        .ok (random, i, g₁) →
      ∀ randIndex g' ts uniqueConfig,
        attemptChild ratArith (fun _ => 0) false 0 random randIndex fiveMembers.searchSpaces 0 0
          [] "" (g₁.uniform fun _ => 0).2 = .ok (.complete g' ts uniqueConfig) →
        (TakesFromMutant ratArith (fun _ => 0) 0 random randIndex (g₁.uniform fun _ => 0).2 ↔
          (∃ position < (flattened fiveMembers.searchSpaces 0).length,
            ratArith.lt 0 (half ratArith)) ∨
          0 ≤ randIndex ∧ randIndex < (flattened fiveMembers.searchSpaces 0).length) :=
  evolves_parts drawsPositions_zero (by decide) 0 0 fiveMembers

/-- The first entry that is drawn is compared with what stands before the first slot. -/
theorem not_evolves_first :
    ¬ Evolves ratArith (fun _ => 0) (fun _ => 0) false 1 0 5 fiveMembers := by
  intro h
  have hread := @mem_selectionReads ℚ ratArith (fun _ => 0) (fun _ => 0) 0 0 5 fiveMembers
    drawsPositions_zero (by decide)
  exact absurd (h.reads (-1) hread) (by decide)

end Generation
end ReadexPtf.Autotune
