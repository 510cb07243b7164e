import Mathlib

/-! How a call of a modelled C++ function ends, and folds of such calls over a
list. Undefined behaviour ends a run: no value of a later statement is claimed. -/
namespace ReadexPtf

/-- A call returns, throws, calls `abort`, or leaves the defined behaviour of the language. -/
inductive Outcome (α : Type*) where
  | ok (value : α)
  | throws (message : String)
  | aborts
  | undefined
  deriving DecidableEq, Repr

namespace Outcome
universe u
variable {α β σ : Type u}

def bind (x : Outcome α) (f : α → Outcome β) : Outcome β :=
  match x with
  | .ok a => f a
  | .throws m => .throws m
  | .aborts => .aborts
  | .undefined => .undefined

instance : Monad Outcome where
  pure := .ok
  bind := bind

@[simp] theorem pure_eq (a : α) : (pure a : Outcome α) = .ok a := rfl
@[simp] theorem ok_bind (a : α) (f : α → Outcome β) : (Outcome.ok a >>= f) = f a := rfl
@[simp] theorem throws_bind (m : String) (f : α → Outcome β) :
    (Outcome.throws m >>= f) = .throws m := rfl
@[simp] theorem aborts_bind (f : α → Outcome β) : ((.aborts : Outcome α) >>= f) = .aborts := rfl
@[simp] theorem undefined_bind (f : α → Outcome β) :
    ((.undefined : Outcome α) >>= f) = .undefined := rfl

instance : LawfulMonad Outcome :=
  LawfulMonad.mk' Outcome (fun x => by cases x <;> rfl) (fun _ _ => rfl)
    (fun x _ _ => by cases x <;> rfl)

theorem bind_eq_ok {x : Outcome α} {f : α → Outcome β} {b : β} :
    (x >>= f) = .ok b ↔ ∃ a, x = .ok a ∧ f a = .ok b := by
  cases x <;> simp

theorem bind_returns_iff {x : Outcome α} {f : α → Outcome β} :
    (∃ b, x >>= f = .ok b) ↔ ∃ a, x = .ok a ∧ ∃ b, f a = .ok b := by
  simp only [bind_eq_ok]
  exact ⟨fun ⟨b, a, ha, hb⟩ => ⟨a, ha, b, hb⟩, fun ⟨a, ha, b, hb⟩ => ⟨b, a, ha, hb⟩⟩

/-- `xs[ i ]` of a vector: reading outside of it is undefined. -/
def elementAt (xs : List α) (i : Int) : Outcome α :=
  if 0 ≤ i then
    match xs[i.toNat]? with
    | some a => .ok a
    | none => .undefined
  else .undefined

theorem elementAt_natCast {xs : List α} {n : Nat} (h : n < xs.length) :
    elementAt xs (n : Int) = .ok xs[n] := by
  simp [elementAt, h]

theorem elementAt_eq_ok {xs : List α} {i : Int} {a : α} :
    elementAt xs i = .ok a ↔ 0 ≤ i ∧ xs[i.toNat]? = some a := by
  rw [elementAt]
  split_ifs with hi
  · cases xs[i.toNat]? <;> simp [hi]
  · simp [hi]

/-- Dereferencing what a lookup found. -/
def found : Option α → Outcome α
  | some a => .ok a
  | none => .undefined

theorem found_eq_ok {o : Option α} {a : α} : found o = .ok a ↔ o = some a := by
  cases o <;> simp [found]

/-- A call that returns with a value of which the test `p` is true. -/
def returnsWith (p : α → Bool) : Outcome α → Bool
  | .ok a => p a
  | _ => false

theorem returnsWith_iff {p : α → Bool} {x : Outcome α} :
    x.returnsWith p ↔ ∃ a, x = .ok a ∧ p a := by
  cases x <;> simp [returnsWith]

/-- The call ends with an exception. -/
def Throws (x : Outcome α) : Prop := ∃ m, x = .throws m

theorem Throws.bind {x : Outcome α} (h : Throws x) (f : α → Outcome β) : Throws (x >>= f) := by
  obtain ⟨m, hm⟩ := h
  exact ⟨m, by rw [hm, throws_bind]⟩

theorem not_throws_ok (a : α) : ¬ Throws (Outcome.ok a) := fun ⟨_, h⟩ => absurd h (by simp)

theorem not_throws_undefined : ¬ Throws (.undefined : Outcome α) := fun ⟨_, h⟩ =>
  absurd h (by simp)

theorem not_throws_found (o : Option α) : ¬ Throws (found o) := by
  cases o with
  | none => exact not_throws_undefined
  | some a => exact not_throws_ok a

theorem not_throws_bind {x : Outcome α} {f : α → Outcome β} (hx : ¬ Throws x)
    (hf : ∀ a, ¬ Throws (f a)) : ¬ Throws (x >>= f) := by
  cases x with
  | ok a => exact hf a
  | throws m => exact absurd ⟨m, rfl⟩ hx
  | aborts => exact fun ⟨_, h⟩ => absurd h (by simp)
  | undefined => exact not_throws_undefined

/-- What every step of a fold keeps, a fold that returns keeps. -/
theorem foldlM_invariant {ι : Type*} {f : σ → ι → Outcome σ} (inv : σ → Prop)
    (hstep : ∀ s a s', inv s → f s a = .ok s' → inv s') :
    ∀ (xs : List ι) (s s' : σ), inv s → xs.foldlM f s = .ok s' → inv s' := by
  intro xs
  induction xs with
  | nil =>
    intro s s' hs h
    simp only [List.foldlM_nil, pure_eq, ok.injEq] at h
    exact h ▸ hs
  | cons a xs ih =>
    intro s s' hs h
    rw [List.foldlM_cons, bind_eq_ok] at h
    obtain ⟨t, hstep', hrest⟩ := h
    exact ih t s' (hstep s a t hs hstep') hrest

/-- A loop over the first numbers: what holds before round `i` holds after it of `i + 1`. -/
theorem foldlM_range {f : σ → Nat → Outcome σ} (inv : Nat → σ → Prop) {n : Nat}
    (hstep : ∀ i s s', i < n → inv i s → f s i = .ok s' → inv (i + 1) s') {s s' : σ}
    (hs : inv 0 s) (h : (List.range n).foldlM f s = .ok s') : inv n s' := by
  induction n generalizing s' with
  | zero =>
    rw [List.range_zero, List.foldlM_nil, pure_eq, ok.injEq] at h
    exact h ▸ hs
  | succ n ih =>
    rw [List.range_succ, List.foldlM_append, bind_eq_ok] at h
    obtain ⟨t, hrun, hlast⟩ := h
    rw [List.foldlM_cons, bind_eq_ok] at hlast
    obtain ⟨t', hround, hret⟩ := hlast
    rw [List.foldlM_nil, pure_eq, ok.injEq] at hret
    have ht : inv n t := ih (fun i s s' hi => hstep i s s' (by omega)) hrun
    exact hret ▸ hstep n t t' (by omega) ht hround

/-- `while( cond ) body`, followed for a number of rounds: what a loop that goes on
after them ends with is not defined. -/
def whileLoop (cond : σ → Bool) (body : σ → Outcome σ) : Nat → σ → Outcome σ
  | 0, s => if cond s then .undefined else .ok s
  | rounds + 1, s => if cond s then body s >>= whileLoop cond body rounds else .ok s

theorem whileLoop_invariant {cond : σ → Bool} {body : σ → Outcome σ} (inv : σ → Prop)
    (hbody : ∀ s s', cond s → inv s → body s = .ok s' → inv s') :
    ∀ (rounds : Nat) (s s' : σ), inv s → whileLoop cond body rounds s = .ok s' →
      inv s' ∧ ¬ cond s' := by
  intro rounds
  induction rounds with
  | zero =>
    intro s s' hs h
    rw [whileLoop] at h
    by_cases hc : cond s
    · rw [if_pos hc] at h
      exact absurd h (by simp)
    · rw [if_neg hc, ok.injEq] at h
      exact h ▸ ⟨hs, hc⟩
  | succ rounds ih =>
    intro s s' hs h
    rw [whileLoop] at h
    by_cases hc : cond s
    · rw [if_pos hc, bind_eq_ok] at h
      obtain ⟨t, hround, hrest⟩ := h
      exact ih t s' (hbody s t hc hs hround) hrest
    · rw [if_neg hc, ok.injEq] at h
      exact h ▸ ⟨hs, hc⟩

/-- A loop whose rounds return, keep the invariant and make a measure less, ends. -/
theorem whileLoop_total {cond : σ → Bool} {body : σ → Outcome σ} (inv : σ → Prop)
    (measure : σ → Nat)
    (hbody : ∀ s, cond s → inv s → ∃ s', body s = .ok s' ∧ inv s' ∧ measure s' < measure s) :
    ∀ (rounds : Nat) (s : σ), inv s → measure s ≤ rounds →
      ∃ s', whileLoop cond body rounds s = .ok s' ∧ inv s' ∧ ¬ cond s' := by
  intro rounds
  induction rounds with
  | zero =>
    intro s hs hle
    by_cases hc : cond s
    · obtain ⟨s', -, -, hless⟩ := hbody s hc hs
      omega
    · exact ⟨s, by rw [whileLoop, if_neg hc], hs, hc⟩
  | succ rounds ih =>
    intro s hs hle
    by_cases hc : cond s
    · obtain ⟨s', hrun, hs', hless⟩ := hbody s hc hs
      obtain ⟨t, ht, hinv, hend⟩ := ih s' hs' (by omega)
      exact ⟨t, by rw [whileLoop, if_pos hc, hrun, ok_bind, ht], hinv, hend⟩
    · exact ⟨s, by rw [whileLoop, if_neg hc], hs, hc⟩

/-- A fold whose steps return what `g` computes. -/
theorem foldlM_eq_foldl {ι : Type*} {f : σ → ι → Outcome σ} {g : σ → ι → σ} {xs : List ι}
    (hstep : ∀ s, ∀ a ∈ xs, f s a = .ok (g s a)) : ∀ s, xs.foldlM f s = .ok (xs.foldl g s) := by
  induction xs with
  | nil => exact fun _ => rfl
  | cons a xs ih =>
    intro s
    obtain ⟨ha, hxs⟩ : (∀ s, f s a = .ok (g s a)) ∧ ∀ s, ∀ b ∈ xs, f s b = .ok (g s b) :=
      ⟨fun s => hstep s a List.mem_cons_self, fun s b hb => hstep s b (List.mem_cons_of_mem a hb)⟩
    rw [List.foldlM_cons, ha, ok_bind, ih hxs, List.foldl_cons]

/-- A fold whose steps all return, returns. -/
theorem foldlM_returns {ι : Type*} {f : σ → ι → Outcome σ} {xs : List ι}
    (hstep : ∀ s, ∀ a ∈ xs, ∃ s', f s a = .ok s') : ∀ s, ∃ s', xs.foldlM f s = .ok s' := by
  induction xs with
  | nil => exact fun s => ⟨s, rfl⟩
  | cons a xs ih =>
    intro s
    obtain ⟨s', hs'⟩ := hstep s a List.mem_cons_self
    obtain ⟨s'', hs''⟩ := ih (fun t b hb => hstep t b (List.mem_cons_of_mem a hb)) s'
    exact ⟨s'', by rw [List.foldlM_cons, hs', ok_bind, hs'']⟩

/-- A fold returns if and only if all its steps do, where that does not depend on the state. -/
theorem foldlM_returns_iff {ι : Type*} {f : σ → ι → Outcome σ} {good : ι → Prop} {xs : List ι}
    (hgood : ∀ s, ∀ a ∈ xs, (∃ s', f s a = .ok s') ↔ good a) :
    ∀ s, (∃ s', xs.foldlM f s = .ok s') ↔ ∀ a ∈ xs, good a := by
  induction xs with
  | nil => exact fun s => iff_of_true ⟨s, rfl⟩ (List.forall_mem_nil _)
  | cons a xs ih =>
    intro s
    have hrest := ih fun t b hb => hgood t b (List.mem_cons_of_mem a hb)
    rw [List.foldlM_cons, List.forall_mem_cons, ← hgood s a List.mem_cons_self]
    constructor
    · rintro ⟨s'', h⟩
      obtain ⟨s', hs', hxs⟩ := bind_eq_ok.mp h
      exact ⟨⟨s', hs'⟩, (hrest s').mp ⟨s'', hxs⟩⟩
    · rintro ⟨⟨s', hs'⟩, hxs⟩
      rw [hs', ok_bind]
      exact (hrest s').mpr hxs

/-- A fold whose steps return as long as the invariant holds. -/
theorem foldlM_total {ι : Type*} {f : σ → ι → Outcome σ} (inv : σ → Prop) {xs : List ι}
    (hstep : ∀ s, ∀ a ∈ xs, inv s → ∃ s', f s a = .ok s' ∧ inv s') :
    ∀ s, inv s → ∃ s', xs.foldlM f s = .ok s' ∧ inv s' := by
  induction xs with
  | nil => exact fun s hs => ⟨s, rfl, hs⟩
  | cons a xs ih =>
    intro s hs
    obtain ⟨s', hs', hinv'⟩ := hstep s a List.mem_cons_self hs
    obtain ⟨s'', hs'', hinv''⟩ := ih (fun t b hb => hstep t b (List.mem_cons_of_mem a hb)) s' hinv'
    exact ⟨s'', by rw [List.foldlM_cons, hs', ok_bind, hs''], hinv''⟩

/-- Every step of a run meets a condition on the state before it. -/
def StepsMeet {ι : Type*} (cond : σ → ι → Prop) (f : σ → ι → Outcome σ) : List ι → σ → Prop
  | [], _ => True
  | a :: xs, s => cond s a ∧ ∀ s', f s a = .ok s' → StepsMeet cond f xs s'

theorem StepsMeet.imp {ι : Type*} {cond cond' : σ → ι → Prop} {f : σ → ι → Outcome σ}
    (himp : ∀ s a, cond s a → cond' s a) :
    ∀ {xs : List ι} {s : σ}, StepsMeet cond f xs s → StepsMeet cond' f xs s := by
  intro xs
  induction xs with
  | nil => exact fun _ => trivial
  | cons a xs ih => exact fun h => ⟨himp _ a h.1, fun s' hs' => ih (h.2 s' hs')⟩

/-- Two conditions that agree wherever an invariant holds, which the steps that meet them keep. -/
theorem StepsMeet.congr {ι : Type*} {cond cond' : σ → ι → Prop} {f : σ → ι → Outcome σ}
    (inv : σ → Prop) (hstep : ∀ s a s', inv s → cond s a → f s a = .ok s' → inv s')
    (hiff : ∀ s a, inv s → (cond s a ↔ cond' s a)) :
    ∀ {xs : List ι} {s : σ}, inv s → (StepsMeet cond f xs s ↔ StepsMeet cond' f xs s) := by
  intro xs
  induction xs with
  | nil => exact fun _ => Iff.rfl
  | cons a xs ih =>
    intro s hs
    rw [StepsMeet, StepsMeet, ← hiff s a hs]
    exact and_congr_right fun hcond =>
      forall₂_congr fun s' hs' => ih (hstep s a s' hs hcond hs')

/-- What the steps that meet the condition keep holds where a run of them ends. -/
theorem StepsMeet.invariant {ι : Type*} {cond : σ → ι → Prop} {f : σ → ι → Outcome σ}
    (inv : σ → Prop) (hstep : ∀ s a s', inv s → cond s a → f s a = .ok s' → inv s') :
    ∀ {xs : List ι} {s s' : σ}, StepsMeet cond f xs s → inv s → xs.foldlM f s = .ok s' →
      inv s' := by
  intro xs
  induction xs with
  | nil =>
    intro s s' _ hs h
    exact ok.inj h ▸ hs
  | cons a xs ih =>
    intro s s' hmeet hs h
    rw [List.foldlM_cons] at h
    obtain ⟨t, ht, hrest⟩ := bind_eq_ok.mp h
    exact ih (hmeet.2 t ht) (hstep s a t hs hmeet.1 ht) hrest

theorem StepsMeet.append {ι : Type*} {cond : σ → ι → Prop} {f : σ → ι → Outcome σ} :
    ∀ {xs ys : List ι} {s : σ}, StepsMeet cond f (xs ++ ys) s →
      StepsMeet cond f xs s ∧ ∀ s', xs.foldlM f s = .ok s' → StepsMeet cond f ys s' := by
  intro xs
  induction xs with
  | nil =>
    intro ys s h
    refine ⟨trivial, fun s' hs' => ?_⟩
    simp only [List.foldlM_nil, pure_eq, ok.injEq] at hs'
    exact hs' ▸ h
  | cons a xs ih =>
    intro ys s h
    refine ⟨⟨h.1, fun s' hs' => (ih (h.2 s' hs')).1⟩, fun s' hs' => ?_⟩
    rw [List.foldlM_cons] at hs'
    obtain ⟨t, ht, hrest⟩ := bind_eq_ok.mp hs'
    exact (ih (h.2 t ht)).2 s' hrest

theorem StepsMeet.cons_iff {ι : Type*} {cond : σ → ι → Prop} {f : σ → ι → Outcome σ} {a : ι}
    {xs : List ι} {s s' : σ} (hstep : f s a = .ok s') :
    StepsMeet cond f (a :: xs) s ↔ cond s a ∧ StepsMeet cond f xs s' := by
  rw [StepsMeet, hstep]
  simp

theorem StepsMeet.append_iff {ι : Type*} {cond : σ → ι → Prop} {f : σ → ι → Outcome σ}
    {xs ys : List ι} {s s' : σ} (hrun : xs.foldlM f s = .ok s') :
    StepsMeet cond f (xs ++ ys) s ↔ StepsMeet cond f xs s ∧ StepsMeet cond f ys s' := by
  induction xs generalizing s with
  | nil =>
    obtain rfl := ok.inj hrun
    exact (iff_of_eq (true_and _)).symm
  | cons a xs ih =>
    rw [List.foldlM_cons] at hrun
    obtain ⟨t, ht, hrest⟩ := bind_eq_ok.mp hrun
    rw [List.cons_append, cons_iff ht, cons_iff ht, ih hrest, and_assoc]

instance decidableForallOk {x : Outcome α} {p : α → Prop} [DecidablePred p] :
    Decidable (∀ a, x = .ok a → p a) :=
  match x with
  | .ok b => decidable_of_iff (p b) (by simp)
  | .throws m => isTrue (by simp)
  | .aborts => isTrue (by simp)
  | .undefined => isTrue (by simp)

instance decidableForallSome {o : Option α} {p : α → Prop} [DecidablePred p] :
    Decidable (∀ a, o = some a → p a) :=
  match o with
  | some b => decidable_of_iff (p b) (by simp)
  | none => isTrue (by simp)

instance StepsMeet.decidable {ι : Type*} {cond : σ → ι → Prop} {f : σ → ι → Outcome σ}
    [∀ s a, Decidable (cond s a)] : ∀ (xs : List ι) (s : σ), Decidable (StepsMeet cond f xs s)
  | [], _ => isTrue trivial
  | a :: xs, s =>
    have : DecidablePred fun s' => StepsMeet cond f xs s' := fun s' => StepsMeet.decidable xs s'
    inferInstanceAs (Decidable (cond s a ∧ ∀ s', f s a = .ok s' → StepsMeet cond f xs s'))

/-- A fold that meets a bad element stops there, if the steps before it return. -/
theorem foldlM_stops {ι : Type*} {f : σ → ι → Outcome σ} (good : ι → Prop)
    {Stops : Outcome σ → Prop} (hbind : ∀ x (g : σ → Outcome σ), Stops x → Stops (x >>= g))
    (hgood : ∀ s a, good a → ∃ s', f s a = .ok s') (hbad : ∀ s a, ¬ good a → Stops (f s a)) :
    ∀ {xs : List ι}, (∃ a ∈ xs, ¬ good a) → ∀ s, Stops (xs.foldlM f s) := by
  intro xs
  induction xs with
  | nil => exact fun h => absurd h (by simp)
  | cons a xs ih =>
    intro h s
    rw [List.foldlM_cons]
    by_cases ha : good a
    · obtain ⟨s', hs'⟩ := hgood s a ha
      obtain ⟨b, hb, hbad⟩ := h
      rw [hs', ok_bind]
      cases List.mem_cons.mp hb with
      | inl heq => exact absurd (heq ▸ ha) hbad
      | inr hrest => exact ih ⟨b, hrest, hbad⟩ s'
    · exact hbind _ _ (hbad s a ha)

/-- A fold of steps that do not throw does not throw. -/
theorem foldlM_not_throws {ι : Type*} {f : σ → ι → Outcome σ}
    (hstep : ∀ s a, ¬ Throws (f s a)) (xs : List ι) : ∀ s, ¬ Throws (xs.foldlM f s) := by
  induction xs with
  | nil => exact fun s => not_throws_ok s
  | cons a xs ih =>
    intro s
    rw [List.foldlM_cons]
    exact not_throws_bind (hstep s a) ih

/-- The call returns if `p` holds and throws otherwise. -/
def ReturnsIff (p : Prop) (x : Outcome α) : Prop := (p → ∃ a, x = .ok a) ∧ (¬ p → Throws x)

theorem ReturnsIff.bind {p : Prop} {x : Outcome α} (h : ReturnsIff p x) (f : α → β) :
    ReturnsIff p (x >>= fun a => .ok (f a)) := by
  constructor
  · intro hp
    obtain ⟨a, ha⟩ := h.1 hp
    exact ⟨f a, by rw [ha, ok_bind]⟩
  · exact fun hp => (h.2 hp).bind _

theorem ReturnsIff.foldlM {ι : Type*} {f : σ → ι → Outcome σ} {good : ι → Prop}
    (h : ∀ s a, ReturnsIff (good a) (f s a)) (xs : List ι) (s : σ) :
    ReturnsIff (∀ a ∈ xs, good a) (xs.foldlM f s) := by
  constructor
  · exact fun hgood => foldlM_returns (fun s a ha => (h s a).1 (hgood a ha)) s
  · intro hbad
    obtain ⟨a, ha, hnot⟩ : ∃ a ∈ xs, ¬ good a := by simpa using hbad
    exact foldlM_stops good (fun _ g hx => hx.bind g) (fun s a => (h s a).1) (fun s a => (h s a).2)
      ⟨a, ha, hnot⟩ s

theorem ReturnsIff.mapM {ι : Type u} {f : ι → Outcome β} {good : ι → Prop}
    (h : ∀ a, ReturnsIff (good a) (f a)) (xs : List ι) :
    ReturnsIff (∀ a ∈ xs, good a) (xs.mapM f) := by
  induction xs with
  | nil => exact ⟨fun _ => ⟨[], rfl⟩, fun hbad => absurd (by simp) hbad⟩
  | cons a xs ih =>
    rw [List.mapM_cons, List.forall_mem_cons]
    by_cases ha : good a
    · obtain ⟨b, hb⟩ := (h a).1 ha
      rw [hb, ok_bind, and_iff_right ha]
      exact ih.bind _
    · exact ⟨fun hgood => absurd hgood.1 ha, fun _ => ((h a).2 ha).bind _⟩

/-- Calls each of which returns, with a value that is known, just if its condition holds. -/
theorem mapM_returns_iff {ι β : Type} {f : ι → Outcome β} {returns : ι → Prop} {value : ι → β}
    {xs : List ι} (h : ∀ x ∈ xs, ∀ b, f x = .ok b ↔ returns x ∧ b = value x) :
    ∀ {ys : List β}, xs.mapM f = .ok ys ↔ (∀ x ∈ xs, returns x) ∧ ys = xs.map value := by
  induction xs with
  | nil =>
    intro ys
    simp [eq_comm]
  | cons x xs ih =>
    intro ys
    obtain ⟨hx, hxs⟩ := List.forall_mem_cons.mp h
    rw [List.mapM_cons, bind_eq_ok, List.forall_mem_cons, List.map_cons]
    constructor
    · rintro ⟨b, hb, hrest⟩
      obtain ⟨bs, hbs, heq⟩ := bind_eq_ok.mp hrest
      obtain ⟨hreturns, rfl⟩ := (hx b).mp hb
      obtain ⟨hall, rfl⟩ := (ih hxs).mp hbs
      exact ⟨⟨hreturns, hall⟩, (ok.inj heq).symm⟩
    · rintro ⟨⟨hreturns, hall⟩, rfl⟩
      refine ⟨value x, (hx _).mpr ⟨hreturns, rfl⟩, ?_⟩
      rw [(ih hxs).mpr ⟨hall, rfl⟩]
      rfl

/-- The results of the calls, one by one. -/
theorem mapM_eq_ok_iff {f : α → Outcome β} {xs : List α} :
    ∀ {ys : List β}, xs.mapM f = .ok ys ↔ List.Forall₂ (fun a b => f a = .ok b) xs ys := by
  induction xs with
  | nil =>
    intro ys
    rw [List.mapM_nil, pure_eq, ok.injEq, List.forall₂_nil_left_iff, eq_comm]
  | cons a xs ih =>
    intro ys
    rw [List.mapM_cons, bind_eq_ok, List.forall₂_cons_left_iff]
    constructor
    · rintro ⟨b, hb, hrest⟩
      obtain ⟨bs, hbs, heq⟩ := bind_eq_ok.mp hrest
      exact ⟨b, bs, hb, ih.mp hbs, (ok.inj heq).symm⟩
    · rintro ⟨b, bs, hb, hbs, heq⟩
      rw [heq]
      exact ⟨b, hb, bind_eq_ok.mpr ⟨bs, ih.mpr hbs, rfl⟩⟩

/-- Calls that return what `g` computes. -/
theorem mapM_eq_map {f : α → Outcome β} {g : α → β} {xs : List α}
    (h : ∀ a ∈ xs, f a = .ok (g a)) : xs.mapM f = .ok (xs.map g) := by
  induction xs with
  | nil => rfl
  | cons a xs ih =>
    obtain ⟨ha, hxs⟩ := List.forall_mem_cons.mp h
    rw [List.mapM_cons, ha, ok_bind, ih hxs, ok_bind, List.map_cons]
    rfl

theorem mem_of_mapM {f : α → Outcome β} {b : β} :
    ∀ {xs : List α} {ys : List β}, xs.mapM f = .ok ys → b ∈ ys → ∃ a ∈ xs, f a = .ok b := by
  intro xs
  induction xs with
  | nil =>
    intro ys hrun hmem
    exact absurd ((ok.inj hrun) ▸ hmem) List.not_mem_nil
  | cons a xs ih =>
    intro ys hrun hmem
    rw [List.mapM_cons] at hrun
    obtain ⟨b', hb', hrest⟩ := bind_eq_ok.mp hrun
    obtain ⟨bs, hbs, heq⟩ := bind_eq_ok.mp hrest
    cases List.mem_cons.mp ((ok.inj heq) ▸ hmem) with
    | inl hself => exact ⟨a, List.mem_cons_self, hself ▸ hb'⟩
    | inr hmem =>
      obtain ⟨a', ha', hrun'⟩ := ih hbs hmem
      exact ⟨a', List.mem_cons_of_mem a ha', hrun'⟩

/-- What each call keeps of its argument, all calls keep. -/
theorem map_of_mapM {κ : Type*} {f : α → Outcome β} {g : β → κ} {h : α → κ}
    (hkeep : ∀ a b, f a = .ok b → g b = h a) :
    ∀ {xs : List α} {ys : List β}, xs.mapM f = .ok ys → ys.map g = xs.map h := by
  intro xs
  induction xs with
  | nil =>
    intro ys hrun
    exact (ok.inj hrun) ▸ rfl
  | cons a xs ih =>
    intro ys hrun
    rw [List.mapM_cons] at hrun
    obtain ⟨b, hb, hrest⟩ := bind_eq_ok.mp hrun
    obtain ⟨bs, hbs, heq⟩ := bind_eq_ok.mp hrest
    rw [← ok.inj heq, List.map_cons, List.map_cons, hkeep a b hb, ih hbs]

end Outcome
end ReadexPtf
