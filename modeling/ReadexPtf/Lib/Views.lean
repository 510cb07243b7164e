import ReadexPtf.Lib.Outcome

/-! Folds each step of which changes at most one of several views of the state. -/
namespace ReadexPtf.Outcome
universe u
variable {σ ν : Type u} {ι κ : Type*} {f : σ → ι → Outcome σ} {view : κ → σ → ν}
  {key : ι → Option κ} {change : ι → ν → Outcome ν} {xs : List ι}

/-- Steps that only check leave the state as it is. -/
theorem foldlM_checks {f : σ → ι → Outcome σ} {xs : List ι}
    (hcheck : ∀ s, ∀ x ∈ xs, ∀ s', f s x = .ok s' → s' = s) {s s' : σ} :
    xs.foldlM f s = .ok s' ↔ s' = s ∧ ∀ x ∈ xs, f s x = .ok s := by
  induction xs with
  | nil => simp [eq_comm]
  | cons x xs ih =>
    have ih := ih fun s y hy => hcheck s y (List.mem_cons_of_mem x hy)
    rw [List.foldlM_cons, bind_eq_ok, List.forall_mem_cons]
    constructor
    · rintro ⟨t, hstep, hrest⟩
      have ht := hcheck s x List.mem_cons_self t hstep
      subst ht
      exact ⟨(ih.mp hrest).1, hstep, (ih.mp hrest).2⟩
    · rintro ⟨rfl, hstep, hrest⟩
      exact ⟨s', hstep, ih.mpr ⟨rfl, hrest⟩⟩

/-- A step changes the view of its own key, and returns where that change does. -/
structure ChangesOwn (f : σ → ι → Outcome σ) (view : κ → σ → ν) (key : ι → Option κ)
    (change : ι → ν → Outcome ν) (xs : List ι) : Prop where
  own : ∀ x ∈ xs, ∀ s s' k, f s x = .ok s' → key x = some k →
    change x (view k s) = .ok (view k s')
  other : ∀ x ∈ xs, ∀ s s' k, f s x = .ok s' → key x ≠ some k → view k s' = view k s
  returns : ∀ x ∈ xs, ∀ s, (∀ k, key x = some k → ∃ v, change x (view k s) = .ok v) →
    ∃ s', f s x = .ok s'

theorem ChangesOwn.tail {x : ι} (h : ChangesOwn f view key change (x :: xs)) :
    ChangesOwn f view key change xs where
  own := fun y hy => h.own y (List.mem_cons_of_mem x hy)
  other := fun y hy => h.other y (List.mem_cons_of_mem x hy)
  returns := fun y hy => h.returns y (List.mem_cons_of_mem x hy)

/-- A view that has no step is as it was. -/
theorem ChangesOwn.foldlM_other (h : ChangesOwn f view key change xs) {k : κ}
    (hk : k ∉ xs.filterMap key) {s s' : σ} (hrun : xs.foldlM f s = .ok s') :
    view k s' = view k s := by
  induction xs generalizing s with
  | nil => exact (ok.inj hrun) ▸ rfl
  | cons x xs ih =>
    have hself : key x ≠ some k :=
      fun heq => hk (List.mem_filterMap.mpr ⟨x, List.mem_cons_self, heq⟩)
    have hrest' : k ∉ xs.filterMap key := by
      intro hmem
      obtain ⟨y, hy, heq⟩ := List.mem_filterMap.mp hmem
      exact hk (List.mem_filterMap.mpr ⟨y, List.mem_cons_of_mem x hy, heq⟩)
    rw [List.foldlM_cons] at hrun
    obtain ⟨t, hstep, hrest⟩ := bind_eq_ok.mp hrun
    rw [ih h.tail hrest' hrest, h.other x List.mem_cons_self s t k hstep hself]

theorem nodup_filterMap_cons {x : ι} (h : ((x :: xs).filterMap key).Nodup) :
    (xs.filterMap key).Nodup ∧ ∀ k, key x = some k → k ∉ xs.filterMap key := by
  cases hkey : key x with
  | none =>
    rw [List.filterMap_cons_none hkey] at h
    exact ⟨h, fun k hk => by cases hk⟩
  | some k =>
    rw [List.filterMap_cons_some hkey, List.nodup_cons] at h
    exact ⟨h.2, fun k' hk' => Option.some.inj hk' ▸ h.1⟩

/-- A view that has a step is changed by it, whatever the steps of the others do. -/
theorem ChangesOwn.foldlM_own (h : ChangesOwn f view key change xs)
    (hnodup : (xs.filterMap key).Nodup) {s s' : σ} (hrun : xs.foldlM f s = .ok s') :
    ∀ x ∈ xs, ∀ k, key x = some k → change x (view k s) = .ok (view k s') := by
  induction xs generalizing s with
  | nil => exact fun x hx => absurd hx List.not_mem_nil
  | cons x xs ih =>
    intro y hy k hk
    obtain ⟨hnodup', hfresh⟩ := nodup_filterMap_cons hnodup
    rw [List.foldlM_cons] at hrun
    obtain ⟨t, hstep, hrest⟩ := bind_eq_ok.mp hrun
    cases List.mem_cons.mp hy with
    | inl heq =>
      subst heq
      rw [h.tail.foldlM_other (hfresh k hk) hrest]
      exact h.own y List.mem_cons_self s t k hstep hk
    | inr hmem =>
      have hne : key x ≠ some k :=
        fun heq => hfresh k heq (List.mem_filterMap.mpr ⟨y, hmem, hk⟩)
      rw [← h.other x List.mem_cons_self s t k hstep hne]
      exact ih h.tail hnodup' hrest y hmem k hk

theorem ChangesOwn.foldlM_returns (h : ChangesOwn f view key change xs)
    (hnodup : (xs.filterMap key).Nodup) {s : σ}
    (hchange : ∀ x ∈ xs, ∀ k, key x = some k → ∃ v, change x (view k s) = .ok v) :
    ∃ s', xs.foldlM f s = .ok s' := by
  induction xs generalizing s with
  | nil => exact ⟨s, rfl⟩
  | cons x xs ih =>
    obtain ⟨hnodup', hfresh⟩ := nodup_filterMap_cons hnodup
    obtain ⟨t, hstep⟩ := h.returns x List.mem_cons_self s (hchange x List.mem_cons_self)
    rw [List.foldlM_cons, hstep, ok_bind]
    apply ih h.tail hnodup'
    intro y hy k hk
    have hne : key x ≠ some k :=
      fun heq => hfresh k heq (List.mem_filterMap.mpr ⟨y, hy, hk⟩)
    rw [h.other x List.mem_cons_self s t k hstep hne]
    exact hchange y (List.mem_cons_of_mem x hy) k hk

end ReadexPtf.Outcome
