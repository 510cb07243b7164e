import Mathlib

/-! Comparisons that return a number, below zero for less and above it for greater: when
they order a collection, how they are chained, and `std::set` over one of them. -/
namespace ReadexPtf
variable {α β : Type*}

/-- The comparison is a total preorder of the elements that satisfy `S`. -/
structure ThreeWay (S : α → Prop) (cmp : α → α → ℤ) : Prop where
  flip : ∀ a b, S a → S b → (cmp a b < 0 ↔ 0 < cmp b a)
  trans : ∀ a b c, S a → S b → S c → cmp a b ≤ 0 → cmp b c ≤ 0 → cmp a c ≤ 0

/-- The second comparison decides where the first one does not. -/
def thenCompare (cmp cmp' : α → α → ℤ) (a b : α) : ℤ :=
  if cmp a b ≠ 0 then cmp a b else cmp' a b

/-- The comparison of two elements of a linear order. -/
def compareKeys [LinearOrder β] (a b : β) : ℤ := if a < b then -1 else if b < a then 1 else 0

theorem thenCompare_eq_zero {cmp cmp' : α → α → ℤ} {a b : α} :
    thenCompare cmp cmp' a b = 0 ↔ cmp a b = 0 ∧ cmp' a b = 0 := by
  rw [thenCompare]
  by_cases h : cmp a b = 0 <;> simp [h]

theorem compareKeys_eq_zero [LinearOrder β] {a b : β} : compareKeys a b = 0 ↔ a = b := by
  rw [compareKeys]
  rcases lt_trichotomy a b with h | h | h
  · simp [h, h.ne]
  · simp [h]
  · simp [h, h.not_gt, h.ne']

theorem compareKeys_le [LinearOrder β] {a b : β} : compareKeys a b ≤ 0 ↔ a ≤ b := by
  rw [compareKeys]
  rcases lt_trichotomy a b with h | h | h
  · simp [h, h.le]
  · simp [h]
  · simp [h, h.not_gt, h.not_ge]

theorem compareKeys_flip [LinearOrder β] {a b : β} : compareKeys a b < 0 ↔ 0 < compareKeys b a := by
  rw [compareKeys, compareKeys]
  rcases lt_trichotomy a b with h | h | h
  · simp [h, h.not_gt]
  · simp [h]
  · simp [h, h.not_gt]

theorem threeWay_keys [LinearOrder β] (S : α → Prop) (key : α → β) :
    ThreeWay S fun a b => compareKeys (key a) (key b) :=
  ⟨fun _ _ _ _ => compareKeys_flip,
    fun _ _ _ _ _ _ hab hbc => compareKeys_le.mpr ((compareKeys_le.mp hab).trans
      (compareKeys_le.mp hbc))⟩

namespace ThreeWay
variable {S : α → Prop} {cmp cmp' : α → α → ℤ}

theorem mono {S' : α → Prop} (h : ThreeWay S cmp) (hS : ∀ a, S' a → S a) : ThreeWay S' cmp :=
  ⟨fun a b ha hb => h.flip a b (hS a ha) (hS b hb),
    fun a b c ha hb hc => h.trans a b c (hS a ha) (hS b hb) (hS c hc)⟩

theorem comap {S : β → Prop} {cmp : β → β → ℤ} (h : ThreeWay S cmp) (f : α → β) :
    ThreeWay (fun a => S (f a)) fun a b => cmp (f a) (f b) :=
  ⟨fun a b => h.flip (f a) (f b), fun a b c => h.trans (f a) (f b) (f c)⟩

theorem congr (h : ThreeWay S cmp) (heq : ∀ a b, S a → S b → cmp' a b = cmp a b) :
    ThreeWay S cmp' where
  flip a b ha hb := by
    rw [heq a b ha hb, heq b a hb ha]
    exact h.flip a b ha hb
  trans a b c ha hb hc := by
    rw [heq a b ha hb, heq b c hb hc, heq a c ha hc]
    exact h.trans a b c ha hb hc

theorem eq_zero_comm (h : ThreeWay S cmp) {a b : α} (ha : S a) (hb : S b) :
    cmp a b = 0 ↔ cmp b a = 0 := by
  have hab := h.flip a b ha hb
  have hba := h.flip b a hb ha
  omega

theorem self (h : ThreeWay S cmp) {a : α} (ha : S a) : cmp a a = 0 := by
  have haa := h.flip a a ha ha
  omega

theorem le_iff (h : ThreeWay S cmp) {a b : α} (ha : S a) (hb : S b) :
    cmp a b ≤ 0 ↔ 0 ≤ cmp b a := by
  have hba := h.flip b a hb ha
  omega

/-- Elements between equal ones are equal to them. -/
theorem eq_zero_of_le (h : ThreeWay S cmp) {a b c : α} (ha : S a) (hb : S b) (hc : S c)
    (hab : cmp a b ≤ 0) (hbc : cmp b c ≤ 0) (hac : cmp a c = 0) : cmp a b = 0 ∧ cmp b c = 0 := by
  have hca : cmp c a = 0 := (h.eq_zero_comm ha hc).mp hac
  have hba := h.trans b c a hb hc ha hbc hca.le
  have hcb := h.trans c a b hc ha hb hca.le hab
  have hab' := (h.le_iff hb ha).mp hba
  have hbc' := (h.le_iff hc hb).mp hcb
  exact ⟨by omega, by omega⟩

theorem lt_trans (h : ThreeWay S cmp) {a b c : α} (ha : S a) (hb : S b) (hc : S c)
    (hab : cmp a b < 0) (hbc : cmp b c < 0) : cmp a c < 0 := by
  have hac := h.trans a b c ha hb hc hab.le hbc.le
  by_contra hnot
  have hzero := (h.eq_zero_of_le ha hb hc hab.le hbc.le (by omega)).1
  omega

theorem lt_of_lt_of_eq (h : ThreeWay S cmp) {a b c : α} (ha : S a) (hb : S b) (hc : S c)
    (hab : cmp a b < 0) (hbc : cmp b c = 0) : cmp a c < 0 := by
  have hac := h.trans a b c ha hb hc hab.le hbc.le
  by_contra hnot
  have hzero := (h.eq_zero_of_le ha hb hc hab.le hbc.le (by omega)).1
  omega

/-- Chained comparisons order where the second one orders what the first one leaves equal. -/
theorem thenCompare (h : ThreeWay S cmp)
    (h' : ∀ a, S a → ThreeWay (fun b => S b ∧ cmp a b = 0) cmp') :
    ThreeWay S (thenCompare cmp cmp') where
  flip a b ha hb := by
    simp only [ReadexPtf.thenCompare]
    by_cases hzero : cmp a b = 0
    · have hzero' := (h.eq_zero_comm ha hb).mp hzero
      simp only [hzero, hzero', ne_eq, not_true_eq_false, if_false]
      exact (h' a ha).flip a b ⟨ha, h.self ha⟩ ⟨hb, hzero⟩
    · have hzero' := mt (h.eq_zero_comm ha hb).mpr hzero
      rw [if_pos hzero, if_pos hzero']
      exact h.flip a b ha hb
  trans a b c ha hb hc := by
    have hle : ∀ a b, ReadexPtf.thenCompare cmp cmp' a b ≤ 0 → cmp a b ≤ 0 := by
      intro a b hab
      rw [ReadexPtf.thenCompare] at hab
      split_ifs at hab <;> omega
    intro hab hbc
    have hac := h.trans a b c ha hb hc (hle a b hab) (hle b c hbc)
    by_cases hzero : cmp a c = 0
    · obtain ⟨hab0, hbc0⟩ := h.eq_zero_of_le ha hb hc (hle a b hab) (hle b c hbc) hzero
      simp only [ReadexPtf.thenCompare, hzero, hab0, hbc0, ne_eq, not_true_eq_false,
        if_false] at hab hbc ⊢
      exact (h' a ha).trans a b c ⟨ha, h.self ha⟩ ⟨hb, hab0⟩ ⟨hc, hzero⟩ hab hbc
    · rw [ReadexPtf.thenCompare, if_pos hzero]
      exact hac

end ThreeWay

/-- `std::set::insert`: the place is found by the comparison alone. -/
def setInsert (cmp : α → α → ℤ) (a : α) : List α → List α
  | [] => [a]
  | x :: xs => if cmp x a < 0 then x :: setInsert cmp a xs
    else if cmp a x < 0 then a :: x :: xs else x :: xs

/-- `std::set::find( a ) != end()`. -/
def setFinds (cmp : α → α → ℤ) (a : α) : List α → Bool
  | [] => false
  | x :: xs => if cmp x a < 0 then setFinds cmp a xs else !decide (cmp a x < 0)

section Sets
variable {S : α → Prop} {cmp : α → α → ℤ}

theorem setInsert_subset {a x : α} {xs : List α} (hx : x ∈ setInsert cmp a xs) :
    x = a ∨ x ∈ xs := by
  induction xs with
  | nil => simpa [setInsert] using hx
  | cons y ys ih =>
    rw [setInsert] at hx
    split_ifs at hx
    · cases List.mem_cons.mp hx with
      | inl hself => exact .inr (hself ▸ List.mem_cons_self)
      | inr hrest => exact (ih hrest).imp_right (List.mem_cons_of_mem y)
    · simpa using hx
    · exact .inr hx

theorem subset_setInsert (cmp : α → α → ℤ) (a : α) (xs : List α) : xs ⊆ setInsert cmp a xs := by
  induction xs with
  | nil => simp
  | cons y ys ih =>
    rw [setInsert]
    split_ifs
    · exact List.cons_subset_cons y ih
    · exact List.subset_cons_self a _
    · exact List.Subset.refl _

/-- After an insertion an element that compares equal is there. -/
theorem setInsert_holds (h : ThreeWay S cmp) {a : α} (ha : S a) {xs : List α}
    (hxs : ∀ x ∈ xs, S x) : ∃ x ∈ setInsert cmp a xs, cmp x a = 0 := by
  induction xs with
  | nil => exact ⟨a, by simp [setInsert], h.self ha⟩
  | cons y ys ih =>
    rw [List.forall_mem_cons] at hxs
    rw [setInsert]
    split_ifs with hlt hgt
    · obtain ⟨x, hx, hzero⟩ := ih hxs.2
      exact ⟨x, List.mem_cons_of_mem y hx, hzero⟩
    · exact ⟨a, List.mem_cons_self, h.self ha⟩
    · have hle := h.le_iff hxs.1 ha
      exact ⟨y, List.mem_cons_self, by omega⟩

theorem setInsert_sorted (h : ThreeWay S cmp) {a : α} (ha : S a) {xs : List α}
    (hxs : ∀ x ∈ xs, S x) (hsorted : xs.Pairwise fun x y => cmp x y < 0) :
    (setInsert cmp a xs).Pairwise fun x y => cmp x y < 0 := by
  induction xs with
  | nil => simp [setInsert]
  | cons y ys ih =>
    rw [List.forall_mem_cons] at hxs
    have hys := List.pairwise_cons.mp hsorted
    rw [setInsert]
    split_ifs with hlt hgt
    · refine List.pairwise_cons.mpr ⟨fun x hx => ?_, ih hxs.2 hys.2⟩
      cases setInsert_subset hx with
      | inl hself => exact hself ▸ hlt
      | inr hrest => exact hys.1 x hrest
    · refine List.pairwise_cons.mpr ⟨fun x hx => ?_, hsorted⟩
      cases List.mem_cons.mp hx with
      | inl hself => exact hself ▸ hgt
      | inr hrest => exact h.lt_trans ha hxs.1 (hxs.2 x hrest) hgt (hys.1 x hrest)
    · exact hsorted

/-- A set finds exactly what compares equal to one of its elements. -/
theorem setFinds_iff (h : ThreeWay S cmp) {a : α} (ha : S a) {xs : List α}
    (hxs : ∀ x ∈ xs, S x) (hsorted : xs.Pairwise fun x y => cmp x y < 0) :
    setFinds cmp a xs = true ↔ ∃ x ∈ xs, cmp x a = 0 := by
  induction xs with
  | nil => simp [setFinds]
  | cons y ys ih =>
    rw [List.forall_mem_cons] at hxs
    have hys := List.pairwise_cons.mp hsorted
    have hflip := h.flip a y ha hxs.1
    have hflip' := h.flip y a hxs.1 ha
    rw [setFinds]
    split_ifs with hlt
    · rw [ih hxs.2 hys.2]
      simp only [List.mem_cons, exists_eq_or_imp]
      exact ⟨.inr, fun hor => hor.resolve_left (by omega)⟩
    · simp only [Bool.not_eq_true', decide_eq_false_iff_not, List.mem_cons, exists_eq_or_imp]
      constructor
      · exact fun hle => .inl (by omega)
      · rintro (hzero | ⟨x, hx, hzero⟩)
        · omega
        · have hless := h.lt_of_lt_of_eq hxs.1 (hxs.2 x hx) ha (hys.1 x hx) hzero
          exact absurd hless hlt

theorem setInsert_last {a : α} {xs : List α} (h : ∀ x ∈ xs, cmp x a < 0) :
    setInsert cmp a xs = xs ++ [a] := by
  induction xs with
  | nil => rfl
  | cons y ys ih =>
    rw [List.forall_mem_cons] at h
    rw [setInsert, if_pos h.1, ih h.2, List.cons_append]

/-- Elements that come in their order make the set of them. -/
theorem foldl_setInsert_sorted {xs : List α} (h : xs.Pairwise fun x y => cmp x y < 0) :
    xs.foldl (fun set a => setInsert cmp a set) [] = xs := by
  induction xs using List.reverseRecOn with
  | nil => rfl
  | append_singleton xs a ih =>
    rw [List.pairwise_append] at h
    rw [List.foldl_append, List.foldl_cons, List.foldl_nil, ih h.1,
      setInsert_last fun x hx => h.2.2 x hx a List.mem_cons_self]

/-- What a set holds after some insertions. -/
theorem setInsert_all (h : ThreeWay S cmp) {as : List α} (has : ∀ a ∈ as, S a) {xs : List α}
    (hxs : ∀ x ∈ xs, S x) (hsorted : xs.Pairwise fun x y => cmp x y < 0) :
    let set := as.foldl (fun set a => setInsert cmp a set) xs
    set.Pairwise (fun x y => cmp x y < 0) ∧ (∀ x ∈ set, x ∈ as ∨ x ∈ xs) ∧
      (∀ x ∈ xs, x ∈ set) ∧ ∀ a ∈ as, ∃ x ∈ set, cmp x a = 0 := by
  induction as generalizing xs with
  | nil => exact ⟨hsorted, fun x hx => .inr hx, fun x hx => hx, by simp⟩
  | cons a as ih =>
    rw [List.forall_mem_cons] at has
    have hnext : ∀ x ∈ setInsert cmp a xs, S x := by
      intro x hx
      cases setInsert_subset hx with
      | inl hself => exact hself ▸ has.1
      | inr hrest => exact hxs x hrest
    obtain ⟨hsorted', hfrom, hkept, hall⟩ :=
      ih has.2 hnext (setInsert_sorted h has.1 hxs hsorted)
    refine ⟨hsorted', fun x hx => ?_, fun x hx => hkept x (subset_setInsert cmp a xs hx), ?_⟩
    · cases hfrom x hx with
      | inl hlater => exact .inl (List.mem_cons_of_mem a hlater)
      | inr hset =>
        cases setInsert_subset hset with
        | inl hself => exact .inl (hself ▸ List.mem_cons_self)
        | inr hrest => exact .inr hrest
    · refine List.forall_mem_cons.mpr ⟨?_, hall⟩
      obtain ⟨x, hx, hzero⟩ := setInsert_holds h has.1 hxs
      exact ⟨x, hkept x hx, hzero⟩

end Sets

/-- `std::lexicographical_compare`. -/
def lessLists (cmp : α → α → ℤ) : List α → List α → Bool
  | _, [] => false
  | [], _ :: _ => true
  | x :: xs, y :: ys =>
    if cmp x y < 0 then true else if cmp y x < 0 then false else lessLists cmp xs ys

/-- The order of two lists as a number. -/
def compareLists (cmp : α → α → ℤ) (xs ys : List α) : ℤ :=
  if lessLists cmp xs ys then -1 else if lessLists cmp ys xs then 1 else 0

section Lists
variable {S : α → Prop} {cmp : α → α → ℤ}

theorem lessLists_asymm (h : ThreeWay S cmp) {xs ys : List α} (hxs : ∀ x ∈ xs, S x)
    (hys : ∀ y ∈ ys, S y) (hless : lessLists cmp xs ys = true) : lessLists cmp ys xs = false := by
  induction xs generalizing ys with
  | nil => cases ys <;> rfl
  | cons x xs ih =>
    cases ys with
    | nil => simp [lessLists] at hless
    | cons y ys =>
      rw [List.forall_mem_cons] at hxs hys
      have hflip := h.flip x y hxs.1 hys.1
      rw [lessLists] at hless ⊢
      split_ifs at hless with hxy hyx
      · rw [if_neg (by omega), if_pos hxy]
      · rw [if_neg hyx, if_neg hxy]
        exact ih hxs.2 hys.2 hless

/-- What lies below a list lies below any other one, or that one lies below the list. -/
theorem lessLists_or (h : ThreeWay S cmp) {xs ys zs : List α} (hxs : ∀ x ∈ xs, S x)
    (hys : ∀ y ∈ ys, S y) (hzs : ∀ z ∈ zs, S z) (hless : lessLists cmp xs zs = true) :
    lessLists cmp xs ys = true ∨ lessLists cmp ys zs = true := by
  induction xs generalizing ys zs with
  | nil =>
    cases zs with
    | nil => simp [lessLists] at hless
    | cons z zs => cases ys <;> simp [lessLists]
  | cons x xs ih =>
    cases zs with
    | nil => simp [lessLists] at hless
    | cons z zs =>
      cases ys with
      | nil => simp [lessLists]
      | cons y ys =>
        rw [List.forall_mem_cons] at hxs hys hzs
        have hxy := h.flip x y hxs.1 hys.1
        have hyx := h.flip y x hys.1 hxs.1
        have hzx := h.flip z x hzs.1 hxs.1
        have hzy := h.flip z y hzs.1 hys.1
        have hyxz := h.trans y x z hys.1 hxs.1 hzs.1
        have hyzx := h.trans y z x hys.1 hzs.1 hxs.1
        have hzyx := h.trans z y x hzs.1 hys.1 hxs.1
        have hxzy := h.trans x z y hxs.1 hzs.1 hys.1
        have hxyz := h.trans x y z hxs.1 hys.1 hzs.1
        have hzxy := h.trans z x y hzs.1 hxs.1 hys.1
        have hyz := h.flip y z hys.1 hzs.1
        have hxz := h.flip x z hxs.1 hzs.1
        simp only [lessLists] at hless ⊢
        by_cases hltxy : cmp x y < 0
        · simp [hltxy]
        by_cases hltyz : cmp y z < 0
        · simp [hltyz]
        -- neither head decides, so that all three are equal
        have hltxz : ¬ cmp x z < 0 := by omega
        rw [if_neg hltxz] at hless
        split_ifs at hless with hltzx
        have hltyx : ¬ cmp y x < 0 := by omega
        have hltzy : ¬ cmp z y < 0 := by omega
        rw [if_neg hltxy, if_neg hltyx, if_neg hltyz, if_neg hltzy]
        exact ih hxs.2 hys.2 hzs.2 hless

theorem compareLists_threeWay (h : ThreeWay S cmp) :
    ThreeWay (fun xs : List α => ∀ x ∈ xs, S x) (compareLists cmp) where
  flip xs ys hxs hys := by
    have hasymm := lessLists_asymm h hxs hys
    have hasymm' := lessLists_asymm h hys hxs
    simp only [compareLists]
    cases hxy : lessLists cmp xs ys <;> cases hyx : lessLists cmp ys xs <;> simp_all
  trans xs ys zs hxs hys hzs := by
    have hle : ∀ as bs : List α, (∀ a ∈ as, S a) → (∀ b ∈ bs, S b) →
        (compareLists cmp as bs ≤ 0 ↔ lessLists cmp bs as = false) := by
      intro as bs has hbs
      have hasymm := lessLists_asymm h has hbs
      simp only [compareLists]
      cases hab : lessLists cmp as bs <;> cases hba : lessLists cmp bs as <;> simp_all
    rw [hle xs ys hxs hys, hle ys zs hys hzs, hle xs zs hxs hzs]
    intro hyx hzy
    by_contra hzx
    rw [Bool.not_eq_false] at hzx
    cases lessLists_or h hzs hys hxs hzx with
    | inl hless => rw [hless] at hzy; exact absurd hzy (by simp)
    | inr hless => rw [hless] at hyx; exact absurd hyx (by simp)

/-- Lists are equal in that order where they are element by element. -/
theorem compareLists_eq_zero (h : ThreeWay S cmp) {xs ys : List α} (hxs : ∀ x ∈ xs, S x)
    (hys : ∀ y ∈ ys, S y) :
    compareLists cmp xs ys = 0 ↔ List.Forall₂ (fun x y => cmp x y = 0) xs ys := by
  have hzero : compareLists cmp xs ys = 0 ↔
      (lessLists cmp xs ys = false ∧ lessLists cmp ys xs = false) := by
    rw [compareLists]
    cases lessLists cmp xs ys <;> cases lessLists cmp ys xs <;> simp
  refine hzero.trans ?_
  clear hzero
  induction xs generalizing ys with
  | nil => cases ys <;> simp [lessLists]
  | cons x xs ih =>
    cases ys with
    | nil => simp [lessLists]
    | cons y ys =>
      rw [List.forall_mem_cons] at hxs hys
      have hxy := h.flip x y hxs.1 hys.1
      have hyx := h.flip y x hys.1 hxs.1
      have hrest := ih hxs.2 hys.2
      rw [List.forall₂_cons, ← hrest, lessLists, lessLists]
      by_cases hlt : cmp x y < 0
      · have hne : cmp x y ≠ 0 := by omega
        simp [hlt, hne]
      · by_cases hgt : cmp y x < 0
        · have hne : cmp x y ≠ 0 := by omega
          simp [hlt, hgt, hne]
        · have heq : cmp x y = 0 := by omega
          simp [hgt, heq]

/-- Where only an element itself compares equal to it, that holds of the lists too. -/
theorem compareLists_eq_zero_iff_eq (h : ThreeWay S cmp)
    (hequal : ∀ x y, S x → S y → (cmp x y = 0 ↔ x = y)) {xs ys : List α} (hxs : ∀ x ∈ xs, S x)
    (hys : ∀ y ∈ ys, S y) : compareLists cmp xs ys = 0 ↔ xs = ys := by
  rw [compareLists_eq_zero h hxs hys]
  constructor
  · intro hall
    induction hall with
    | nil => rfl
    | cons hzero _ ih =>
      rw [List.forall_mem_cons] at hxs hys
      rw [(hequal _ _ hxs.1 hys.1).mp hzero, ih hxs.2 hys.2]
  · rintro rfl
    exact List.forall₂_same.mpr fun x hx => h.self (hxs x hx)

end Lists
end ReadexPtf
