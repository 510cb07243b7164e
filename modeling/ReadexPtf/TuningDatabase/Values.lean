import ReadexPtf.Lib.ThreeWay
import Mathlib

/-! Tuning values, their comparison, and the sets of them that configurations are. -/
namespace ReadexPtf.TuningDatabase
open ReadexPtf

/-- The extension objects behind the pointers of tuning values: their dynamic types, what
they hold, and the virtual comparison, which orders the objects of one type. -/
structure Extensions (Ptr Kind Content : Type) where
  typeid : Ptr → Kind
  content : Ptr → Content
  compare : Ptr → Ptr → ℤ
  ordered : ∀ kind, ThreeWay (fun p => typeid p = kind) compare
  compare_eq_zero : ∀ p q, typeid p = typeid q → (compare p q = 0 ↔ content p = content q)

/-- The plugin type by its number; the null pointer is `none`. -/
structure TuningValue (Ptr : Type) where
  pluginType : ℤ
  name : String
  extension : Option Ptr
  value : ℤ

section Compare
variable {Ptr Kind Content : Type} [DecidableEq Ptr] [DecidableEq Kind]
  (ext : Extensions Ptr Kind Content)

/-- What is returned because of the extensions, if anything is. `typeid( *this )` and
`typeid( tv )` are the same, so that neither is before the other. -/
def compareExtensions : Option Ptr → Option Ptr → Option ℤ
  | none, none => none
  | none, some _ => some (-1)
  | some _, none => some 1
  | some p, some q =>
    if p = q then none
    else if ext.typeid p ≠ ext.typeid q then some 0
    else if ext.compare p q ≠ 0 then some (ext.compare p q)
    else none

/-- `string::compare`, by its sign. -/
def compareNames (name name' : String) : ℤ := compareKeys name name'

def TuningValue.compare (this tv : TuningValue Ptr) : ℤ :=
  if this.pluginType ≠ tv.pluginType then
    if this.pluginType < tv.pluginType then -1 else 1
  else if compareNames this.name tv.name ≠ 0 then compareNames this.name tv.name
  else
    match compareExtensions ext this.extension tv.extension with
    | some retval => retval
    | none =>
      if this.value ≠ tv.value then if this.value < tv.value then -1 else 1
      else 0

/-- What two equal values have in common: an extension counts by its type and content. -/
def TuningValue.identity (tv : TuningValue Ptr) : ℤ × String × Option (Kind × Content) × ℤ :=
  (tv.pluginType, tv.name, tv.extension.map fun p => (ext.typeid p, ext.content p), tv.value)

/-- `std::set<TuningValue>`. -/
structure TuningConfiguration (Ptr : Type) where
  values : List (TuningValue Ptr)

def TuningConfiguration.empty : TuningConfiguration Ptr := ⟨[]⟩

def TuningConfiguration.add (c : TuningConfiguration Ptr) (tv : TuningValue Ptr) :
    TuningConfiguration Ptr :=
  ⟨setInsert (TuningValue.compare ext) tv c.values⟩

def TuningConfiguration.has (c : TuningConfiguration Ptr) (tv : TuningValue Ptr) : Bool :=
  setFinds (TuningValue.compare ext) tv c.values

def TuningConfiguration.ofValues (tvs : List (TuningValue Ptr)) : TuningConfiguration Ptr :=
  tvs.foldl (fun c tv => c.add ext tv) .empty

/-- The comparison is a total order of the values. -/
structure Ordered (tvs : List (TuningValue Ptr)) : Prop where
  flip : ∀ a ∈ tvs, ∀ b ∈ tvs, a.compare ext b < 0 ↔ 0 < b.compare ext a
  trans : ∀ a ∈ tvs, ∀ b ∈ tvs, ∀ c ∈ tvs,
    a.compare ext b < 0 → b.compare ext c < 0 → a.compare ext c < 0
  equal : ∀ a ∈ tvs, ∀ b ∈ tvs, a.compare ext b = 0 ↔ a.identity ext = b.identity ext

/-- A configuration of the values holds each of them once and finds them. -/
structure Stored (tvs : List (TuningValue Ptr)) : Prop where
  holds : ∀ tv ∈ tvs, ∃ tv' ∈ (TuningConfiguration.ofValues ext tvs).values,
    tv'.identity ext = tv.identity ext
  once : (TuningConfiguration.ofValues ext tvs).values.Pairwise fun tv tv' =>
    tv.identity ext ≠ tv'.identity ext
  finds : ∀ tv ∈ tvs, (TuningConfiguration.ofValues ext tvs).has ext tv = true

/-- Two of the values have the same parameter and extensions of different types. -/
def Mixed (tvs : List (TuningValue Ptr)) : Prop :=
  ∃ a ∈ tvs, ∃ b ∈ tvs, a.pluginType = b.pluginType ∧ a.name = b.name ∧
    ∃ p q, a.extension = some p ∧ b.extension = some q ∧ ext.typeid p ≠ ext.typeid q

end Compare

section Order
variable {Ptr Kind Content : Type} {ext : Extensions Ptr Kind Content}

/-- The order of two extensions of one type at most, below them the null pointer. -/
def extensionOrder (ext : Extensions Ptr Kind Content) : Option Ptr → Option Ptr → ℤ
  | none, none => 0
  | none, some _ => -1
  | some _, none => 1
  | some p, some q => ext.compare p q

theorem extensionOrder_threeWay {S : Option Ptr → Prop}
    (hS : ∀ p q, S (some p) → S (some q) → ext.typeid p = ext.typeid q) :
    ThreeWay S (extensionOrder ext) where
  flip e e' he he' := by
    cases e with
    | none => cases e' <;> simp [extensionOrder]
    | some p =>
      cases e' with
      | none => simp [extensionOrder]
      | some q => exact (ext.ordered _).flip p q rfl (hS q p he' he)
  trans e e' e'' he he' he'' := by
    intro h h'
    cases e with
    | none => cases e'' <;> simp [extensionOrder]
    | some p =>
      cases e' with
      | none => simp [extensionOrder] at h
      | some q =>
        cases e'' with
        | none => simp [extensionOrder] at h'
        | some r => exact (ext.ordered _).trans p q r rfl (hS q p he' he) (hS r p he'' he) h h'

/-- The comparison as a chain of comparisons of the members. -/
def memberOrder (ext : Extensions Ptr Kind Content) : TuningValue Ptr → TuningValue Ptr → ℤ :=
  thenCompare (fun a b => compareKeys a.pluginType b.pluginType)
    (thenCompare (fun a b => compareKeys a.name b.name)
      (thenCompare (fun a b => extensionOrder ext a.extension b.extension)
        fun a b => compareKeys a.value b.value))

/-- The two values do not have the same parameter and extensions of different types. -/
def Comparable (ext : Extensions Ptr Kind Content) (a b : TuningValue Ptr) : Prop :=
  a.pluginType = b.pluginType → a.name = b.name →
    ∀ p q, a.extension = some p → b.extension = some q → ext.typeid p = ext.typeid q

theorem compareNumbers_eq (a b : ℤ) :
    (if a ≠ b then if a < b then -1 else 1 else 0 : ℤ) = compareKeys a b := by
  rw [compareKeys]
  split_ifs <;> omega

theorem memberOrder_threeWay {S : TuningValue Ptr → Prop}
    (hS : ∀ a b, S a → S b → Comparable ext a b) : ThreeWay S (memberOrder ext) := by
  refine (threeWay_keys S _).thenCompare fun a ha => (threeWay_keys _ _).thenCompare fun b hb =>
    ThreeWay.thenCompare ?_ fun c hc => threeWay_keys _ _
  -- the values left have the parameter of `a` and `b`
  have hsame : ThreeWay (fun e => ∃ tv, S tv ∧ a.pluginType = tv.pluginType ∧ b.name = tv.name ∧
      tv.extension = e) (extensionOrder ext) := by
    apply extensionOrder_threeWay
    rintro p q ⟨tv, htv, htype, hname, hp⟩ ⟨tv', htv', htype', hname', hq⟩
    exact hS tv tv' htv htv' (htype.symm.trans htype') (hname.symm.trans hname') p q hp hq
  refine (hsame.comap TuningValue.extension).mono ?_
  rintro tv ⟨⟨htv, htype⟩, hname⟩
  exact ⟨tv, htv, compareKeys_eq_zero.mp htype, compareKeys_eq_zero.mp hname, rfl⟩

theorem extensionOrder_eq_zero {e e' : Option Ptr}
    (h : ∀ p q, e = some p → e' = some q → ext.typeid p = ext.typeid q) :
    extensionOrder ext e e' = 0 ↔ e.map (fun p => (ext.typeid p, ext.content p)) =
      e'.map fun p => (ext.typeid p, ext.content p) := by
  cases e with
  | none => cases e' <;> simp [extensionOrder]
  | some p =>
    cases e' with
    | none => simp [extensionOrder]
    | some q =>
      have hkind := h p q rfl rfl
      simp [extensionOrder, ext.compare_eq_zero p q hkind, hkind]

theorem memberOrder_eq_zero {a b : TuningValue Ptr} (h : Comparable ext a b) :
    memberOrder ext a b = 0 ↔ a.identity ext = b.identity ext := by
  simp only [memberOrder, thenCompare_eq_zero, compareKeys_eq_zero, TuningValue.identity,
    Prod.mk.injEq]
  refine and_congr_right fun htype => and_congr_right fun hname => and_congr_left fun _ => ?_
  exact extensionOrder_eq_zero (h htype hname)

variable [DecidableEq Ptr] [DecidableEq Kind]

theorem compareExtensions_eq {e e' : Option Ptr}
    (h : ∀ p q, e = some p → e' = some q → ext.typeid p = ext.typeid q) (other : ℤ) :
    (match compareExtensions ext e e' with
      | some retval => retval
      | none => other) =
    if extensionOrder ext e e' ≠ 0 then extensionOrder ext e e' else other := by
  cases e with
  | none => cases e' <;> simp [compareExtensions, extensionOrder]
  | some p =>
    cases e' with
    | none => simp [compareExtensions, extensionOrder]
    | some q =>
      have hkind := h p q rfl rfl
      by_cases hpq : p = q
      · have hself : ext.compare p q = 0 := hpq ▸ (ext.ordered _).self rfl
        simp [compareExtensions, extensionOrder, hpq, hpq ▸ hself]
      · by_cases hzero : ext.compare p q = 0 <;>
          simp [compareExtensions, extensionOrder, hpq, hkind, hzero]

theorem compare_eq_memberOrder {a b : TuningValue Ptr} (h : Comparable ext a b) :
    a.compare ext b = memberOrder ext a b := by
  by_cases htype : a.pluginType = b.pluginType
  · by_cases hname : a.name = b.name
    · have hnames : compareNames a.name b.name = 0 := compareKeys_eq_zero.mpr hname
      rw [TuningValue.compare, if_neg (not_not.mpr htype), if_neg (not_not.mpr hnames),
        compareExtensions_eq (h htype hname), compareNumbers_eq]
      simp [memberOrder, thenCompare, compareKeys_eq_zero, htype, hname]
    · have hnames : compareNames a.name b.name ≠ 0 := mt compareKeys_eq_zero.mp hname
      rw [TuningValue.compare, if_neg (not_not.mpr htype), if_pos hnames]
      simp [memberOrder, thenCompare, compareKeys_eq_zero, htype, hname, compareNames]
  · have hnumbers := compareNumbers_eq a.pluginType b.pluginType
    rw [if_pos htype] at hnumbers
    rw [TuningValue.compare, if_pos htype, hnumbers]
    simp [memberOrder, thenCompare, compareKeys_eq_zero, htype]

/-- Values that are not mixed are ordered by the comparison of their members. -/
theorem compare_threeWay {tvs : List (TuningValue Ptr)} (h : ¬ Mixed ext tvs) :
    ThreeWay (· ∈ tvs) (TuningValue.compare ext) ∧
      ∀ a ∈ tvs, ∀ b ∈ tvs, a.compare ext b = 0 ↔ a.identity ext = b.identity ext := by
  have hcomparable : ∀ a b, a ∈ tvs → b ∈ tvs → Comparable ext a b := by
    intro a b ha hb htype hname p q hp hq
    by_contra hkind
    exact h ⟨a, ha, b, hb, htype, hname, p, q, hp, hq, hkind⟩
  constructor
  · exact (memberOrder_threeWay hcomparable).congr fun a b ha hb =>
      compare_eq_memberOrder (hcomparable a b ha hb)
  · intro a ha b hb
    rw [compare_eq_memberOrder (hcomparable a b ha hb)]
    exact memberOrder_eq_zero (hcomparable a b ha hb)

theorem ofValues_values (tvs : List (TuningValue Ptr)) :
    (TuningConfiguration.ofValues ext tvs).values =
      tvs.foldl (fun set tv => setInsert (TuningValue.compare ext) tv set) [] := by
  have hfold : ∀ c : TuningConfiguration Ptr,
      (tvs.foldl (fun c tv => c.add ext tv) c).values =
        tvs.foldl (fun set tv => setInsert (TuningValue.compare ext) tv set) c.values := by
    induction tvs with
    | nil => exact fun _ => rfl
    | cons tv tvs ih => exact fun c => ih (c.add ext tv)
  exact hfold .empty

/-- A configuration of ordered values is a set of them. -/
theorem stored_of_ordered {tvs : List (TuningValue Ptr)}
    (h : ThreeWay (· ∈ tvs) (TuningValue.compare ext))
    (hequal : ∀ a ∈ tvs, ∀ b ∈ tvs, a.compare ext b = 0 ↔ a.identity ext = b.identity ext) :
    Stored ext tvs := by
  have hnone : ∀ tv ∈ ([] : List (TuningValue Ptr)), tv ∈ tvs := by simp
  obtain ⟨hsorted, hfrom, -, hall⟩ := setInsert_all h (fun _ => id) hnone .nil
  rw [← ofValues_values] at hsorted hfrom hall
  have hmem : ∀ tv ∈ (TuningConfiguration.ofValues ext tvs).values, tv ∈ tvs := fun tv htv =>
    (hfrom tv htv).resolve_right (by simp)
  refine ⟨fun tv htv => ?_, ?_, fun tv htv => ?_⟩
  · obtain ⟨tv', htv', hzero⟩ := hall tv htv
    exact ⟨tv', htv', (hequal tv' (hmem tv' htv') tv htv).mp hzero⟩
  · refine hsorted.imp_of_mem fun {tv tv'} htv htv' hless hsame => ?_
    have hzero := (hequal tv (hmem tv htv) tv' (hmem tv' htv')).mpr hsame
    omega
  · exact (setFinds_iff h htv hmem hsorted).mpr (hall tv htv)

/-- Extensions of different types make two values of one parameter compare equal. -/
theorem compare_mixed {a b : TuningValue Ptr} (htype : a.pluginType = b.pluginType)
    (hname : a.name = b.name) {p q : Ptr} (hp : a.extension = some p) (hq : b.extension = some q)
    (hkind : ext.typeid p ≠ ext.typeid q) : a.compare ext b = 0 := by
  have hnames : compareNames a.name b.name = 0 := compareKeys_eq_zero.mpr hname
  have hpq : p ≠ q := fun heq => hkind (congrArg ext.typeid heq)
  simp [TuningValue.compare, htype, hnames, compareExtensions, hp, hq, hpq, hkind]

end Order

/-- The comparison orders a collection of values, and configurations are sets of them,
exactly where no parameter has values with extensions of different types. -/
theorem ordered_stored_iff {Ptr Kind Content : Type} [DecidableEq Ptr] [DecidableEq Kind]
    (ext : Extensions Ptr Kind Content) (tvs : List (TuningValue Ptr)) :
    Ordered ext tvs ∧ Stored ext tvs ↔ ¬ Mixed ext tvs := by
  constructor
  · rintro ⟨hordered, -⟩ ⟨a, ha, b, hb, htype, hname, p, q, hp, hq, hkind⟩
    have hsame := (hordered.equal a ha b hb).mp (compare_mixed htype hname hp hq hkind)
    simp only [TuningValue.identity, Prod.mk.injEq, hp, hq, Option.map_some, Option.some.injEq]
      at hsame
    exact hkind hsame.2.2.1.1
  · intro h
    obtain ⟨hthree, hequal⟩ := compare_threeWay h
    refine ⟨⟨fun a ha b hb => hthree.flip a b ha hb, ?_, hequal⟩, stored_of_ordered hthree hequal⟩
    exact fun a ha b hb c hc => hthree.lt_trans ha hb hc

/-- Two types of extensions with an object each. -/
def twoKinds : Extensions Bool Bool Unit where
  typeid := id
  content := fun _ => ()
  compare := fun _ _ => 0
  ordered := fun _ => ⟨by simp, by simp⟩
  compare_eq_zero := by simp

/-- Values that differ in the type of the extension only. -/
theorem not_ordered_stored : ¬ ∀ tvs : List (TuningValue Bool),
    Ordered twoKinds tvs ∧ Stored twoKinds tvs := by
  intro h
  have hequal := (h [⟨1, "flag", some false, 0⟩, ⟨1, "flag", some true, 0⟩]).1.equal
    ⟨1, "flag", some false, 0⟩ (by simp) ⟨1, "flag", some true, 0⟩ (by simp)
  simp [compare_mixed, TuningValue.identity, twoKinds] at hequal

end ReadexPtf.TuningDatabase
