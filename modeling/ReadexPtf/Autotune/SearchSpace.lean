import ReadexPtf.Lib.OrdMap
import ReadexPtf.Lib.LexProduct
import ReadexPtf.Lib.IntLoop

/-! Tuning parameters, search spaces, scenarios and the pool the search algorithms
create them in. A tuning parameter is known to a variant by its address. -/
namespace ReadexPtf.Autotune
open ReadexPtf

structure Restriction where
  type : Int
  elements : List Int
  deriving DecidableEq, Repr

structure TuningParameter where
  addr : Nat
  rangeFrom : Int
  rangeTo : Int
  rangeStep : Int
  restriction : Option Restriction
  deriving DecidableEq, Repr

structure SearchSpace where
  /-- The region ids. -/
  regions : List String
  /-- The call paths of the runtime situations. -/
  rtsVector : List String
  variantSpace : List TuningParameter
  deriving DecidableEq, Repr

/-- `map<TuningParameter*, int>`. -/
abbrev Variant := OrdMap Nat Int

inductive VariantContextType where
  | regionList
  | rtsList
  deriving DecidableEq, Repr

structure TuningSpecification where
  variant : Variant
  contextType : VariantContextType
  entityList : List String
  deriving DecidableEq

structure Scenario where
  id : Nat
  ts : List TuningSpecification
  deriving DecidableEq

namespace TuningParameter

/-- The elements of a vector range restriction; `none` where the range is walked instead. -/
def elementWise (tp : TuningParameter) : Option (List Int) :=
  match tp.restriction with
  | none => none
  | some r => if r.type ≠ 2 then none else some r.elements

/-- The values the parameter may take, in the order they are tried. -/
def values (tp : TuningParameter) : List Int :=
  match tp.elementWise with
  | none => gridValues tp.rangeFrom tp.rangeTo tp.rangeStep
  | some es => es

/-- A range parameter has a positive step and its loop counter never overflows. -/
def Walkable (tp : TuningParameter) : Prop :=
  tp.elementWise = none → 0 < tp.rangeStep ∧ LoopFits tp.rangeFrom tp.rangeTo tp.rangeStep

instance (tp : TuningParameter) : Decidable tp.Walkable :=
  inferInstanceAs (Decidable (_ → _))

end TuningParameter

/-- `Scenario::scenario_id` and the created scenario pool. Ids are handed out once:
every id of the pool is below the counter. -/
structure ScenarioPools where
  nextId : Nat
  csp : OrdMap Nat Scenario
  fresh : ∀ k ∈ csp.keys, k < nextId

namespace ScenarioPools

def empty : ScenarioPools := ⟨0, .empty, by simp⟩

/-- `new Scenario( ts )` followed by `csp->push`. -/
def create (p : ScenarioPools) (ts : List TuningSpecification) : ScenarioPools where
  nextId := p.nextId + 1
  csp := p.csp.set p.nextId ⟨p.nextId, ts⟩
  fresh := by
    intro k hk
    cases OrdMap.mem_keys_set.mp hk with
    | inl hnew => exact hnew ▸ Nat.lt_succ_self _
    | inr hold => exact Nat.lt_succ_of_lt (p.fresh k hold)

@[simp] theorem nextId_create (p : ScenarioPools) (ts : List TuningSpecification) :
    (p.create ts).nextId = p.nextId + 1 := rfl

/-- Other parts of the framework create scenarios too, and take scenarios out of the pool. -/
def elsewhere (p : ScenarioPools) (made : Nat) (kept : Nat → Bool) : ScenarioPools where
  nextId := p.nextId + made
  csp := p.csp.filterKeys kept
  fresh := fun k hk => by
    have hlt := p.fresh k (OrdMap.mem_keys_filterKeys.mp hk).1
    omega

/-- The scenarios of the pool whose ids were handed out from `first` on, in that order. -/
def createdSince (p : ScenarioPools) (first : Nat) : List Scenario :=
  (p.csp.entries.filter fun e => first ≤ e.1).map Prod.snd

@[simp] theorem createdSince_elsewhere (p : ScenarioPools) (made first : Nat) :
    (p.elsewhere made fun _ => false).createdSince first = [] := by
  simp [createdSince, elsewhere, OrdMap.filterKeys]

theorem createdSince_nextId (p : ScenarioPools) : p.createdSince p.nextId = [] := by
  have hnone : p.csp.entries.filter (fun e => p.nextId ≤ e.1) = [] := by
    refine List.filter_eq_nil_iff.mpr fun e he => ?_
    have hlt : e.1 < p.nextId := p.fresh e.1 (List.mem_map_of_mem he)
    simpa using hlt
  rw [createdSince, hnone, List.map_nil]

theorem createdSince_create (p : ScenarioPools) (ts : List TuningSpecification) {first : Nat}
    (h : first ≤ p.nextId) :
    (p.create ts).createdSince first = p.createdSince first ++ [⟨p.nextId, ts⟩] := by
  have hlast : (p.create ts).csp.entries = p.csp.entries ++ [(p.nextId, ⟨p.nextId, ts⟩)] :=
    OrdMap.Entries.insert_last fun e he => p.fresh e.1 (List.mem_map_of_mem he)
  simp [createdSince, hlast, h]

end ScenarioPools

/-- The variant a walk over `tps` leaves when it assigns `vals` in order. -/
def assign (v : Variant) (tps : List TuningParameter) (vals : List Int) : Variant :=
  (tps.zip vals).foldl (fun v e => v.set e.1.addr e.2) v

@[simp] theorem assign_nil (v : Variant) (vals : List Int) : assign v [] vals = v := rfl

@[simp] theorem assign_cons (v : Variant) (tp : TuningParameter) (tps : List TuningParameter)
    (x : Int) (vals : List Int) :
    assign v (tp :: tps) (x :: vals) = assign (v.set tp.addr x) tps vals := rfl

theorem get?_assign_of_notMem {tps : List TuningParameter} {a : Nat}
    (h : ∀ tp ∈ tps, tp.addr ≠ a) (v : Variant) (vals : List Int) :
    (assign v tps vals).get? a = v.get? a := by
  induction tps generalizing v vals with
  | nil => rfl
  | cons tp tps ih =>
    cases vals with
    | nil => rfl
    | cons x vals =>
      rw [assign_cons, ih fun tp' h' => h tp' (List.mem_cons_of_mem tp h')]
      exact OrdMap.get?_set_ne _ _ (h tp List.mem_cons_self).symm

/-- The maps hold the same value for every parameter outside `tps`. -/
def AgreeOff (tps : List TuningParameter) (v w : Variant) : Prop :=
  ∀ a, (∀ tp ∈ tps, tp.addr ≠ a) → v.get? a = w.get? a

theorem AgreeOff.refl (tps : List TuningParameter) (v : Variant) : AgreeOff tps v v :=
  fun _ _ => rfl

theorem AgreeOff.trans {tps : List TuningParameter} {u v w : Variant}
    (h : AgreeOff tps u v) (h' : AgreeOff tps v w) : AgreeOff tps u w :=
  fun a ha => (h a ha).trans (h' a ha)

theorem AgreeOff.cons {tps : List TuningParameter} {v w : Variant} (tp : TuningParameter)
    (h : AgreeOff tps v w) : AgreeOff (tp :: tps) v w :=
  fun a ha => h a fun tp' h' => ha tp' (List.mem_cons_of_mem tp h')

theorem agreeOff_set (tp : TuningParameter) (tps : List TuningParameter) (v : Variant) (x : Int) :
    AgreeOff (tp :: tps) (v.set tp.addr x) v :=
  fun _ ha => OrdMap.get?_set_ne v x (ha tp List.mem_cons_self).symm

theorem AgreeOff.set {tp : TuningParameter} {tps : List TuningParameter} {v w : Variant}
    (h : AgreeOff (tp :: tps) v w) (x : Int) :
    AgreeOff tps (v.set tp.addr x) (w.set tp.addr x) := by
  intro a ha
  rw [OrdMap.get?_set, OrdMap.get?_set]
  by_cases heq : a = tp.addr
  · simp [heq]
  · simp only [if_neg heq]
    refine h a fun tp' h' => ?_
    cases List.mem_cons.mp h' with
    | inl hself => exact hself ▸ Ne.symm heq
    | inr hrest => exact ha tp' hrest

/-- Maps that differ only at parameters still to be assigned end equal. -/
theorem assign_congr {tps : List TuningParameter} {vals : List Int} {v w : Variant}
    (hlen : vals.length = tps.length) (h : AgreeOff tps v w) :
    assign v tps vals = assign w tps vals := by
  induction tps generalizing v w vals with
  | nil => exact OrdMap.ext_get? fun a => h a (by simp)
  | cons tp tps ih =>
    cases vals with
    | nil => simp at hlen
    | cons x vals =>
      exact ih (Nat.succ.inj hlen) (h.set x)

/-- Distinct parameters keep the value they were assigned. -/
theorem map_get?_assign (v : Variant) {tps : List TuningParameter} {vals : List Int}
    (hnodup : (tps.map TuningParameter.addr).Nodup) (hlen : vals.length = tps.length) :
    tps.map (fun tp => (assign v tps vals).get? tp.addr) = vals.map some := by
  induction tps generalizing v vals with
  | nil =>
    have hnil : vals = [] := List.length_eq_zero_iff.mp hlen
    simp [hnil]
  | cons tp tps ih =>
    obtain ⟨hnot, hnodup⟩ := List.nodup_cons.mp hnodup
    cases vals with
    | nil => simp at hlen
    | cons x vals =>
      have hhead : (assign v (tp :: tps) (x :: vals)).get? tp.addr = some x := by
        rw [assign_cons, get?_assign_of_notMem, OrdMap.get?_set_self]
        exact fun tp' h' heq => hnot (heq ▸ List.mem_map_of_mem h')
      rw [List.map_cons, List.map_cons, hhead]
      exact congrArg _ (ih _ hnodup (Nat.succ.inj hlen))

end ReadexPtf.Autotune
