import ReadexPtf.TuningModel.Deserialization
import ReadexPtf.TuningModel.Hash
import Mathlib

/-! `merge`: the runtime situations of several tuning models, one for each id, are clustered
anew. The ids are kept in a hash table. -/
namespace ReadexPtf.TuningModel
open ReadexPtf

def Rts.rtsid (rts : Rts) : Rtsid := ⟨rts.callpath, rts.iid, rts.region⟩

section Merge
variable (H : Boost) (π : Iteration)

/-- The runtime situations in the order in which the three loops visit them. -/
def visited (scnrvector : List (List Scenario)) : List Rts :=
  scnrvector.flatMap fun scnrset => scnrset.flatMap fun scnr => (π _).order scnr.rtss

/-- The set of copies that is handed to the clusterer. -/
def uniqueRtss (scnrvector : List (List Scenario)) : List Rts :=
  (π _).order
    ((visited π scnrvector).foldl (keepNew (fun id => id.hash H) Rtsid.equal Rts.rtsid) [])

/-- The constructor of a scenario with a selector that may fail. -/
def clusterScenario (selector : List Configuration → Outcome Configuration) (cluster : List Rts) :
    Outcome Scenario := do
  let config ← selector ((π _).order (cluster.map Rts.configuration))
  .ok ⟨config, cluster⟩

def merge (scnrvector : List (List Scenario))
    (selector : List Configuration → Outcome Configuration)
    (clusterer : List Rts → Outcome (List (List Rts))) : Outcome (List Scenario) := do
  let clusters ← clusterer (uniqueRtss H π scnrvector)
  clusters.mapM (clusterScenario π selector)

/-- What is handed to the clusterer is, for each id, the first runtime situation that has it,
and nothing else. -/
structure HandsFirsts (scnrvector : List (List Scenario)) : Prop where
  firsts : KeepsFirsts Rtsid.equal Rts.rtsid (visited π scnrvector) (uniqueRtss H π scnrvector)
  visited : uniqueRtss H π scnrvector ⊆ visited π scnrvector

end Merge

section Equality

theorem Identifiers.equal_refl (ids : Identifiers) : ids.equal ids = true := by
  simp [Identifiers.equal, UnorderedSet.equal_iff_mem]

theorem Identifiers.equal_symm {ids ids' : Identifiers} (h : ids.equal ids' = true) :
    ids'.equal ids = true := by
  simp only [Identifiers.equal, Bool.and_eq_true, UnorderedSet.equal_iff_perm] at h ⊢
  exact ⟨⟨h.1.1.symm, h.1.2.symm⟩, h.2.symm⟩

theorem Identifiers.equal_trans {ids ids' ids'' : Identifiers} (h : ids.equal ids' = true)
    (h' : ids'.equal ids'' = true) : ids.equal ids'' = true := by
  simp only [Identifiers.equal, Bool.and_eq_true, UnorderedSet.equal_iff_perm] at h h' ⊢
  exact ⟨⟨h.1.1.trans h'.1.1, h.1.2.trans h'.1.2⟩, h.2.trans h'.2⟩

theorem Callpath.equal_iff : ∀ {cp cp' : Callpath},
    cp.equal cp' = true ↔ List.Forall₂ (fun e e' => e.equal e' = true) cp cp' := by
  intro cp
  induction cp with
  | nil => intro cp'; cases cp' <;> simp [Callpath.equal]
  | cons e es ih =>
    intro cp'
    cases cp' with
    | nil => simp [Callpath.equal]
    | cons e' es' => simp [Callpath.equal, ih]

theorem CallpathElement.equal_iff {e e' : CallpathElement} :
    e.equal e' = true ↔ e.region_id = e'.region_id ∧ e.identifiers.equal e'.identifiers = true := by
  simp [CallpathElement.equal]

theorem Callpath.equal_refl (cp : Callpath) : cp.equal cp = true := by
  rw [Callpath.equal_iff, List.forall₂_same]
  exact fun e _ => CallpathElement.equal_iff.mpr ⟨rfl, e.identifiers.equal_refl⟩

theorem Callpath.equal_symm {cp cp' : Callpath} (h : cp.equal cp' = true) :
    cp'.equal cp = true := by
  rw [Callpath.equal_iff] at h ⊢
  induction h with
  | nil => exact .nil
  | cons he _ ih =>
    have he := CallpathElement.equal_iff.mp he
    exact .cons (CallpathElement.equal_iff.mpr ⟨he.1.symm, Identifiers.equal_symm he.2⟩) ih

theorem Callpath.equal_trans : ∀ {cp cp' cp'' : Callpath}, cp.equal cp' = true →
    cp'.equal cp'' = true → cp.equal cp'' = true := by
  intro cp cp' cp'' h h'
  rw [Callpath.equal_iff] at h h' ⊢
  induction h generalizing cp'' with
  | nil => exact h'
  | cons he _ ih =>
    cases h' with
    | cons he' hes' =>
      have he := CallpathElement.equal_iff.mp he
      have he' := CallpathElement.equal_iff.mp he'
      exact .cons (CallpathElement.equal_iff.mpr
        ⟨he.1.trans he'.1, Identifiers.equal_trans he.2 he'.2⟩) (ih hes')

theorem Rtsid.equal_iff {id id' : Rtsid} : id.equal id' = true ↔
    id.iid.equal id'.iid = true ∧ id.region = id'.region ∧ id.callpath.equal id'.callpath = true := by
  simp [Rtsid.equal, and_assoc]

theorem Rtsid.equal_refl (id : Rtsid) : id.equal id = true :=
  Rtsid.equal_iff.mpr ⟨id.iid.equal_refl, rfl, id.callpath.equal_refl⟩

theorem Rtsid.equal_symm (id id' : Rtsid) (h : id.equal id' = true) : id'.equal id = true := by
  have h := Rtsid.equal_iff.mp h
  exact Rtsid.equal_iff.mpr
    ⟨Identifiers.equal_symm h.1, h.2.1.symm, Callpath.equal_symm h.2.2⟩

theorem Rtsid.equal_trans (id id' id'' : Rtsid) (h : id.equal id' = true)
    (h' : id'.equal id'' = true) : id.equal id'' = true := by
  have h := Rtsid.equal_iff.mp h
  have h' := Rtsid.equal_iff.mp h'
  exact Rtsid.equal_iff.mpr ⟨Identifiers.equal_trans h.1 h'.1, h.2.1.trans h'.2.1,
    Callpath.equal_trans h.2.2 h'.2.2⟩

end Equality

section Firsts
variable {H : Boost} {π : Iteration} {scnrvector : List (List Scenario)}

theorem uniqueRtss_subset : uniqueRtss H π scnrvector ⊆ visited π scnrvector := by
  intro rts hrts
  rw [uniqueRtss, Traversal.mem_order] at hrts
  cases mem_foldl_keepNew hrts with
  | inl hnone => cases hnone
  | inr hvisited => exact hvisited

/-- The order in which a set is handed over does not change what is in it for an id. -/
theorem keepsFirsts_order {l kept : List Rts} :
    KeepsFirsts Rtsid.equal Rts.rtsid l ((π _).order kept) ↔
      KeepsFirsts Rtsid.equal Rts.rtsid l kept := by
  have hfilter : ∀ (p : Rts → Bool) (first : Rts),
      ((π _).order kept).filter p = [first] ↔ kept.filter p = [first] := by
    intro p first
    have hperm : (((π _).order kept).filter p).Perm (kept.filter p) := ((π _).perm kept).filter p
    constructor
    · intro h
      exact List.perm_singleton.mp (h ▸ hperm.symm)
    · intro h
      exact List.perm_singleton.mp (h ▸ hperm)
  simp only [KeepsFirsts, hfilter]

theorem handsFirsts_iff_hash :
    HandsFirsts H π scnrvector ↔
      ∀ rts ∈ visited π scnrvector, ∀ rts' ∈ visited π scnrvector,
        rts.rtsid.equal rts'.rtsid = true → rts.rtsid.hash H = rts'.rtsid.hash H := by
  have hfirsts : KeepsFirsts Rtsid.equal Rts.rtsid (visited π scnrvector)
      (uniqueRtss H π scnrvector) ↔ _ :=
    keepsFirsts_order.trans
      (keepsFirsts_iff Rtsid.equal_refl Rtsid.equal_symm Rtsid.equal_trans)
  rw [← hfirsts]
  exact ⟨fun h => h.firsts, fun h => ⟨h, uniqueRtss_subset⟩⟩

theorem hash_eq_of_printed_eq {id id' : Rtsid} (hequal : id.equal id' = true)
    (h : id.callpath.debug_string = id'.callpath.debug_string ∧
      id.iid.debug_string = id'.iid.debug_string) : id.hash H = id'.hash H := by
  have hregion := (Rtsid.equal_iff.mp hequal).2.1
  simp only [Rtsid.hash, h.1, h.2, hregion]

end Firsts

/-- The clusterer gets one runtime situation of each id, the first one, exactly where equal ids
of the models hash equally. Whatever the hash is, that is where they are printed the same way. -/
theorem handsFirsts_iff (π : Iteration) (scnrvector : List (List Scenario)) :
    (∀ H, HandsFirsts H π scnrvector ↔
      ∀ rts ∈ visited π scnrvector, ∀ rts' ∈ visited π scnrvector,
        rts.rtsid.equal rts'.rtsid = true → rts.rtsid.hash H = rts'.rtsid.hash H) ∧
    ((∀ H, HandsFirsts H π scnrvector) ↔
      ∀ rts ∈ visited π scnrvector, ∀ rts' ∈ visited π scnrvector,
        rts.rtsid.equal rts'.rtsid = true →
          rts.rtsid.callpath.debug_string = rts'.rtsid.callpath.debug_string ∧
          rts.rtsid.iid.debug_string = rts'.rtsid.iid.debug_string) := by
  constructor
  · exact fun H => handsFirsts_iff_hash
  · constructor
    · intro h rts hrts rts' hrts' hequal
      exact printed_eq_of_hash_eq fun H => handsFirsts_iff_hash.mp (h H) rts hrts rts' hrts' hequal
    · intro h H
      apply handsFirsts_iff_hash.mpr
      intro rts hrts rts' hrts' hequal
      exact hash_eq_of_printed_eq hequal (h rts hrts rts' hrts' hequal)

/-- A runtime situation of the region `r` with some string identifiers. -/
def identified (strings : UnorderedSet (Identifier String)) : Rts :=
  ⟨[], ⟨1, "f", "r"⟩, ⟨.empty, .empty, strings⟩, ⟨[], Configuration.distinct_nil⟩, .nan⟩

/-- One situation in two models whose string identifiers were read in different orders. -/
theorem not_handsFirsts_orders :
    let one := identified ⟨[⟨"x", "a"⟩, ⟨"y", "b"⟩], by decide⟩
    let other := identified ⟨[⟨"y", "b"⟩, ⟨"x", "a"⟩], by decide⟩
    ¬ HandsFirsts documentedBoost (fun _ => .inserted)
      [[⟨⟨[], .nil⟩, [one]⟩], [⟨⟨[], .nil⟩, [other]⟩]] := by
  intro one other h
  obtain ⟨first, -, hfilter⟩ := h.firsts one List.mem_cons_self
  have hone : ((uniqueRtss documentedBoost (fun _ => .inserted)
      [[⟨⟨[], .nil⟩, [one]⟩], [⟨⟨[], .nil⟩, [other]⟩]]).filter
        fun rts => rts.rtsid.equal one.rtsid).length = 1 := by
    rw [hfilter]
    rfl
  revert hone
  decide +kernel

end ReadexPtf.TuningModel
