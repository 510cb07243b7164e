import ReadexPtf.Lib.Outcome
import ReadexPtf.MpiParameters.Plugin
import Mathlib

/-! The configured parameters, and the two methods that take entries out of the container
they walk over. -/
namespace ReadexPtf.MpiParameters
open ReadexPtf.Agents Frontend Autotune

/-- `mpiType`: what a line of the configuration is about. -/
inductive LineType where
  | unknown | searchAlg | indKeep | gde3PopSz | sampCount | autoEagerLimit
  | useBulkXfer | bulkMinMsgSize | bufferMem | eagerLimit
  | ccScratchBuf | singleThread | waitMode | pollingInterval
  | cssInterrupt | hintsFiltered | msgEnvelopeBuf | retransmitInterval
  | threadStacksize | ackThresh | ioBufferSize | ioErrlog | rexmitBufSize
  | rexmitBufCnt | peAffinity | taskAffinity
  deriving DecidableEq

/-- What the configuration says about a parameter. -/
structure MPIParameterTP where
  MPIType : LineType
  env_var_name : String
  values : List String
  start : ℤ
  end_ : ℤ
  step : ℤ
  ranged : Bool
  deriving DecidableEq

/-- A parameter that only its kind and its name are known of. -/
def MPIParameterTP.init (MPIType : LineType) (env_var_name : String) : MPIParameterTP where
  MPIType := MPIType
  env_var_name := env_var_name
  values := []
  start := 0
  end_ := 0
  step := 0
  ranged := false

def eraseAt (type : LineType) (conftps : List MPIParameterTP) (i : ℕ) :
    Outcome (List MPIParameterTP) := do
  let conftp ← Outcome.elementAt conftps i
  .ok (if conftp.MPIType = type then conftps.eraseIdx i else conftps)

/-- One of the two loops. The number of elements is read before the first of them is
erased, and the index moves on after an erasure as well. -/
def eraseType (type : LineType) (conftps : List MPIParameterTP) : Outcome (List MPIParameterTP) :=
  (List.range conftps.length).foldlM (eraseAt type) conftps

def deleteEagerLimitAndBufferMem (conftps : List MPIParameterTP) :
    Outcome (List MPIParameterTP) := do
  let conftps ← eraseType .bufferMem conftps
  eraseType .eagerLimit conftps

section Erasing
variable {type : LineType}

theorem eraseAt_eq_ok {conftps conftps' : List MPIParameterTP} {i : ℕ} :
    eraseAt type conftps i = .ok conftps' ↔ ∃ conftp, conftps[i]? = some conftp ∧
      conftps' = if conftp.MPIType = type then conftps.eraseIdx i else conftps := by
  rw [eraseAt, Outcome.bind_eq_ok]
  simp [Outcome.elementAt_eq_ok, eq_comm]

/-- Where nothing was erased so far, the vector is what it was. -/
theorem erase_untouched {conftps conftps' : List MPIParameterTP} {n : ℕ}
    (hrun : (List.range n).foldlM (eraseAt type) conftps = .ok conftps') :
    conftps'.length ≤ conftps.length ∧ (conftps'.length = conftps.length →
      conftps' = conftps ∧ ∀ conftp ∈ conftps.take n, conftp.MPIType ≠ type) := by
  refine Outcome.foldlM_range (fun i (s : List MPIParameterTP) => s.length ≤ conftps.length ∧
    (s.length = conftps.length →
      s = conftps ∧ ∀ conftp ∈ conftps.take i, conftp.MPIType ≠ type)) ?_ (by simp) hrun
  rintro i s s' - ⟨hle, hsame⟩ hstep
  obtain ⟨conftp, hread, rfl⟩ := eraseAt_eq_ok.mp hstep
  have hlt : i < s.length := (List.getElem?_eq_some_iff.mp hread).1
  by_cases htype : conftp.MPIType = type
  · rw [if_pos htype, List.length_eraseIdx_of_lt hlt]
    exact ⟨by omega, fun heq => absurd heq (by omega)⟩
  · rw [if_neg htype]
    refine ⟨hle, fun heq => ⟨(hsame heq).1, ?_⟩⟩
    obtain ⟨rfl, hnone⟩ := hsame heq
    rw [List.take_add_one, hread]
    simpa [or_imp, forall_and] using ⟨hnone, htype⟩

theorem erase_nothing {conftps : List MPIParameterTP} {n : ℕ} (hn : n ≤ conftps.length)
    (hnone : ∀ conftp ∈ conftps.take n, conftp.MPIType ≠ type) :
    (List.range n).foldlM (eraseAt type) conftps = .ok conftps := by
  induction n with
  | zero => rfl
  | succ n ih =>
    have hread : conftps[n]? = some conftps[n] := List.getElem?_eq_getElem (by omega)
    rw [List.take_add_one, hread] at hnone
    have hrun := ih (by omega) fun conftp h => hnone conftp (List.mem_append_left _ h)
    have hlast : conftps[n].MPIType ≠ type :=
      hnone _ (List.mem_append_right _ (by simp))
    rw [List.range_succ, List.foldlM_append, hrun, Outcome.ok_bind, List.foldlM_cons,
      eraseAt_eq_ok.mpr ⟨_, hread, rfl⟩, if_neg hlast]
    rfl

/-- Nothing but the last element is of the type. -/
def OnlyLast (type : LineType) (conftps : List MPIParameterTP) : Prop :=
  ∀ conftp ∈ conftps.dropLast, conftp.MPIType ≠ type

instance (type : LineType) (conftps : List MPIParameterTP) : Decidable (OnlyLast type conftps) :=
  inferInstanceAs (Decidable (∀ _ ∈ _, _))

/-- A loop over a vector from which an element was erased does not get past the index that
is out of range by then. -/
theorem eraseType_eq_ok {conftps conftps' : List MPIParameterTP} :
    eraseType type conftps = .ok conftps' ↔
      OnlyLast type conftps ∧
        conftps' = conftps.filter fun conftp => conftp.MPIType ≠ type := by
  cases conftps using List.reverseRecOn with
  | nil => simp [eraseType, OnlyLast, eq_comm]
  | append_singleton init last =>
    have htake : (init ++ [last]).take init.length = init := List.take_left
    have hread : (init ++ [last])[init.length]? = some last := by simp
    have hfilter : (∀ conftp ∈ init, conftp.MPIType ≠ type) →
        (init ++ [last]).filter (fun conftp => conftp.MPIType ≠ type) =
          if last.MPIType = type then (init ++ [last]).eraseIdx init.length
          else init ++ [last] := by
      intro hnone
      have hinit : init.filter (fun conftp => conftp.MPIType ≠ type) = init :=
        List.filter_eq_self.mpr fun conftp h => decide_eq_true (hnone conftp h)
      rw [List.filter_append, hinit, List.eraseIdx_append_of_length_le le_rfl]
      by_cases hlast : last.MPIType = type <;> simp [hlast]
    rw [eraseType, List.length_append, List.length_singleton, List.range_succ,
      List.foldlM_append, Outcome.bind_eq_ok, OnlyLast, List.dropLast_concat]
    simp only [List.foldlM_cons, List.foldlM_nil, bind_pure]
    constructor
    · rintro ⟨s, hrun, hstep⟩
      obtain ⟨conftp, hget, rfl⟩ := eraseAt_eq_ok.mp hstep
      obtain ⟨hle, hsame⟩ := erase_untouched hrun
      have hlt : init.length < s.length := (List.getElem?_eq_some_iff.mp hget).1
      rw [List.length_append, List.length_singleton] at hle hsame
      obtain ⟨rfl, hnone⟩ := hsame (by omega)
      rw [htake] at hnone
      obtain rfl := Option.some.inj (hread.symm.trans hget)
      exact ⟨hnone, (hfilter hnone).symm⟩
    · rintro ⟨hnone, rfl⟩
      refine ⟨_, erase_nothing (by simp) (htake.symm ▸ hnone), ?_⟩
      exact eraseAt_eq_ok.mpr ⟨last, hread, hfilter hnone⟩

end Erasing

/-- The method returns, and the entries of the two types are gone. -/
def DeletesLimits (conftps : List MPIParameterTP) : Prop :=
  deleteEagerLimitAndBufferMem conftps = .ok (conftps.filter fun conftp =>
    conftp.MPIType ≠ .bufferMem ∧ conftp.MPIType ≠ .eagerLimit)

/-- The method returns, and the entry that is not to be set is gone. -/
def DeletesParameter {V : Type} (plugin : MPIParametersPlugin (V := V)) (val : MPIType)
    (values : Variant) : Prop :=
  ∃ values', deleteConfParameter plugin val values = .ok values' ∧
    values'.entries =
      values.entries.filter fun it => (plugin.tuningParameter it.1).name ≠ val.key

/-- The vector loses its entries where each of the two types has one at most, at the end;
the map must have none. -/
theorem deletes_iff {V : Type} (plugin : MPIParametersPlugin (V := V))
    (conftps : List MPIParameterTP) (val : MPIType) (values : Variant) :
    (DeletesLimits conftps ↔ OnlyLast .bufferMem conftps ∧
      OnlyLast .eagerLimit (conftps.filter fun conftp => conftp.MPIType ≠ .bufferMem)) ∧
    (DeletesParameter plugin val values ↔
      ∀ it ∈ values.entries, (plugin.tuningParameter it.1).name ≠ val.key) := by
  constructor
  · rw [DeletesLimits, deleteEagerLimitAndBufferMem, Outcome.bind_eq_ok]
    constructor
    · rintro ⟨rest, hbuffer, heager⟩
      obtain ⟨honly, rfl⟩ := eraseType_eq_ok.mp hbuffer
      exact ⟨honly, (eraseType_eq_ok.mp heager).1⟩
    · rintro ⟨hbuffer, heager⟩
      refine ⟨_, eraseType_eq_ok.mpr ⟨hbuffer, rfl⟩, eraseType_eq_ok.mpr ⟨heager, ?_⟩⟩
      rw [List.filter_filter]
      exact List.filter_congr fun conftp _ => by simp [Bool.and_comm]
  · constructor
    · rintro ⟨values', hrun, -⟩
      exact (deleteConfParameter_eq_ok.mp hrun).2
    · intro hnone
      refine ⟨values, deleteConfParameter_eq_ok.mpr ⟨rfl, hnone⟩, ?_⟩
      exact (List.filter_eq_self.mpr fun it h => decide_eq_true (hnone it h)).symm

/-- Both limits are configured, and the line that asks for their automatic choice follows. -/
theorem not_deletes : ¬ ∀ (plugin : MPIParametersPlugin (V := Unit)) (conftps : List MPIParameterTP)
    (val : MPIType) (values : Variant),
    DeletesLimits conftps ∧ DeletesParameter plugin val values := by
  intro h
  have hrun := (h ⟨fun _ => ⟨0, ""⟩, .empty, true, 0, ()⟩ [.init .bufferMem "buffer_mem",
    .init .eagerLimit "eager_limit", .init .autoEagerLimit "auto_eager_limit"]
    .taskAffinity .empty).1
  rw [DeletesLimits] at hrun
  exact absurd hrun (by decide)

end ReadexPtf.MpiParameters
