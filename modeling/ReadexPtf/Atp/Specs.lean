import ReadexPtf.Atp.Service

/-! Which messages are read back as they were sent. -/
namespace ReadexPtf.Atp
open Blocks

/-- The parameters sent for a domain, in order. -/
def sentTo (domains : List SentDomain) (name : Name) : List SentParameter :=
  parametersOf (domains.filter fun domain => domain.name.bytes = name)

/-- The parameter has the name and the values that were sent. -/
def Matches (sent : SentParameter) (parameter : TuningParameter) : Prop :=
  parameter.name = sent.name.bytes ∧
    match sent.values with
    | .range _ minimum maximum step => parameter.range = some (minimum, maximum, step)
    | .list _ _ values => parameter.range = none ∧
        parameter.stringValues = values.map fun value => decimal value.toInt

/-- Every domain is mapped to the parameters that were sent for it. -/
def Decoded (malloc : Allocator) (π : Traversal (Name × List Name)) (message : Message) : Prop :=
  ∃ atps, getATPSpecs malloc π message.encode = .ok atps ∧
    ∀ name, List.Forall₂ Matches (sentTo message.domains name) (atps name)

def SentDomain.paramNames (domain : SentDomain) : List Name :=
  domain.parameters.map fun parameter => parameter.name.bytes

/-- The names after one more domain. -/
def DomainNames.next (names : DomainNames) (domain : SentDomain) : DomainNames :=
  if domain.parameters = [] then names else names.insert domain.name.bytes domain.paramNames

/-- For each domain with parameters, the first list of names sent for it. -/
def listedNames (domains : List SentDomain) : List (Name × List Name) :=
  (domains.foldl DomainNames.next ⟨[], []⟩).mapping

/-- The tables of pointers, for which one byte is asked for each name, have room, and sizes
fit `int`. Names leave room for a 0. No list of values is sent. A parameter's name is in the
list of its own domain, and in that of no other. -/
structure Readable (malloc : Allocator) (message : Message) : Prop where
  domainTable : pointerSize * message.domains.length ≤ malloc.usable message.domains.length
  paramTable : pointerSize * message.parameters.length ≤ malloc.usable message.parameters.length
  domainBuffer : message.domains.length * slotSize + 1 < 2 ^ 31
  paramBuffer : message.parameters.length * slotSize + 1 < 2 ^ 31
  detailBuffer : (message.parameters.length * 3 + numberOfValues message.domains) * 4 < 2 ^ 31
  domainNames : ∀ domain ∈ message.domains, domain.name.bytes.length < slotSize
  paramNames : ∀ parameter ∈ message.parameters, parameter.name.bytes.length < slotSize
  noList : ∀ parameter ∈ message.parameters, ∀ kind hkind values,
    parameter.values = .list kind hkind values → values = []
  listed : ∀ domain ∈ message.domains, ∀ parameter ∈ domain.parameters,
    ∀ entry ∈ listedNames message.domains,
      parameter.name.bytes ∈ entry.2 ↔ entry.1 = domain.name.bytes

/-! Reading the blocks. -/

theorem size_ofNat {n : ℕ} (h : n < 2 ^ 31) : size (BitVec.ofNat 32 n) = .ok n := by
  have hnat : (BitVec.ofNat 32 n).toNat = n := by
    rw [BitVec.toNat_ofNat, Nat.mod_eq_of_lt (by omega)]
  have hint : (BitVec.ofNat 32 n).toInt = n := by
    rw [BitVec.toInt_eq_toNat_of_lt (by omega), hnat]
  rw [size, if_neg (by omega), hnat]

theorem intSize_eq_ok {bytes : ℕ} : intSize bytes = .ok () ↔ bytes < 2 ^ 31 := by
  rw [intSize]
  split_ifs with h
  · exact iff_of_true rfl h
  · exact iff_of_false (by simp) h

theorem length_details (parameter : SentParameter) :
    parameter.details.length = 3 + parameter.numberOfValues := by
  rw [SentParameter.details, SentParameter.numberOfValues]
  cases parameter.values with
  | range maxValues minimum maximum step => rfl
  | list kind hkind values =>
    simp only [List.length_append, List.length_cons, List.length_nil]

theorem length_flatMap_details (parameters : List SentParameter) :
    (parameters.flatMap SentParameter.details).length =
      parameters.length * 3 + (parameters.map SentParameter.numberOfValues).sum := by
  induction parameters with
  | nil => rfl
  | cons parameter parameters ih =>
    rw [List.flatMap_cons, List.length_append, ih, length_details, List.map_cons, List.sum_cons,
      List.length_cons]
    ring

theorem readLine_slots (strings : List (SlotString lineEnd slotSize)) (rest : List Byte) :
    readLine lineEnd (strings.length * slotSize) (strings.flatMap SlotString.slot ++ rest) =
      (strings.flatMap SlotString.slot, rest) := by
  have hnot : lineEnd ∉ strings.flatMap SlotString.slot :=
    lineEnd_notMem_slots (by decide) strings
  rw [← length_slots]
  exact readLine_full hnot rest

section Message
variable (malloc : Allocator) (π : Traversal (Name × List Name)) (message : Message)

def Message.domainBuffer : List Byte :=
  (message.domains.map SentDomain.name).flatMap SlotString.slot ++ [0]

def Message.paramBuffer : List Byte :=
  (message.parameters.map SentParameter.name).flatMap SlotString.slot ++ [0]

def Message.numbersOfParams : List Word :=
  message.domains.map fun domain => BitVec.ofNat 32 domain.parameters.length

/-- The blocks are read one after another. -/
theorem getATPSpecs_encode : getATPSpecs malloc π message.encode = (do
    intSize (message.domains.length * slotSize + 1)
    intSize (message.parameters.length * slotSize + 1)
    let names ← message.numbersOfParams.zipIdx.foldlM (readDomain malloc message.domains.length
      message.parameters.length message.domainBuffer message.paramBuffer) ⟨[], []⟩
    intSize ((message.parameters.length * 3 + numberOfValues message.domains) * 4)
    let specs ← (List.range message.parameters.length).foldlM (readParam π names.mapping
      names.paramNames (message.parameters.flatMap SentParameter.details)) ⟨0, fun _ => []⟩
    return specs.atps) := by
  have hcounts : ∀ rest, readInts 3 ([BitVec.ofNat 32 message.domains.length,
      BitVec.ofNat 32 message.parameters.length,
      BitVec.ofNat 32 (numberOfValues message.domains)].flatMap intBytes ++ rest) =
        .ok ([_, _, _], rest) := readInts_intBytes [_, _, _]
  have hdomains := readInts_intBytes message.numbersOfParams
  have hdetails := readInts_intBytes (message.parameters.flatMap SentParameter.details) []
  have hnames := readLine_slots (message.domains.map SentDomain.name)
  have hparams := readLine_slots (message.parameters.map SentParameter.name)
  have hlength : (message.parameters.flatMap SentParameter.details).length =
      message.parameters.length * 3 + numberOfValues message.domains :=
    length_flatMap_details message.parameters
  rw [List.append_nil, hlength] at hdetails
  rw [Message.numbersOfParams, List.length_map] at hdomains
  rw [List.length_map] at hnames hparams
  have hsizes : size (BitVec.ofNat 32 message.parameters.length) = .ok message.parameters.length :=
    size_ofNat message.fewParameters
  rw [getATPSpecs, Message.encode, hcounts]
  simp only [Outcome.ok_bind, List.getD_cons_zero, List.getD_cons_succ,
    size_ofNat message.fewDomains, hsizes, size_ofNat message.fewValues, hdomains, hnames, hparams,
    hdetails, Message.domainBuffer, Message.paramBuffer, Message.numbersOfParams]

/-! The loop over the domains. -/

/-- The name of parameter `k` can be stored and read. -/
def Message.ParamFits (k : ℕ) : Prop :=
  pointerSize * (k + 1) ≤ malloc.usable message.parameters.length ∧
    ∀ parameter, message.parameters[k]? = some parameter →
      parameter.name.bytes.length < slotSize

def Message.DomainFits (i : ℕ) : Prop :=
  pointerSize * (i + 1) ≤ malloc.usable message.domains.length ∧
    ∀ domain, message.domains[i]? = some domain → domain.name.bytes.length < slotSize

variable {malloc message}

theorem storePointer_eq_ok {asked i : ℕ} :
    storePointer malloc asked i = .ok () ↔ pointerSize * (i + 1) ≤ malloc.usable asked := by
  rw [storePointer]
  split_ifs with h
  · exact iff_of_true rfl h
  · exact iff_of_false (by simp) h

/-- A string of a table is stored and read if there is room for its pointer and its 0. -/
theorem storeSlot_eq_ok {strings : List (SlotString lineEnd slotSize)} {asked i : ℕ}
    {string : SlotString lineEnd slotSize} (h : strings[i]? = some string) {name : Name} :
    (storePointer malloc asked i >>= fun _ =>
        readSlot slotSize (strings.flatMap SlotString.slot ++ [0]) i) = .ok name ↔
      (pointerSize * (i + 1) ≤ malloc.usable asked ∧ string.bytes.length < slotSize) ∧
        name = string.bytes := by
  rw [Outcome.bind_eq_ok, readSlot_slots h]
  constructor
  · rintro ⟨_, hstore, hread⟩
    split_ifs at hread with hshort
    exact ⟨⟨storePointer_eq_ok.mp hstore, hshort⟩, (Outcome.ok.inj hread).symm⟩
  · rintro ⟨⟨hstore, hshort⟩, rfl⟩
    exact ⟨(), storePointer_eq_ok.mpr hstore, by rw [if_pos hshort]⟩

theorem readParamName_eq_ok {k : ℕ} {parameter : SentParameter}
    (h : message.parameters[k]? = some parameter) {name : Name} :
    readParamName malloc message.parameters.length message.paramBuffer k = .ok name ↔
      message.ParamFits malloc k ∧ name = parameter.name.bytes := by
  have hget : (message.parameters.map SentParameter.name)[k]? = some parameter.name := by
    rw [List.getElem?_map, h, Option.map_some]
  rw [readParamName, Message.paramBuffer, storeSlot_eq_ok hget, Message.ParamFits, h]
  simp

variable {names : DomainNames} {domain : SentDomain}

/-- The names of the parameters of a domain, of which the first is number `k`. -/
theorem readParamNames_eq_ok {k : ℕ}
    (h : ∀ j < domain.parameters.length, message.parameters[k + j]? = domain.parameters[j]?)
    {parameters : List Name} :
    ((List.range domain.parameters.length).mapM fun j =>
        readParamName malloc message.parameters.length message.paramBuffer (k + j)) =
          .ok parameters ↔
      (∀ j < domain.parameters.length, message.ParamFits malloc (k + j)) ∧
        parameters = domain.paramNames := by
  have heach : ∀ j ∈ List.range domain.parameters.length, ∀ name,
      readParamName malloc message.parameters.length message.paramBuffer (k + j) = .ok name ↔
        message.ParamFits malloc (k + j) ∧ name = (domain.paramNames[j]?).getD [] := by
    intro j hj name
    have hlt := List.mem_range.mp hj
    have hget := h j hlt
    rw [List.getElem?_eq_getElem hlt] at hget
    rw [readParamName_eq_ok hget, SentDomain.paramNames, List.getElem?_map,
      List.getElem?_eq_getElem hlt]
    rfl
  have hall : (List.range domain.parameters.length).map
      (fun j => (domain.paramNames[j]?).getD []) = domain.paramNames := by
    have hlength : domain.parameters.length = domain.paramNames.length :=
      (List.length_map _).symm
    rw [hlength]
    apply List.ext_getElem (by simp)
    intro j hj hj'
    simp only [List.getElem_map, List.getElem_range, List.getElem?_eq_getElem hj', Option.getD_some]
  rw [Outcome.mapM_returns_iff heach, hall]
  simp only [List.mem_range]

theorem readDomain_eq_ok {i : ℕ} (hdomain : message.domains[i]? = some domain)
    (hparams : ∀ j < domain.parameters.length,
      message.parameters[names.paramNames.length + j]? = domain.parameters[j]?)
    {names' : DomainNames} :
    readDomain malloc message.domains.length message.parameters.length message.domainBuffer
        message.paramBuffer names (BitVec.ofNat 32 domain.parameters.length, i) = .ok names' ↔
      message.DomainFits malloc i ∧
        (∀ j < domain.parameters.length,
          message.ParamFits malloc (names.paramNames.length + j)) ∧
        names' = names.next domain := by
  have hget : (message.domains.map SentDomain.name)[i]? = some domain.name := by
    rw [List.getElem?_map, hdomain, Option.map_some]
  have hname : ∀ name, (storePointer malloc message.domains.length i >>= fun _ =>
      readSlot slotSize message.domainBuffer i) = .ok name ↔
        message.DomainFits malloc i ∧ name = domain.name.bytes := by
    intro name
    rw [Message.domainBuffer, storeSlot_eq_ok hget, Message.DomainFits, hdomain]
    simp
  have hfew : domain.parameters.length < 2 ^ 31 := by
    refine lt_of_le_of_lt ?_ message.fewParameters
    rw [parametersOf, List.length_flatMap]
    exact List.le_sum_of_mem (List.mem_map_of_mem (List.mem_of_getElem? hdomain))
  have hnat : (BitVec.ofNat 32 domain.parameters.length).toNat = domain.parameters.length := by
    rw [BitVec.toNat_ofNat, Nat.mod_eq_of_lt (by omega)]
  have hnonneg : ¬ (BitVec.ofNat 32 domain.parameters.length).toInt < 0 := by
    rw [BitVec.toInt_eq_toNat_of_lt (by omega)]
    omega
  have hzero : BitVec.ofNat 32 domain.parameters.length = 0 ↔ domain.parameters = [] := by
    rw [← List.length_eq_zero_iff, ← BitVec.toNat_inj, hnat]
    rfl
  have hsplit : readDomain malloc message.domains.length message.parameters.length
      message.domainBuffer message.paramBuffer names
        (BitVec.ofNat 32 domain.parameters.length, i) =
      ((storePointer malloc message.domains.length i >>= fun _ =>
        readSlot slotSize message.domainBuffer i) >>= fun name =>
        if domain.parameters = [] then .ok names
        else (List.range domain.parameters.length).mapM (fun j =>
          readParamName malloc message.parameters.length message.paramBuffer
            (names.paramNames.length + j)) >>= fun parameters =>
              .ok (names.insert name parameters)) := by
    rw [readDomain, bind_assoc]
    simp only [hzero, hnonneg, if_false, hnat]
    rfl
  rw [hsplit, Outcome.bind_eq_ok, DomainNames.next]
  split_ifs with hnone
  · constructor
    · rintro ⟨name, hread, heq⟩
      refine ⟨((hname name).mp hread).1, fun j hj => ?_, (Outcome.ok.inj heq).symm⟩
      rw [hnone] at hj
      exact absurd hj (Nat.not_lt_zero j)
    · rintro ⟨hfits, _, rfl⟩
      exact ⟨_, (hname _).mpr ⟨hfits, rfl⟩, rfl⟩
  · constructor
    · rintro ⟨name, hread, hrest⟩
      obtain ⟨hfits, rfl⟩ := (hname name).mp hread
      obtain ⟨parameters, hread', heq⟩ := Outcome.bind_eq_ok.mp hrest
      obtain ⟨hall, rfl⟩ := (readParamNames_eq_ok hparams).mp hread'
      exact ⟨hfits, hall, (Outcome.ok.inj heq).symm⟩
    · rintro ⟨hfits, hall, rfl⟩
      refine ⟨_, (hname _).mpr ⟨hfits, rfl⟩, ?_⟩
      rw [(readParamNames_eq_ok hparams).mpr ⟨hall, rfl⟩]
      rfl

theorem DomainNames.paramNames_next :
    (names.next domain).paramNames = names.paramNames ++ domain.paramNames := by
  rw [DomainNames.next]
  split_ifs with hnone
  · rw [SentDomain.paramNames, hnone, List.map_nil, List.append_nil]
  · rfl

/-- The loop goes on with the domains behind those that are done. -/
theorem foldlM_readDomain {rest : List SentDomain} : ∀ {done : List SentDomain}
    {names names' : DomainNames}, message.domains = done ++ rest →
    names.paramNames.length = (parametersOf done).length →
    (((rest.map fun domain => BitVec.ofNat 32 domain.parameters.length).zipIdx
        done.length).foldlM (readDomain malloc message.domains.length message.parameters.length
          message.domainBuffer message.paramBuffer) names = .ok names' ↔
      (∀ i, done.length ≤ i → i < message.domains.length → message.DomainFits malloc i) ∧
      (∀ k, (parametersOf done).length ≤ k → k < message.parameters.length →
        message.ParamFits malloc k) ∧ names' = rest.foldl DomainNames.next names) := by
  induction rest with
  | nil =>
    intro done names names' hdone hlength
    have hparams : message.parameters.length = (parametersOf done).length := by
      rw [Message.parameters, hdone, List.append_nil]
    rw [hdone, List.append_nil, hparams]
    constructor
    · intro heq
      exact ⟨fun i hi hlt => absurd hlt (Nat.not_lt.mpr hi),
        fun k hk hlt => absurd hlt (Nat.not_lt.mpr hk), (Outcome.ok.inj heq).symm⟩
    · rintro ⟨_, _, rfl⟩
      rfl
  | cons domain rest ih =>
    intro done names names' hdone hlength
    have hnext : message.domains = (done ++ [domain]) ++ rest := by
      rw [hdone, List.append_assoc, List.singleton_append]
    have hcount : (parametersOf (done ++ [domain])).length =
        (parametersOf done).length + domain.parameters.length := by
      simp [parametersOf]
    have hlength' : (names.next domain).paramNames.length =
        (parametersOf (done ++ [domain])).length := by
      rw [DomainNames.paramNames_next, List.length_append, hlength, hcount,
        SentDomain.paramNames, List.length_map]
    have hget : message.domains[done.length]? = some domain := by
      rw [hdone, List.getElem?_append_right (Nat.le_refl _)]
      simp
    have hall : message.parameters =
        parametersOf done ++ (domain.parameters ++ parametersOf rest) := by
      simp [Message.parameters, hdone, parametersOf]
    have hparams : ∀ j < domain.parameters.length,
        message.parameters[names.paramNames.length + j]? = domain.parameters[j]? := by
      intro j hj
      rw [hall, hlength, List.getElem?_append_right (by omega), Nat.add_sub_cancel_left,
        List.getElem?_append_left hj]
    have htotal : (parametersOf (done ++ [domain])).length ≤ message.parameters.length := by
      rw [hall, hcount, List.length_append, List.length_append]
      omega
    have hdoneLength : (done ++ [domain]).length = done.length + 1 := by simp
    have hlast : done.length < message.domains.length := by
      rw [hdone, List.length_append, List.length_cons]
      omega
    rw [hcount] at htotal
    rw [List.map_cons, List.zipIdx_cons, List.foldlM_cons, Outcome.bind_eq_ok, List.foldl_cons]
    constructor
    · rintro ⟨next, hstep, hrest⟩
      obtain ⟨hdomain, hparam, rfl⟩ := (readDomain_eq_ok hget hparams).mp hstep
      rw [← hdoneLength] at hrest
      obtain ⟨hdomains, hparams', hfinal⟩ := (ih hnext hlength').mp hrest
      refine ⟨fun i hi hlt => ?_, fun k hk hlt => ?_, hfinal⟩
      · by_cases heq : i = done.length
        · exact heq ▸ hdomain
        · exact hdomains i (by omega) hlt
      · by_cases hown : k < (parametersOf done).length + domain.parameters.length
        · have hparam' := hparam (k - (parametersOf done).length) (by omega)
          rwa [hlength, Nat.add_sub_cancel' hk] at hparam'
        · exact hparams' k (by omega) hlt
    · rintro ⟨hdomains, hparam, hfinal⟩
      refine ⟨names.next domain, (readDomain_eq_ok hget hparams).mpr
        ⟨hdomains _ (Nat.le_refl _) (by omega), fun j hj => ?_, rfl⟩, ?_⟩
      · exact hparam _ (by omega) (by omega)
      · rw [← hdoneLength]
        exact (ih hnext hlength').mpr ⟨fun i hi hlt => hdomains i (by omega) hlt,
          fun k hk hlt => hparam k (by omega) hlt, hfinal⟩

/-- The names of all domains are read if they all fit. -/
theorem readDomains_eq_ok {names' : DomainNames} :
    message.numbersOfParams.zipIdx.foldlM (readDomain malloc message.domains.length
        message.parameters.length message.domainBuffer message.paramBuffer) ⟨[], []⟩ =
          .ok names' ↔
      (∀ i < message.domains.length, message.DomainFits malloc i) ∧
      (∀ k < message.parameters.length, message.ParamFits malloc k) ∧
      names' = message.domains.foldl DomainNames.next ⟨[], []⟩ := by
  have hrun := @foldlM_readDomain malloc message message.domains [] ⟨[], []⟩ names' rfl rfl
  simpa [parametersOf, Message.numbersOfParams] using hrun

/-- All elements fit if the table has room for them all and each is short enough. -/
theorem forall_fits {α : Type} {xs : List α} {room : ℕ} {short : α → Prop} :
    (∀ i < xs.length, pointerSize * (i + 1) ≤ room ∧ ∀ x, xs[i]? = some x → short x) ↔
      pointerSize * xs.length ≤ room ∧ ∀ x ∈ xs, short x := by
  constructor
  · intro h
    constructor
    · cases hlength : xs.length with
      | zero => exact Nat.zero_le room
      | succ n => exact (h n (by omega)).1
    · intro x hx
      obtain ⟨i, hi⟩ := List.mem_iff_getElem?.mp hx
      exact (h i (List.getElem?_eq_some_iff.mp hi).1).2 x hi
  · rintro ⟨hroom, hshort⟩ i hi
    refine ⟨le_trans (Nat.mul_le_mul_left pointerSize hi) hroom, fun x hx => ?_⟩
    exact hshort x (List.mem_of_getElem? hx)

theorem paramNames_foldl_next {domains : List SentDomain} : ∀ {names : DomainNames},
    (domains.foldl DomainNames.next names).paramNames = names.paramNames ++
      (parametersOf domains).map fun parameter => parameter.name.bytes := by
  induction domains with
  | nil =>
    intro names
    simp [parametersOf]
  | cons domain domains ih =>
    intro names
    rw [List.foldl_cons, ih, DomainNames.paramNames_next, List.append_assoc,
      SentDomain.paramNames]
    simp [parametersOf]

/-! The loop over the parameters. -/

variable {π} {mapping : List (Name × List Name)}

/-- The domain that is found for a name. -/
def lookup (π : Traversal (Name × List Name)) (mapping : List (Name × List Name)) (name : Name) :
    Option Name :=
  ((π.order mapping).find? fun entry => name ∈ entry.2).map Prod.fst

/-- What is made of a parameter. -/
def made (parameter : SentParameter) : TuningParameter :=
  match parameter.values with
  | .range _ minimum maximum step =>
    (TuningParameter.new parameter.name.bytes).setRange minimum maximum step
  | .list _ _ _ => .new parameter.name.bytes

/-- The number behind the details of the first parameters. -/
theorem elementAt_details {done rest : List SentParameter} {parameter : SentParameter} {offset : ℕ}
    {value : Word} (h : parameter.details[offset]? = some value) :
    Outcome.elementAt ((done ++ parameter :: rest).flatMap SentParameter.details)
      (((done.flatMap SentParameter.details).length : ℤ) + offset) = .ok value := by
  have hlt := (List.getElem?_eq_some_iff.mp h).1
  have hget : ((done ++ parameter :: rest).flatMap SentParameter.details)[
      (done.flatMap SentParameter.details).length + offset]? = some value := by
    rw [List.flatMap_append, List.getElem?_append_right (by omega), Nat.add_sub_cancel_left,
      List.flatMap_cons, List.getElem?_append_left hlt, h]
  have hcast : (((done.flatMap SentParameter.details).length : ℤ) + offset) =
      ((done.flatMap SentParameter.details).length + offset : ℕ) := by push_cast; rfl
  rw [hcast, Outcome.elementAt, if_pos (Int.natCast_nonneg _), Int.toNat_natCast, hget]

/-- The running offset behind the details of the first parameters. -/
def offset (parameters : List SentParameter) : ℤ :=
  ((parameters.flatMap SentParameter.details).length : ℤ)

theorem numberOfValues_lt {parameter : SentParameter} (h : parameter ∈ message.parameters) :
    parameter.numberOfValues < 2 ^ 31 := by
  refine lt_of_le_of_lt ?_ message.fewValues
  exact List.le_sum_of_mem (List.mem_map_of_mem h)

theorem readParam_eq {done rest : List SentParameter} {parameter : SentParameter}
    (h : message.parameters = done ++ parameter :: rest) (atps : Name → List TuningParameter) :
    readParam π mapping (message.parameters.map fun parameter => parameter.name.bytes)
        (message.parameters.flatMap SentParameter.details) ⟨offset done, atps⟩ done.length =
      (Outcome.found (lookup π mapping parameter.name.bytes) >>= fun domain =>
        .ok ⟨offset (done ++ [parameter]),
          Function.update atps domain (atps domain ++ [made parameter])⟩) := by
  have hname : (message.parameters.map fun parameter => parameter.name.bytes)[done.length]? =
      some parameter.name.bytes := by
    rw [h, List.map_append, List.getElem?_append_right (by simp)]
    simp
  have hnext : offset (done ++ [parameter]) = offset done + parameter.details.length := by
    simp [offset]
  have hfew : parameter.numberOfValues < 2 ^ 31 := numberOfValues_lt (by rw [h]; simp)
  have helement : ∀ (j : ℕ) (value : Word), parameter.details[j]? = some value →
      Outcome.elementAt (message.parameters.flatMap SentParameter.details) (offset done + j) =
        .ok value := by
    intro j value hvalue
    rw [h]
    exact elementAt_details hvalue
  have hkindAt : ∀ kind, parameter.details[0]? = some kind →
      Outcome.elementAt (message.parameters.flatMap SentParameter.details) (offset done) =
        .ok kind := by
    intro kind hkind
    have hat := helement 0 kind hkind
    rwa [Nat.cast_zero, add_zero] at hat
  rw [readParam, hname, Outcome.found, Outcome.ok_bind, hnext]
  dsimp only
  cases hvalues : parameter.values with
  | range maxValues minimum maximum step =>
    have hdetails : parameter.details =
        [1, parameter.default, maxValues, minimum, maximum, step] := by
      rw [SentParameter.details, hvalues]
    rw [hdetails] at helement hkindAt ⊢
    have hmade : readRange (message.parameters.flatMap SentParameter.details) 1 (offset done)
        parameter.name.bytes = .ok (made parameter) := by
      rw [readRange, if_pos rfl, made, hvalues]
      have hstart := helement 3 minimum rfl
      have hstop := helement 4 maximum rfl
      have hincr := helement 5 step rfl
      push_cast at hstart hstop hincr
      rw [hstart, Outcome.ok_bind, hstop, Outcome.ok_bind, hincr, Outcome.ok_bind]
      rfl
    have hmax := helement 2 maxValues rfl
    push_cast at hmax
    rw [hkindAt 1 rfl, Outcome.ok_bind, hmax, Outcome.ok_bind, hmade, Outcome.ok_bind, if_pos rfl,
      getDomainByParamName, lookup, add_assoc]
    rfl
  | list kind hkind values =>
    have hdetails : parameter.details =
        [kind, parameter.default, BitVec.ofNat 32 values.length] ++ values := by
      rw [SentParameter.details, hvalues]
    have hlength : values.length < 2 ^ 31 := by
      rwa [SentParameter.numberOfValues, hvalues] at hfew
    have hint : (BitVec.ofNat 32 values.length).toInt = values.length := by
      rw [BitVec.toInt_eq_toNat_of_lt (by rw [BitVec.toNat_ofNat]; omega), BitVec.toNat_ofNat,
        Nat.mod_eq_of_lt (by omega)]
    rw [hdetails] at helement hkindAt ⊢
    have hmade : readRange (message.parameters.flatMap SentParameter.details) kind (offset done)
        parameter.name.bytes = .ok (made parameter) := by
      rw [readRange, if_neg hkind, made, hvalues]
    have hmax := helement 2 (BitVec.ofNat 32 values.length) rfl
    push_cast at hmax
    have hsum : offset done + 3 + values.length =
        offset done + (([kind, parameter.default, BitVec.ofNat 32 values.length] ++ values).length :
          ℕ) := by
      simp only [List.length_append, List.length_cons, List.length_nil]
      push_cast
      ring
    rw [hkindAt kind rfl, Outcome.ok_bind, hmax, Outcome.ok_bind, hmade, Outcome.ok_bind,
      if_neg hkind, hint, hsum, getDomainByParamName, lookup]
    rfl

/-- What the parameters that are found for a domain have been made. -/
def found (π : Traversal (Name × List Name)) (mapping : List (Name × List Name))
    (parameters : List SentParameter) (name : Name) : List TuningParameter :=
  (parameters.filter fun parameter => lookup π mapping parameter.name.bytes = some name).map made

/-- The loop goes on with the parameters behind those that are done. -/
theorem foldlM_readParam {rest : List SentParameter} : ∀ {done : List SentParameter}
    {atps : Name → List TuningParameter} {specs : Specs}, message.parameters = done ++ rest →
    ((List.range' done.length rest.length).foldlM (readParam π mapping
        (message.parameters.map fun parameter => parameter.name.bytes)
        (message.parameters.flatMap SentParameter.details)) ⟨offset done, atps⟩ = .ok specs ↔
      (∀ parameter ∈ rest, ∃ domain, lookup π mapping parameter.name.bytes = some domain) ∧
      specs = ⟨offset (done ++ rest), fun name => atps name ++ found π mapping rest name⟩) := by
  induction rest with
  | nil =>
    intro done atps specs _
    simp [found, eq_comm]
  | cons parameter rest ih =>
    intro done atps specs h
    have hnext : message.parameters = (done ++ [parameter]) ++ rest := by
      rw [h, List.append_assoc, List.singleton_append]
    have hlength : (done ++ [parameter]).length = done.length + 1 := by simp
    rw [List.length_cons, List.range'_succ, List.foldlM_cons, readParam_eq h, ← hlength,
      List.forall_mem_cons]
    cases hlookup : lookup π mapping parameter.name.bytes with
    | none => exact iff_of_false (by simp [Outcome.found]) (fun hall => by simp at hall)
    | some domain =>
      have hself : ∃ other, some domain = some other := ⟨domain, rfl⟩
      rw [Outcome.found, Outcome.ok_bind, Outcome.ok_bind, ih hnext, List.append_assoc,
        List.singleton_append, and_iff_right hself]
      have hfound : ∀ name, Function.update atps domain (atps domain ++ [made parameter]) name ++
          found π mapping rest name = atps name ++ found π mapping (parameter :: rest) name := by
        intro name
        rw [found, found, List.filter_cons, hlookup, Function.update_apply]
        by_cases heq : name = domain
        · simp [heq]
        · simp [heq, Ne.symm heq]
      simp only [hfound]

theorem readParams_eq_ok {specs : Specs} :
    (List.range message.parameters.length).foldlM (readParam π mapping
        (message.parameters.map fun parameter => parameter.name.bytes)
        (message.parameters.flatMap SentParameter.details)) ⟨0, fun _ => []⟩ = .ok specs ↔
      (∀ parameter ∈ message.parameters,
        ∃ domain, lookup π mapping parameter.name.bytes = some domain) ∧
      specs = ⟨offset message.parameters, found π mapping message.parameters⟩ := by
  rw [List.range_eq_range']
  exact @foldlM_readParam π message mapping message.parameters [] (fun _ => []) specs rfl

/-- A message is read if everything fits and every parameter is found in some domain. -/
theorem getATPSpecs_eq_ok {atps : Name → List TuningParameter} :
    getATPSpecs malloc π message.encode = .ok atps ↔
      (message.domains.length * slotSize + 1 < 2 ^ 31 ∧
        message.parameters.length * slotSize + 1 < 2 ^ 31 ∧
        (message.parameters.length * 3 + numberOfValues message.domains) * 4 < 2 ^ 31) ∧
      ((∀ i < message.domains.length, message.DomainFits malloc i) ∧
        ∀ k < message.parameters.length, message.ParamFits malloc k) ∧
      (∀ parameter ∈ message.parameters,
        ∃ domain, lookup π (listedNames message.domains) parameter.name.bytes = some domain) ∧
      atps = found π (listedNames message.domains) message.parameters := by
  have hnames : (message.domains.foldl DomainNames.next ⟨[], []⟩).paramNames =
      message.parameters.map fun parameter => parameter.name.bytes := paramNames_foldl_next
  have hlisted : (message.domains.foldl DomainNames.next ⟨[], []⟩).mapping =
      listedNames message.domains := rfl
  rw [getATPSpecs_encode]
  constructor
  · intro h
    obtain ⟨_, hdomains, h⟩ := Outcome.bind_eq_ok.mp h
    obtain ⟨_, hparams, h⟩ := Outcome.bind_eq_ok.mp h
    obtain ⟨names, hread, h⟩ := Outcome.bind_eq_ok.mp h
    obtain ⟨_, hdetails, h⟩ := Outcome.bind_eq_ok.mp h
    obtain ⟨specs, hspecs, h⟩ := Outcome.bind_eq_ok.mp h
    obtain ⟨hdomainFits, hparamFits, rfl⟩ := readDomains_eq_ok.mp hread
    rw [hnames] at hspecs
    obtain ⟨hfound, rfl⟩ := readParams_eq_ok.mp hspecs
    exact ⟨⟨intSize_eq_ok.mp hdomains, intSize_eq_ok.mp hparams, intSize_eq_ok.mp hdetails⟩,
      ⟨hdomainFits, hparamFits⟩, hfound, (Outcome.ok.inj h).symm⟩
  · rintro ⟨⟨hdomains, hparams, hdetails⟩, ⟨hdomainFits, hparamFits⟩, hfound, rfl⟩
    rw [intSize_eq_ok.mpr hdomains, Outcome.ok_bind, intSize_eq_ok.mpr hparams, Outcome.ok_bind,
      readDomains_eq_ok.mpr ⟨hdomainFits, hparamFits, rfl⟩, Outcome.ok_bind,
      intSize_eq_ok.mpr hdetails, Outcome.ok_bind, hnames, hlisted,
      readParams_eq_ok.mpr ⟨hfound, rfl⟩]
    rfl

/-! The lists of names. -/

theorem listedNames_nodup (domains : List SentDomain) :
    ((listedNames domains).map Prod.fst).Nodup := by
  have hfold : ∀ (domains : List SentDomain) (names : DomainNames),
      (names.mapping.map Prod.fst).Nodup →
      ((domains.foldl DomainNames.next names).mapping.map Prod.fst).Nodup := by
    intro domains
    induction domains with
    | nil => exact fun _ h => h
    | cons domain domains ih =>
      intro names h
      apply ih
      rw [DomainNames.next]
      split_ifs
      · exact h
      · rw [DomainNames.insert]
        dsimp only
        split_ifs with hmem
        · exact h
        · rw [List.map_append]
          exact List.nodup_append'.mpr ⟨h, List.nodup_singleton _,
            List.disjoint_singleton.mpr hmem⟩
  exact hfold domains ⟨[], []⟩ List.nodup_nil

theorem mem_next_mapping {entry : Name × List Name} (h : entry ∈ (names.next domain).mapping) :
    entry ∈ names.mapping ∨ entry = (domain.name.bytes, domain.paramNames) := by
  rw [DomainNames.next] at h
  split_ifs at h
  · exact .inl h
  · rw [DomainNames.insert] at h
    dsimp only at h
    split_ifs at h
    · exact .inl h
    · rwa [List.mem_append, List.mem_singleton] at h

/-- A list of names is one that was sent. -/
theorem mem_listedNames {domains : List SentDomain} {entry : Name × List Name}
    (h : entry ∈ listedNames domains) :
    ∃ domain ∈ domains, entry = (domain.name.bytes, domain.paramNames) := by
  have hfold : ∀ (domains : List SentDomain) (names : DomainNames),
      entry ∈ (domains.foldl DomainNames.next names).mapping → entry ∈ names.mapping ∨
        ∃ domain ∈ domains, entry = (domain.name.bytes, domain.paramNames) := by
    intro domains
    induction domains with
    | nil => exact fun _ h => .inl h
    | cons domain domains ih =>
      intro names h
      cases ih (names.next domain) h with
      | inl hmem =>
        cases mem_next_mapping hmem with
        | inl hold => exact .inl hold
        | inr hnew => exact .inr ⟨domain, List.mem_cons_self, hnew⟩
      | inr hlater =>
        obtain ⟨other, hother, heq⟩ := hlater
        exact .inr ⟨other, List.mem_cons_of_mem domain hother, heq⟩
  cases hfold domains ⟨[], []⟩ h with
  | inl hnone => exact absurd hnone List.not_mem_nil
  | inr hsent => exact hsent

/-- Every domain with parameters has a list. -/
theorem exists_listedNames {domains : List SentDomain} {domain : SentDomain}
    (hdomain : domain ∈ domains) (hsome : domain.parameters ≠ []) :
    ∃ entry ∈ listedNames domains, entry.1 = domain.name.bytes := by
  have hkeep : ∀ (domains : List SentDomain) (names : DomainNames) (name : Name),
      name ∈ names.mapping.map Prod.fst →
      name ∈ (domains.foldl DomainNames.next names).mapping.map Prod.fst := by
    intro domains
    induction domains with
    | nil => exact fun _ _ h => h
    | cons domain domains ih =>
      intro names name h
      apply ih
      rw [DomainNames.next]
      split_ifs
      · exact h
      · rw [DomainNames.insert]
        dsimp only
        split_ifs
        · exact h
        · rw [List.map_append]
          exact List.mem_append_left _ h
  obtain ⟨before, after, rfl⟩ := List.append_of_mem hdomain
  have hown : domain.name.bytes ∈ ((before.foldl DomainNames.next ⟨[], []⟩).next
      domain).mapping.map Prod.fst := by
    rw [DomainNames.next, if_neg hsome, DomainNames.insert]
    dsimp only
    split_ifs with hmem
    · exact hmem
    · simp
  have hmem := hkeep after _ _ hown
  rw [← List.foldl_cons, ← List.foldl_append] at hmem
  obtain ⟨entry, hentry, heq⟩ := List.mem_map.mp hmem
  exact ⟨entry, hentry, heq⟩

theorem lookup_eq_some {name found : Name} (h : lookup π mapping name = some found) :
    ∃ entry ∈ mapping, name ∈ entry.2 ∧ entry.1 = found := by
  obtain ⟨entry, hfind, rfl⟩ := Option.map_eq_some_iff.mp h
  have hname : name ∈ entry.2 := by simpa using List.find?_some hfind
  exact ⟨entry, (π.mem_order).mp (List.mem_of_find?_eq_some hfind), hname, rfl⟩

theorem exists_lookup {name : Name} {entry : Name × List Name} (hentry : entry ∈ mapping)
    (hname : name ∈ entry.2) : ∃ found, lookup π mapping name = some found := by
  have hsome : ((π.order mapping).find? fun entry => name ∈ entry.2).isSome := by
    rw [List.find?_isSome]
    exact ⟨entry, (π.mem_order).mpr hentry, decide_eq_true hname⟩
  obtain ⟨first, hfirst⟩ := Option.isSome_iff_exists.mp hsome
  exact ⟨first.1, by rw [lookup, hfirst, Option.map_some]⟩

/-! Which messages are decoded. -/

theorem mem_sentTo {domains : List SentDomain} {name : Name} {parameter : SentParameter} :
    parameter ∈ sentTo domains name ↔
      ∃ domain ∈ domains, domain.name.bytes = name ∧ parameter ∈ domain.parameters := by
  simp only [sentTo, parametersOf, List.mem_flatMap, List.mem_filter, decide_eq_true_eq, and_assoc]

theorem mem_parameters {parameter : SentParameter} :
    parameter ∈ message.parameters ↔ ∃ domain ∈ message.domains, parameter ∈ domain.parameters :=
  List.mem_flatMap

theorem made_name (parameter : SentParameter) : (made parameter).name = parameter.name.bytes := by
  rw [made]
  cases parameter.values <;> rfl

/-- A parameter is made as it was sent unless it has a list of values. -/
theorem matches_made {parameter : SentParameter} : Matches parameter (made parameter) ↔
    ∀ kind hkind values, parameter.values = .list kind hkind values → values = [] := by
  rw [Matches, made_name, and_iff_right rfl, made]
  cases hvalues : parameter.values with
  | range maxValues minimum maximum step =>
    exact iff_of_true rfl fun kind hkind values heq => by cases heq
  | list kind hkind values =>
    constructor
    · rintro ⟨_, hnone⟩ kind' hkind' values' heq
      cases heq
      exact List.map_eq_nil_iff.mp hnone.symm
    · intro h
      rw [h kind hkind values rfl]
      exact ⟨rfl, rfl⟩

theorem Decoded.lookup_own {atps : Name → List TuningParameter}
    (hatps : atps = found π mapping message.parameters)
    (hsent : ∀ name, List.Forall₂ Matches (sentTo message.domains name) (atps name)) {domain : SentDomain}
    (hdomain : domain ∈ message.domains) {parameter : SentParameter}
    (hparameter : parameter ∈ domain.parameters) :
    lookup π mapping parameter.name.bytes = some domain.name.bytes ∧
      ∀ kind hkind values, parameter.values = .list kind hkind values → values = [] := by
  have hmem : parameter ∈ sentTo message.domains domain.name.bytes :=
    mem_sentTo.mpr ⟨domain, hdomain, rfl, hparameter⟩
  obtain ⟨tuning, htuning, hmatches⟩ : ∃ tuning ∈ atps domain.name.bytes,
      Matches parameter tuning := by
    obtain ⟨i, hi, rfl⟩ := List.mem_iff_getElem.mp hmem
    have hlength := (hsent domain.name.bytes).length_eq
    exact ⟨_, List.getElem_mem (hlength ▸ hi), (hsent domain.name.bytes).get hi (hlength ▸ hi)⟩
  rw [hatps] at htuning
  obtain ⟨other, hother, rfl⟩ := List.mem_map.mp htuning
  have hfound := of_decide_eq_true (List.mem_filter.mp hother).2
  have hname := hmatches.1
  rw [made_name] at hname
  rw [hname] at hfound
  refine ⟨hfound, fun kind hkind values hvalues => ?_⟩
  obtain ⟨_, hmatch⟩ := hmatches
  rw [hvalues] at hmatch
  have hstrings : (made other).stringValues = [] := by
    rw [made]
    cases other.values <;> rfl
  rw [hstrings] at hmatch
  exact List.map_eq_nil_iff.mp hmatch.2.symm

theorem fits_iff : ((∀ i < message.domains.length, message.DomainFits malloc i) ∧
      ∀ k < message.parameters.length, message.ParamFits malloc k) ↔
    (pointerSize * message.domains.length ≤ malloc.usable message.domains.length ∧
      ∀ domain ∈ message.domains, domain.name.bytes.length < slotSize) ∧
    (pointerSize * message.parameters.length ≤ malloc.usable message.parameters.length ∧
      ∀ parameter ∈ message.parameters, parameter.name.bytes.length < slotSize) :=
  and_congr forall_fits forall_fits

/-- The parameters that are found for a domain are those that were sent for it. -/
theorem found_eq_map {domains : List SentDomain} {name : Name}
    (h : ∀ domain ∈ domains, ∀ parameter ∈ domain.parameters,
      lookup π mapping parameter.name.bytes = some domain.name.bytes) :
    found π mapping (parametersOf domains) name = (sentTo domains name).map made := by
  induction domains with
  | nil => rfl
  | cons domain domains ih =>
    obtain ⟨hself, hothers⟩ := List.forall_mem_cons.mp h
    have hrest := ih hothers
    rw [found] at hrest ⊢
    rw [parametersOf, List.flatMap_cons, List.filter_append, List.map_append, ← parametersOf, hrest,
      sentTo, sentTo, List.filter_cons]
    by_cases heq : domain.name.bytes = name
    · have hall : domain.parameters.filter
          (fun parameter => lookup π mapping parameter.name.bytes = some name) =
            domain.parameters := by
        rw [List.filter_eq_self]
        intro parameter hparameter
        rw [hself parameter hparameter, heq]
        exact decide_eq_true rfl
      rw [hall, if_pos (decide_eq_true heq), parametersOf, parametersOf, List.flatMap_cons,
        List.map_append]
    · have hnone : domain.parameters.filter
          (fun parameter => lookup π mapping parameter.name.bytes = some name) = [] := by
        rw [List.filter_eq_nil_iff]
        intro parameter hparameter
        rw [hself parameter hparameter]
        simp [heq]
      rw [hnone, if_neg (by simp [heq])]
      rfl

theorem Decoded.readable (h : Decoded malloc π message) : Readable malloc message := by
  obtain ⟨atps, hrun, hsent⟩ := h
  obtain ⟨⟨hdomains, hparams, hdetails⟩, hfits, hfound, hatps⟩ := getATPSpecs_eq_ok.mp hrun
  obtain ⟨⟨hdomainTable, hdomainNames⟩, hparamTable, hparamNames⟩ := fits_iff.mp hfits
  have hown : ∀ domain ∈ message.domains, ∀ parameter ∈ domain.parameters, _ :=
    fun domain hdomain parameter hparameter =>
      Decoded.lookup_own hatps hsent hdomain hparameter
  refine ⟨hdomainTable, hparamTable, hdomains, hparams, hdetails, hdomainNames, hparamNames, ?_, ?_⟩
  · intro parameter hparameter
    obtain ⟨domain, hdomain, hmem⟩ := mem_parameters.mp hparameter
    exact (hown domain hdomain parameter hmem).2
  · intro domain hdomain parameter hparameter entry hentry
    have hlookup := (hown domain hdomain parameter hparameter).1
    constructor
    · intro hname
      obtain ⟨other, hother, rfl⟩ := mem_listedNames hentry
      obtain ⟨twin, htwin, hsame⟩ := List.mem_map.mp hname
      have hlookup' := (hown other hother twin htwin).1
      rw [hsame, hlookup] at hlookup'
      exact (Option.some.inj hlookup').symm
    · intro heq
      obtain ⟨own, hown', hname, hfirst⟩ := lookup_eq_some hlookup
      have hsame := List.inj_on_of_nodup_map (listedNames_nodup message.domains) hown' hentry
        (hfirst.trans heq.symm)
      exact hsame ▸ hname

theorem Readable.decoded (h : Readable malloc message) : Decoded malloc π message := by
  have hown : ∀ domain ∈ message.domains, ∀ parameter ∈ domain.parameters,
      lookup π (listedNames message.domains) parameter.name.bytes =
        some domain.name.bytes := by
    intro domain hdomain parameter hparameter
    obtain ⟨own, hown, hfirst⟩ :=
      exists_listedNames hdomain (List.ne_nil_of_mem hparameter)
    have hname := (h.listed domain hdomain parameter hparameter own hown).mpr hfirst
    obtain ⟨name, hlookup⟩ : ∃ name, lookup π (listedNames message.domains)
      parameter.name.bytes = some name := exists_lookup hown hname
    obtain ⟨entry, hentry, hmem, hentryName⟩ := lookup_eq_some hlookup
    rw [hlookup, ← hentryName,
      (h.listed domain hdomain parameter hparameter entry hentry).mp hmem]
  refine ⟨_, getATPSpecs_eq_ok.mpr ⟨⟨h.domainBuffer, h.paramBuffer, h.detailBuffer⟩,
    fits_iff.mpr ⟨⟨h.domainTable, h.domainNames⟩, h.paramTable, h.paramNames⟩, ?_, rfl⟩, ?_⟩
  · intro parameter hparameter
    obtain ⟨domain, hdomain, hmem⟩ := mem_parameters.mp hparameter
    exact ⟨_, hown domain hdomain parameter hmem⟩
  · intro name
    rw [Message.parameters, found_eq_map hown, List.forall₂_map_right_iff, List.forall₂_same]
    intro parameter hparameter
    obtain ⟨domain, hdomain, _, hmem⟩ := mem_sentTo.mp hparameter
    exact matches_made.mpr (h.noList parameter (mem_parameters.mpr ⟨domain, hdomain, hmem⟩))

end Message

/-- A message is decoded as it was sent just if it is readable, for every allocator and every
order in which the table of the domains is searched. -/
theorem decoded_iff (malloc : Allocator) (π : Traversal (Name × List Name)) (message : Message) :
    Decoded malloc π message ↔ Readable malloc message :=
  ⟨Decoded.readable, Readable.decoded⟩

/-- One domain with one parameter that has the list of the one value 7. -/
def listMessage : Message where
  domains := [⟨⟨[100], by decide, by decide, by decide⟩,
    [⟨⟨[112], by decide, by decide, by decide⟩, 7, .list 2 (by decide) [7]⟩]⟩]
  fewDomains := by decide
  fewParameters := by decide
  fewValues := by decide

/-- The value is lost, even where every allocation leaves room. -/
theorem not_decoded : ¬ ∀ malloc π message, Decoded malloc π message := by
  intro h
  have hreadable := (h ⟨fun n => n + 24, fun n => Nat.le_add_right n 24⟩ .inserted listMessage).readable
  have hnone := hreadable.noList _ (List.mem_singleton.mpr rfl) 2 (by decide) [7] rfl
  cases hnone

end ReadexPtf.Atp
