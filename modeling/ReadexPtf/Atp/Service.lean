import ReadexPtf.Lib.Blocks
import ReadexPtf.Lib.Formatted
import ReadexPtf.Lib.Traversal

/-! The client of the server for application tuning parameters: the specifications that
`getATPSpecs` reads from the socket. -/
namespace ReadexPtf.Atp
open Blocks

abbrev Word := BitVec 32
abbrev Name := List Byte

def lineEnd : Byte := 10
def slotSize : ℕ := 100
def pointerSize : ℕ := 8

/-- How many bytes at an address from `malloc` belong to the program: those asked for, and
what the allocator has rounded them up to. -/
structure Allocator where
  usable : ℕ → ℕ
  asked : ∀ n, n ≤ usable n

/-- What the constructor and the setters have given a value; the value list of a parameter
goes to the strings. -/
structure TuningParameter where
  name : Name
  range : Option (Word × Word × Word)
  stringValues : List Text
  deriving DecidableEq

instance : LawfulBEq Name := inferInstance

def TuningParameter.new (name : Name) : TuningParameter := ⟨name, none, []⟩

def TuningParameter.setRange (parameter : TuningParameter) (start stop incr : Word) :
    TuningParameter :=
  { parameter with range := some (start, stop, incr) }

/-- A number of things, as an `int32_t`. -/
def size (value : Word) : Outcome ℕ :=
  if value.toInt < 0 then .undefined else .ok value.toNat

/-- A number of bytes, as an `int`. -/
def intSize (bytes : ℕ) : Outcome Unit :=
  if bytes < 2 ^ 31 then .ok () else .undefined

section Allocation
variable (malloc : Allocator)

/-- `table[ i ] = pointer` in a table that `malloc( asked )` has made. -/
def storePointer (asked i : ℕ) : Outcome Unit :=
  if pointerSize * (i + 1) ≤ malloc.usable asked then .ok () else .undefined

/-- `domain_paramNames_mapping_` and the parameter names so far. -/
structure DomainNames where
  mapping : List (Name × List Name)
  paramNames : List Name

/-- `insert`: an entry that is there stays. -/
def DomainNames.insert (names : DomainNames) (domain : Name) (parameters : List Name) :
    DomainNames :=
  ⟨if domain ∈ names.mapping.map Prod.fst then names.mapping
    else names.mapping ++ [(domain, parameters)], names.paramNames ++ parameters⟩

/-- The name of parameter `k`. -/
def readParamName (numberOfParams : ℕ) (buf1 : List Byte) (k : ℕ) : Outcome Name := do
  storePointer malloc numberOfParams k
  readSlot slotSize buf1 k

/-- One round of the loop over the domains. -/
def readDomain (numberOfDomains numberOfParams : ℕ) (buf buf1 : List Byte) (names : DomainNames)
    (domain : Word × ℕ) : Outcome DomainNames := do
  storePointer malloc numberOfDomains domain.2
  let name ← readSlot slotSize buf domain.2
  if domain.1 = 0 then return names
  else if domain.1.toInt < 0 then .throws "cannot create std::vector larger than max_size()"
  else do
    let parameters ← (List.range domain.1.toNat).mapM fun j =>
      readParamName malloc numberOfParams buf1 (names.paramNames.length + j)
    return names.insert name parameters

end Allocation

section Lookup
variable (π : Traversal (Name × List Name))

/-- The end of the function is reached without a value if no domain has the name. -/
def getDomainByParamName (mapping : List (Name × List Name)) (name : Name) : Outcome Name :=
  Outcome.found (((π.order mapping).find? fun entry => name ∈ entry.2).map Prod.fst)

/-- Where the values of the next parameter start, and the vectors of the domains. -/
structure Specs where
  idx : ℤ
  atps : Name → List TuningParameter

/-- The values of a parameter that is not a range are only printed. -/
def readRange (details : List Word) (kind : Word) (idx : ℤ) (name : Name) :
    Outcome TuningParameter :=
  if kind = 1 then do
    let start ← Outcome.elementAt details (idx + 3)
    let stop ← Outcome.elementAt details (idx + 4)
    let incr ← Outcome.elementAt details (idx + 5)
    return (TuningParameter.new name).setRange start stop incr
  else .ok (.new name)

/-- One round of the loop over the parameters. -/
def readParam (mapping : List (Name × List Name)) (paramNames : List Name) (details : List Word)
    (specs : Specs) (i : ℕ) : Outcome Specs := do
  let name ← Outcome.found paramNames[i]?
  let kind ← Outcome.elementAt details specs.idx
  let maxValues ← Outcome.elementAt details (specs.idx + 2)
  let parameter ← readRange details kind specs.idx name
  let domain ← getDomainByParamName π mapping name
  return ⟨specs.idx + 3 + if kind = 1 then 3 else maxValues.toInt,
    Function.update specs.atps domain (specs.atps domain ++ [parameter])⟩

end Lookup

/-- The service has not been asked before. -/
def getATPSpecs (malloc : Allocator) (π : Traversal (Name × List Name)) (stream : List Byte) :
    Outcome (Name → List TuningParameter) := do
  let (counts, stream) ← readInts 3 stream
  let numberOfDomains ← size (counts.getD 0 0)
  let numberOfParams ← size (counts.getD 1 0)
  let totalParamValues ← size (counts.getD 2 0)
  let (domainDetails, stream) ← readInts numberOfDomains stream
  intSize (numberOfDomains * slotSize + 1)
  let (buf, stream) := readLine lineEnd (numberOfDomains * slotSize) stream
  intSize (numberOfParams * slotSize + 1)
  let (buf1, stream) := readLine lineEnd (numberOfParams * slotSize) stream
  let names ← domainDetails.zipIdx.foldlM
    (readDomain malloc numberOfDomains numberOfParams (buf ++ [0]) (buf1 ++ [0])) ⟨[], []⟩
  intSize ((numberOfParams * 3 + totalParamValues) * 4)
  let (details, _) ← readInts (numberOfParams * 3 + totalParamValues) stream
  let specs ← (List.range numberOfParams).foldlM
    (readParam π names.mapping names.paramNames details) ⟨0, fun _ => []⟩
  return specs.atps

/-! What the server sends. -/

/-- A range parameter, or one with a list of values. -/
inductive Values where
  | range (maxValues minimum maximum step : Word)
  | list (kind : Word) (notRange : kind ≠ 1) (values : List Word)

structure SentParameter where
  name : SlotString lineEnd slotSize
  default : Word
  values : Values

structure SentDomain where
  name : SlotString lineEnd slotSize
  parameters : List SentParameter

/-- The type, the default, the number of values, and the values. -/
def SentParameter.details (parameter : SentParameter) : List Word :=
  match parameter.values with
  | .range maxValues minimum maximum step =>
    [1, parameter.default, maxValues, minimum, maximum, step]
  | .list kind _ values =>
    [kind, parameter.default, BitVec.ofNat 32 values.length] ++ values

def SentParameter.numberOfValues (parameter : SentParameter) : ℕ :=
  match parameter.values with
  | .range _ _ _ _ => 3
  | .list _ _ values => values.length

def parametersOf (domains : List SentDomain) : List SentParameter :=
  domains.flatMap SentDomain.parameters

def numberOfValues (domains : List SentDomain) : ℕ :=
  ((parametersOf domains).map SentParameter.numberOfValues).sum

/-- The numbers are sent as `int32_t`. -/
structure Message where
  domains : List SentDomain
  fewDomains : domains.length < 2 ^ 31
  fewParameters : (parametersOf domains).length < 2 ^ 31
  fewValues : numberOfValues domains < 2 ^ 31

def Message.parameters (message : Message) : List SentParameter := parametersOf message.domains

def Message.encode (message : Message) : List Byte :=
  [BitVec.ofNat 32 message.domains.length, BitVec.ofNat 32 message.parameters.length,
    BitVec.ofNat 32 (numberOfValues message.domains)].flatMap intBytes ++
  ((message.domains.map fun domain => BitVec.ofNat 32 domain.parameters.length).flatMap intBytes ++
  ((message.domains.map SentDomain.name).flatMap SlotString.slot ++
  ((message.parameters.map SentParameter.name).flatMap SlotString.slot ++
  (message.parameters.flatMap SentParameter.details).flatMap intBytes)))

end ReadexPtf.Atp
