import ReadexPtf.Lib.OrdMap
import ReadexPtf.Lib.Outcome
import Mathlib

/-! The code regions of the application that an analysis agent knows. A region is found by a
key made of the numbers of its file and name and of its line. -/
namespace ReadexPtf.Agents
open ReadexPtf

/-- A code region; the type is only stored. -/
structure Region (RegionType : Type) where
  localRegionId : ℕ
  regionType : RegionType
  fileId : ℕ
  regionFirstLine : ℤ
  startPosition : ℤ
  endPosition : ℤ
  fileName : String
  name : String

/-- What a region is registered and looked up by. -/
structure Descriptor where
  name : String
  fileName : String
  regionFirstLine : ℤ
  deriving DecidableEq

/-- The arguments of `addSCOREPRegion`. -/
structure Registration (RegionType : Type) where
  regionFirstLine : ℤ
  fileName : String
  regName : String
  regionType : RegionType
  startPosition : ℤ
  endPosition : ℤ

def defaultRegionName : String := "psc_reg_name_none"
def defaultFileName : String := "psc_file_name_none"

/-- Empty names stand for the default names. -/
def requested (name fileName : String) (regionFirstLine : ℤ) : Descriptor where
  name := if name.isEmpty then defaultRegionName else name
  fileName := if fileName.isEmpty then defaultFileName else fileName
  regionFirstLine

section Models
variable {RegionType : Type}

def Region.descriptor (region : Region RegionType) : Descriptor :=
  ⟨region.name, region.fileName, region.regionFirstLine⟩

def Registration.descriptor (registration : Registration RegionType) : Descriptor :=
  requested registration.regName registration.fileName registration.regionFirstLine

def Descriptor.regionID (descriptor : Descriptor) : String :=
  descriptor.fileName ++ "*" ++ descriptor.name ++ "*" ++ toString descriptor.regionFirstLine

def Region.getRegionID (region : Region RegionType) : String := region.descriptor.regionID

/-- The regions are objects with an address, which is a position in `regions`. -/
structure Application (RegionType : Type) where
  idsByString : OrdMap String ℕ
  stringsById : OrdMap ℕ String
  lastStringId : ℕ
  regions : List (Region RegionType)
  codeRegions : OrdMap String ℕ
  regionByRegionKey : OrdMap ℕ ℕ

namespace Application

def start : Application RegionType where
  idsByString := .empty
  stringsById := .empty
  lastStringId := 1
  regions := []
  codeRegions := .empty
  regionByRegionKey := .empty

def getIDbyString (app : Application RegionType) (str : String) : Option ℕ :=
  app.idsByString.get? str

def getStringByID (app : Application RegionType) (stringId : ℕ) : String :=
  (app.stringsById.get? stringId).getD ""

/-- `strcmp( s.c_str(), "" ) == 0`. -/
def emptyCString (s : String) : Bool := s.toList.head?.all (· == '\x00')

/-- The number is an `int`. A number that is taken makes the empty loop go on forever. -/
def addString (app : Application RegionType) (str : String) :
    Outcome (Application RegionType × ℕ) :=
  match app.getIDbyString str with
  | some stringId => .ok (app, stringId)
  | none =>
    let lastStringId := app.lastStringId + 2
    if lastStringId < 2 ^ 31 ∧ emptyCString (app.getStringByID (app.lastStringId + 1)) then
      .ok ({ app with
        lastStringId
        stringsById := app.stringsById.set lastStringId str
        idsByString := app.idsByString.set str lastStringId }, lastStringId)
    else .undefined

/-- In 64 bits without a sign. -/
def hashRegionIdent (nameId fileId : ℕ) (regionFirstLine : ℤ) : ℕ :=
  (fileId * 10000000 + nameId * 10000 + (regionFirstLine % 2 ^ 64).toNat) % 2 ^ 64

def getRegionByKey (app : Application RegionType) (regionId : ℕ) : Option ℕ :=
  app.regionByRegionKey.get? regionId

def getRegionKeyByDescr (app : Application RegionType) (regionName fileName : String)
    (regionFirstLine : ℤ) : ℕ :=
  let descriptor := requested regionName fileName regionFirstLine
  match app.getIDbyString descriptor.fileName, app.getIDbyString descriptor.name with
  | some fileId, some nameId => hashRegionIdent nameId fileId regionFirstLine
  | _, _ => 0

def getRegionByDescr (app : Application RegionType) (regionName fileName : String)
    (regionFirstLine : ℤ) : Option ℕ :=
  let descriptor := requested regionName fileName regionFirstLine
  app.getRegionByKey
    (app.getRegionKeyByDescr descriptor.name descriptor.fileName regionFirstLine)

def getRegionByID (app : Application RegionType) (id : String) (allowNull : Bool) :
    Outcome (Option ℕ) :=
  match app.codeRegions.get? id with
  | some address => .ok (some address)
  | none => if allowNull then .ok none else .aborts

def addSCOREPRegion (app : Application RegionType) (registration : Registration RegionType) :
    Outcome (Application RegionType × ℕ) :=
  let descriptor := registration.descriptor
  match app.getRegionByDescr descriptor.name descriptor.fileName descriptor.regionFirstLine with
  | some existing => .ok (app, existing)
  | none => do
    let (app, nameId) ← app.addString descriptor.name
    let (app, fileId) ← app.addString descriptor.fileName
    let newRegionKey := hashRegionIdent nameId fileId descriptor.regionFirstLine
    let newRegion := app.regions.length
    let region : Region RegionType := ⟨newRegionKey, registration.regionType, fileId,
      descriptor.regionFirstLine, registration.startPosition, registration.endPosition,
      descriptor.fileName, descriptor.name⟩
    let app := { app with
      regions := app.regions ++ [region]
      codeRegions := app.codeRegions.insertNew region.getRegionID newRegion
      regionByRegionKey := app.regionByRegionKey.set newRegionKey newRegion }
    let test ← app.getRegionByID region.getRegionID true
    if test = some newRegion then return (app, newRegion) else .aborts

end Application

/-- What a client of the application does with regions. -/
inductive Use (RegionType : Type) where
  | addSCOREPRegion (registration : Registration RegionType)
  | getRegionByDescr (regionName fileName : String) (regionFirstLine : ℤ)

namespace Use

def run (app : Application RegionType) :
    Use RegionType → Outcome (Application RegionType × Option ℕ)
  | .addSCOREPRegion registration => do
    let (app, address) ← app.addSCOREPRegion registration
    return (app, some address)
  | .getRegionByDescr regionName fileName regionFirstLine =>
    .ok (app, app.getRegionByDescr regionName fileName regionFirstLine)

def step (app : Application RegionType) (use : Use RegionType) :
    Outcome (Application RegionType) := do
  let (app, _) ← use.run app
  return app

end Use
end Models

section Purpose
variable {RegionType : Type}

/-- Every region is found by its descriptor, its key and its id. -/
def Application.Intact (app : Application RegionType) : Prop :=
  ∀ (address : ℕ) (region : Region RegionType), app.regions[address]? = some region →
    app.getRegionByDescr region.name region.fileName region.regionFirstLine = some address ∧
    app.getRegionByKey region.localRegionId = some address ∧
    app.getRegionByID region.getRegionID false = .ok (some address)

/-- A registration returns a region with the requested descriptor, a lookup none or one. -/
def Use.Answers (app : Application RegionType) (result : Option ℕ) : Use RegionType → Prop
  | .addSCOREPRegion registration => ∃ address region, result = some address ∧
      app.regions[address]? = some region ∧ region.descriptor = registration.descriptor
  | .getRegionByDescr regionName fileName regionFirstLine => ∀ address, result = some address →
      ∃ region, app.regions[address]? = some region ∧
        region.descriptor = requested regionName fileName regionFirstLine

/-- Every use gets the right region, and after every use all regions are found. -/
def Exact : List (Use RegionType) → Application RegionType → Prop
  | [], _ => True
  | use :: uses, app => ∃ app' result, use.run app = .ok (app', result) ∧
      use.Answers app' result ∧ app'.Intact ∧ Exact uses app'

/-- The numbers that the names of a descriptor have, or get when they are added. -/
def Application.numbers (app : Application RegionType) (descriptor : Descriptor) : ℕ × ℕ :=
  let nameId := (app.getIDbyString descriptor.name).getD (app.lastStringId + 2)
  let afterName := if (app.getIDbyString descriptor.name).isSome then app.lastStringId
    else app.lastStringId + 2
  let fileId := if descriptor.fileName = descriptor.name then nameId
    else (app.getIDbyString descriptor.fileName).getD (afterName + 2)
  (nameId, fileId)

/-- No other region has the number that file, name and line of the requested one make, or its
id, and there is a number for a new name. -/
def Distinguished (app : Application RegionType) : Use RegionType → Prop
  | .addSCOREPRegion registration =>
    let descriptor := registration.descriptor
    let numbers := app.numbers descriptor
    (∀ region ∈ app.regions, region.localRegionId = app.getRegionKeyByDescr descriptor.name
        descriptor.fileName descriptor.regionFirstLine ∨
      region.localRegionId = Application.hashRegionIdent numbers.1 numbers.2
        descriptor.regionFirstLine ∨
      region.getRegionID = descriptor.regionID → region.descriptor = descriptor) ∧
    numbers.1 < 2 ^ 31 ∧ numbers.2 < 2 ^ 31
  | .getRegionByDescr regionName fileName regionFirstLine =>
    ∀ region ∈ app.regions, region.localRegionId =
        app.getRegionKeyByDescr regionName fileName regionFirstLine →
      region.descriptor = requested regionName fileName regionFirstLine

end Purpose
end ReadexPtf.Agents
