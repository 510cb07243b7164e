import ReadexPtf.Registry.Tokens
import ReadexPtf.Lib.OrdMap

/-! The registry server: the messages of its protocol, and the commands on its entries. -/
namespace ReadexPtf.Registry

def success (msg : Text) : Text := "+OK ".toList ++ msg ++ ['\n']
def error (msg : Text) : Text := "-ERR ".toList ++ msg ++ ['\n']

def strCreateUsage : Text := "Usage: CREATE app=<app_name> site=<site_name> ".toList ++
  "mach=<mach_name> node=<node_name> port=<port> pid=<pid> comp=<component> tag=<tag>".toList
def strEntryUsage : Text := "[app=<app_name>] [site=<site_name>] [mach=<mach_name>] ".toList ++
  "[node=<node_name>] [port=<port>] [pid=<pid>] [comp=<component>] [tag=<tag>]".toList
def strSearchUsage : Text := "Usage: SEARCH ".toList ++ strEntryUsage
def strChangeUsage : Text := "Usage: CHANGE <entry id> ".toList ++ strEntryUsage

def strBadFormat : Text := "bad format.".toList
def strIncompleteData : Text := "incomplete data.".toList
def strEntryNotFound : Text := "no such entry ID".toList

def strEndOfMultiline : Text := ".".toList
def strEntryData : Text := "ID %d app=\"%s \" site=\"%s \" mach=\"%s \" node=\"%s \" ".toList ++
  "port=%d pid=%d comp=\"%s \" tag=\"%s \"\n".toList

def msgCreateBadFormat : Text := error (strBadFormat ++ ' ' :: strCreateUsage)
def msgCreateIncomplete : Text := error (strIncompleteData ++ ' ' :: strCreateUsage)
def msgCreateSuccess : Text := success "entry ID is %d".toList
def msgSearchBadFormat : Text := error (strBadFormat ++ ' ' :: strSearchUsage)
def msgSearchSuccess : Text := success "displaying search results".toList
def msgChangeBadFormat : Text := error (strBadFormat ++ ' ' :: strChangeUsage)
def msgChangeEntryNotFound : Text := error strEntryNotFound
def msgChangeIncomplete : Text := error (strIncompleteData ++ ' ' :: strChangeUsage)
def msgChangeSuccess : Text := success "applied changes to entry %d".toList
def msgDeleteNotFound : Text := error strEntryNotFound
def msgDeleteSuccess : Text := success "entry %d deleted".toList
def msgListSuccess : Text := success "%d entries in registry".toList
def msgCleanSuccess : Text := success "%d entries deleted".toList
def msgShowNotFound : Text := error strEntryNotFound
def msgShowSuccess : Text := success "showing entry %d".toList

/-- The numbers of an entry that is being created may not have been set yet. -/
structure RegEntry (ι : Type) where
  app : Text
  site : Text
  mach : Text
  node : Text
  port : ι
  pid : ι
  comp : Text
  tag : Text
  deriving DecidableEq, Repr

namespace RegEntry
variable {ι : Type}

/-- The strings of an entry. -/
def strings (entry : RegEntry ι) : List Text :=
  [entry.app, entry.site, entry.mach, entry.node, entry.comp, entry.tag]

/-- One pair of a command line; `none` for a key that no entry has. -/
def assign (ofInt : ℤ → ι) (entry : RegEntry ι) (pair : Text × Text) : Option (RegEntry ι) :=
  let key := pair.1
  let value := pair.2
  if key = [] then some entry
  else if key = "app".toList then some { entry with app := value }
  else if key = "site".toList then some { entry with site := value }
  else if key = "mach".toList then some { entry with mach := value }
  else if key = "node".toList then some { entry with node := value }
  else if key = "port".toList then
    some { entry with port := ofInt (atoi (String.ofList value)) }
  else if key = "pid".toList then some { entry with pid := ofInt (atoi (String.ofList value)) }
  else if key = "comp".toList then some { entry with comp := value }
  else if key = "tag".toList then some { entry with tag := value }
  else none

def assignAll (ofInt : ℤ → ι) (entry : RegEntry ι) (pairs : List (Text × Text)) :
    Option (RegEntry ι) :=
  pairs.foldlM (assign ofInt) entry

/-- The entry as constructed: the numbers are not initialised. -/
def unset : RegEntry (Option ℤ) := ⟨[], [], [], [], none, none, [], []⟩

def Incomplete (entry : RegEntry ℤ) : Prop :=
  entry.app = [] ∨ entry.site = [] ∨ entry.mach = [] ∨ entry.node = [] ∨ entry.port < 0 ∨
    entry.pid = 0 ∨ entry.comp = [] ∨ entry.tag = []

instance (entry : RegEntry ℤ) : Decidable entry.Incomplete := by
  unfold Incomplete
  infer_instance

/-- The check of a new entry reads the numbers once the strings before them are there. -/
def checked (entry : RegEntry (Option ℤ)) : Outcome (Option (RegEntry ℤ)) :=
  if entry.app = [] ∨ entry.site = [] ∨ entry.mach = [] ∨ entry.node = [] then .ok none
  else
    match entry.port with
    | none => .undefined
    | some port =>
      if port < 0 then .ok none
      else
        match entry.pid with
        | none => .undefined
        | some pid =>
          let set : RegEntry ℤ := { entry with port := port, pid := pid }
          if set.Incomplete then .ok none else .ok (some set)

/-- What a search leaves empty or zero matches everything. -/
def matched (query entry : RegEntry ℤ) : Bool :=
  (query.app = [] || query.app = entry.app) &&
  (query.site = [] || query.site = entry.site) &&
  (query.mach = [] || query.mach = entry.mach) &&
  (query.node = [] || query.node = entry.node) &&
  (query.port = 0 || query.port = entry.port) &&
  (query.pid = 0 || query.pid = entry.pid) &&
  (query.comp = [] || query.comp = entry.comp) &&
  (query.tag = [] || query.tag = entry.tag)

/-- The arguments of the entry format. -/
def values (id : ℤ) (entry : RegEntry ℤ) : List Value :=
  [.number id, .text entry.app, .text entry.site, .text entry.mach, .text entry.node,
    .number entry.port, .number entry.pid, .text entry.comp, .text entry.tag]

/-- `strEntryData` with an entry. -/
def line (id : ℤ) (entry : RegEntry ℤ) : Text := printed (conversions strEntryData) (values id entry)

end RegEntry

structure RegServ where
  regData : OrdMap ℤ (RegEntry ℤ)
  nextId : ℤ
  deriving DecidableEq

namespace RegServ

def init : RegServ := ⟨.empty, 1⟩

/-- The counter is an `int`. -/
def uniqueId (serv : RegServ) : Outcome (ℤ × RegServ) :=
  if serv.nextId < 2 ^ 31 - 1 then .ok (serv.nextId, { serv with nextId := serv.nextId + 1 })
  else .undefined

def setEntry (serv : RegServ) (id : ℤ) (entry : RegEntry ℤ) : RegServ :=
  { serv with regData := serv.regData.set id entry }

/-- A reply that leaves the entries alone. -/
def answer (serv : RegServ) (size : ℕ) (format : Text) (args : List Value) :
    Outcome (RegServ × Text) := do
  let reply ← sprintf size format args
  return (serv, reply)

def addEntry (serv : RegServ) (entry : RegEntry ℤ) : Outcome (RegServ × Text) := do
  let (id, serv) ← serv.uniqueId
  (serv.setEntry id entry).answer 400 msgCreateSuccess [.number id]

/-- The new entry that a command line describes. -/
def created (pos : Option Text) : Option (RegEntry (Option ℤ)) :=
  RegEntry.unset.assignAll some (keyValuePairs id pos)

def onCreate (serv : RegServ) (pos : Option Text) : Outcome (RegServ × Text) :=
  match created pos with
  | none => serv.answer 400 msgCreateBadFormat []
  | some entry => do
    match ← entry.checked with
    | none => serv.answer 400 msgCreateIncomplete []
    | some entry => serv.addEntry entry

def writeEntries (serv : RegServ) (size : ℕ) (head : Text) (entries : List (ℤ × RegEntry ℤ)) :
    Outcome (RegServ × Text) := do
  let lines ← entries.mapM fun it => sprintf size strEntryData (it.2.values it.1)
  let last ← sprintf size "%s\n".toList [.text strEndOfMultiline]
  return (serv, head ++ lines.flatten ++ last)

def onList (serv : RegServ) : Outcome (RegServ × Text) := do
  let head ← sprintf 400 msgListSuccess [.number serv.regData.entries.length]
  serv.writeEntries 400 head serv.regData.entries

/-- The entry id at the start of the arguments. -/
def entryId (pos : Option Text) : ℤ × Option Text :=
  let (tok, pos) := getToken " ".toList (pos.getD [])
  (atoi (String.ofList tok), pos)

def onShow (serv : RegServ) (pos : Option Text) : Outcome (RegServ × Text) :=
  let id := (entryId pos).1
  match serv.regData.get? id with
  | none => serv.answer 400 msgShowNotFound []
  | some entry => do
    let head ← sprintf 400 msgShowSuccess [.number id]
    let line ← sprintf 400 strEntryData (entry.values id)
    return (serv, head ++ line)

def onDelete (serv : RegServ) (pos : Option Text) : Outcome (RegServ × Text) :=
  let id := (entryId pos).1
  match serv.regData.get? id with
  | none => serv.answer 400 msgDeleteNotFound []
  | some _ =>
    { serv with regData := serv.regData.filterKeys fun key => key != id }.answer 400
      msgDeleteSuccess [.number id]

/-- The query of a search. -/
def searched (pos : Option Text) : Option (RegEntry ℤ) :=
  (⟨[], [], [], [], 0, 0, [], []⟩ : RegEntry ℤ).assignAll id (keyValuePairs id pos)

def found (serv : RegServ) (query : RegEntry ℤ) : List (ℤ × RegEntry ℤ) :=
  serv.regData.entries.filter fun it => query.matched it.2

def onSearch (serv : RegServ) (pos : Option Text) : Outcome (RegServ × Text) :=
  match searched pos with
  | none => serv.answer 200 msgSearchBadFormat []
  | some query => do
    let head ← sprintf 200 msgSearchSuccess []
    serv.writeEntries 200 head (serv.found query)

/-- The loop erases the entry that its iterator points to, and then increments the iterator. -/
def onClean (serv : RegServ) : Outcome (RegServ × Text) :=
  match serv.regData.entries with
  | [] => serv.answer 200 msgCleanSuccess [.number 0]
  | _ :: _ => .undefined

/-- An entry as the pairs of a command line leave it. -/
def changed (entry : RegEntry ℤ) (pos : Option Text) : Option (RegEntry ℤ) :=
  entry.assignAll id (keyValuePairs (fun rest => (strskipWs rest).getD []) pos)

def onChange (serv : RegServ) (pos : Option Text) : Outcome (RegServ × Text) :=
  let (id, pos) := entryId pos
  match serv.regData.get? id with
  | none => serv.answer 200 msgChangeEntryNotFound []
  | some entry =>
    match changed entry pos with
    | none => serv.answer 200 msgChangeBadFormat []
    | some entry =>
      if entry.Incomplete then serv.answer 200 msgChangeIncomplete []
      else (serv.setEntry id entry).answer 200 msgChangeSuccess [.number id]

end RegServ

inductive Command where
  | create
  | search
  | delete
  | list
  | showEntry
  | clean
  | change
  deriving DecidableEq, Repr

def commands : List (Text × Command) :=
  [("CREATE".toList, .create), ("SEARCH".toList, .search), ("DELETE".toList, .delete),
    ("DEL".toList, .delete), ("LIST".toList, .list), ("SHOW".toList, .showEntry),
    ("CLEAN".toList, .clean), ("CHANGE".toList, .change)]

/-- `strcasecmp`. -/
def commandOf (word : Text) : Option Command :=
  (commands.find? fun entry => entry.1.map Char.toLower = word.map Char.toLower).map Prod.snd

def RegServ.on (serv : RegServ) (pos : Option Text) : Command → Outcome (RegServ × Text)
  | .create => serv.onCreate pos
  | .search => serv.onSearch pos
  | .delete => serv.onDelete pos
  | .list => serv.onList
  | .showEntry => serv.onShow pos
  | .clean => serv.onClean
  | .change => serv.onChange pos

/-- One line of a client, without its end. The other commands leave the entries alone; what
they reply is left out. -/
def RegServ.handleInput (serv : RegServ) (line : Text) : Outcome (RegServ × Text) :=
  if line.length < 400 then
    let (command, pos) := getToken " ".toList line
    match commandOf command with
    | none => .ok (serv, [])
    | some command => serv.on pos command
  else .undefined

/-- The first line of what a client writes. The rest is read with the next command. -/
def received (text : Text) : Text := (text.takeWhile fun c => c != '\n').filter fun c => c != '\r'

end ReadexPtf.Registry
