import ReadexPtf.Registry.Server

/-! The clients of the registry: the requests they write, and how they read the replies. -/
namespace ReadexPtf.Registry

/-- The line that is read next, and the stream behind it. -/
def socketReadLine (maxlen : ℕ) (stream : Text) : Text × Text :=
  let line := (stream.take (maxlen - 1)).takeWhile fun c => c != '\n'
  let rest := stream.drop line.length
  (line, if line.length < maxlen - 1 then rest.tail else rest)

/-- `BUFSIZE`. -/
def bufSize : ℕ := 512

def strcat (line text : Text) : Outcome Text :=
  if (line ++ text).length < bufSize then .ok (line ++ text) else .undefined

/-- What a request says about an entry, part by part. A null pointer and a number that is not
positive are left out. -/
def requestParts (app site mach node : Option Text) (port pid : ℤ) (comp tag : Option Text) :
    List (Text × Value) :=
  (app.map fun app => ("app=\"%s\" ".toList, Value.text app)).toList ++
  (site.map fun site => ("site=\"%s\" ".toList, Value.text site)).toList ++
  (mach.map fun mach => ("mach=\"%s\" ".toList, Value.text mach)).toList ++
  (node.map fun node => ("node=\"%s\" ".toList, Value.text node)).toList ++
  (if 0 < port then [("port=%d ".toList, Value.number port)] else []) ++
  (if 0 < pid then [("pid=%d ".toList, Value.number pid)] else []) ++
  (comp.map fun comp => ("comp=\"%s\"".toList, Value.text comp)).toList ++
  (tag.map fun tag => ("tag=\"%s\"".toList, Value.text tag)).toList

/-- One part is written into `buf`, and appended to `line`. -/
def appendPart (buffers : Option Text × Text) (part : Text × Value) :
    Outcome (Option Text × Text) := do
  let buf ← sprintf bufSize part.1 [part.2]
  let line ← strcat buffers.2 buf
  return (some buf, line)

/-- `buf` and `line` after the request has been written; `buf` is not initialised. -/
def writeRequest (head : Text) (parts : List (Text × Value)) : Outcome (Option Text × Text) := do
  let (buf, line) ← parts.foldlM appendPart (none, head)
  let line ← strcat line ['\n']
  return (buf, line)

/-- The entry as the server leaves it, and the value returned. The reply is read into `line`,
but `buf` is scanned. -/
def registryChangeEntry (serv : RegServ) (entid : ℤ) (app site mach node : Option Text)
    (port pid : ℤ) (comp tag : Option Text) : Outcome (RegServ × ℤ) := do
  let head ← sprintf bufSize "%s %d ".toList [.text "CHANGE".toList, .number entid]
  let (buf, line) ← writeRequest head (requestParts app site mach node port pid comp tag)
  let (serv, _) ← serv.handleInput (received line)
  match buf with
  | none => .undefined
  | some buf =>
    match sscanf buf msgCreateSuccess with
    | .number id :: _ => return (serv, id)
    | _ => return (serv, 0)

/-- `RegistryService::change_entry`: every string is passed on. -/
def changeEntry (serv : RegServ) (data : RegEntry ℤ) (id : ℤ) : Outcome (RegServ × ℤ) := do
  let (serv, ret) ← registryChangeEntry serv id (some data.app) (some data.site) (some data.mach)
    (some data.node) data.port data.pid (some data.comp) (some data.tag)
  return (serv, if ret = 0 then -1 else 0)

/-- What a call has filled in; the other parameters are left as they were. -/
structure Filled where
  app : Option Text
  site : Option Text
  mach : Option Text
  node : Option Text
  port : Option ℤ
  pid : Option ℤ
  comp : Option Text
  tag : Option Text
  deriving DecidableEq, Repr

/-- The last value of a key. -/
def valueOf (kv : List (Text × Text)) (key : Text) : Option Text :=
  (kv.reverse.find? fun pair => pair.1 = key).map Prod.snd

/-- A number that has not been found, or is negative, is not filled in. -/
def numberOf (kv : List (Text × Text)) (key : Text) : Option ℤ :=
  ((valueOf kv key).map fun val => atoi (String.ofList val)).filter fun n => -1 < n

/-- The pointer of the tag is the only one that is not initialised. -/
def fill (kv : List (Text × Text)) : Outcome Filled :=
  match valueOf kv "tag".toList with
  | none => .undefined
  | some tag => .ok
    { app := valueOf kv "app".toList
      site := valueOf kv "site".toList
      mach := valueOf kv "mach".toList
      node := valueOf kv "node".toList
      port := numberOf kv "port".toList
      pid := numberOf kv "pid".toList
      comp := valueOf kv "comp".toList
      tag := some tag }

/-- The entry id and what was filled in; `none` where 0 is returned. -/
def registryFillin (serv : RegServ) (entid : ℤ) : Outcome (Option (ℤ × Filled)) := do
  let line ← sprintf bufSize "%s %d\n".toList [.text "SHOW".toList, .number entid]
  let (_, reply) ← serv.handleInput (received line)
  let (line, reply) := socketReadLine bufSize reply
  if sscanf line msgShowSuccess = [] then return none
  let (line, _) := socketReadLine bufSize reply
  match sscanf line "ID %d %[^\n]".toList with
  | [.number id, .text buf] => do
    let filled ← fill (makeKeyValuePairs buf)
    return some (id, filled)
  | _ => .undefined

/-- `RegistryService::get_entry`. A string is not made of a null pointer. -/
def getEntry (serv : RegServ) (id : ℤ) : Outcome (Option (ℤ × RegEntry ℤ)) := do
  match ← registryFillin serv id with
  | none => return none
  | some (_, ⟨some app, some site, some mach, some node, some port, some pid, some comp,
      some tag⟩) => return some (id, ⟨app, site, mach, node, port, pid, comp, tag⟩)
  | some _ => .undefined

/-- The variables that an entry is scanned into, in the order of the format. -/
abbrev Slots := List (Option Value)

def Slots.init : Slots :=
  [some (.number 0), none, none, none, none, some (.number 0), some (.number 0), none, none]

/-- What does not match any more keeps the variables that follow as they were. -/
def Slots.scan (slots : Slots) (line : Text) : Slots :=
  let values := sscanf line strEntryData
  values.map some ++ slots.drop values.length

def Slots.entry : Slots → Outcome (ℤ × RegEntry ℤ)
  | [some (.number id), some (.text app), some (.text site), some (.text mach), some (.text node),
      some (.number port), some (.number pid), some (.text comp), some (.text tag)] =>
    .ok (id, ⟨app, site, mach, node, port, pid, comp, tag⟩)
  | _ => .undefined

/-- The loop over the lines of the reply, each with the variables as the last has left them. -/
def readEntries : ℕ → Slots → Text → Text → Outcome (List (ℤ × RegEntry ℤ))
  | 0, _, _, _ => .undefined
  | rounds + 1, slots, buf, stream => do
    let entry ← (slots.scan buf).entry
    let (next, stream) := socketReadLine bufSize stream
    if next = strEndOfMultiline then return [entry]
    let entries ← readEntries rounds (slots.scan buf) next stream
    return entry :: entries

/-- The request of a search; empty strings are not asked for. -/
def searchRequest (query : RegEntry ℤ) : Outcome (Option Text × Text) :=
  let asked (text : Text) : Option Text := if text.isEmpty then none else some text
  writeRequest "SEARCH ".toList (requestParts (asked query.app) (asked query.site)
    (asked query.mach) (asked query.node) query.port query.pid (asked query.comp)
    (asked query.tag))

/-- `RegistryService::query_entries`. -/
def queryEntries (serv : RegServ) (query : RegEntry ℤ) : Outcome (List (ℤ × RegEntry ℤ)) := do
  let (_, line) ← searchRequest query
  let (_, reply) ← serv.handleInput (received line)
  let (buf, stream) := socketReadLine bufSize reply
  if buf = msgSearchSuccess then return []
  let (buf, stream) := socketReadLine bufSize stream
  if buf = strEndOfMultiline then return []
  readEntries (stream.length + 1) .init buf stream

end ReadexPtf.Registry
