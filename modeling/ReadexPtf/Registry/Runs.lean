import ReadexPtf.Registry.Keys

/-! The commands of any clients, one after another, and what the clients are told. -/
namespace ReadexPtf.Registry

/-- The id in a message of success. -/
def createdId (reply : Text) : Option ℤ :=
  match sscanf reply msgCreateSuccess with
  | [.number id] => some id
  | _ => none

def succeeded (reply : Text) : Bool := "+OK".toList.isPrefixOf reply

/-- The entry that a command line describes, if it is complete. -/
def described (pos : Option Text) : Option (RegEntry ℤ) :=
  match (RegServ.created pos).map RegEntry.checked with
  | some (.ok entry) => entry
  | _ => none

/-- The entries that live by what the clients have been told, and the ids they were given. -/
structure Told where
  live : ℤ → Option (RegEntry ℤ)
  given : List ℤ

namespace Told

def init : Told := ⟨fun _ => none, []⟩

def setEntry (told : Told) (entid : ℤ) (entry : Option (RegEntry ℤ)) : Told :=
  { told with live := Function.update told.live entid entry }

@[simp] theorem live_setEntry (told : Told) (entid entid' : ℤ) (entry : Option (RegEntry ℤ)) :
    (told.setEntry entid entry).live entid' = if entid' = entid then entry else told.live entid' :=
  Function.update_apply told.live entid entry entid'

def create (told : Told) (entid : ℤ) (entry : RegEntry ℤ) : Told :=
  { told.setEntry entid (some entry) with given := entid :: told.given }

/-- What follows from the reply to a command. -/
def after (told : Told) (pos : Option Text) (reply : Text) : Command → Told
  | .create =>
    match createdId reply, described pos with
    | some entid, some entry => told.create entid entry
    | _, _ => told
  | .change =>
    let (entid, pos) := RegServ.entryId pos
    match succeeded reply, (told.live entid).bind fun entry => RegServ.changed entry pos with
    | true, some entry => told.setEntry entid (some entry)
    | _, _ => told
  | .delete => if succeeded reply then told.setEntry (RegServ.entryId pos).1 none else told
  | .clean => if succeeded reply then { told with live := fun _ => none } else told
  | _ => told

/-- A new id has not been given before, a search gives the entries that agree with all pairs
of the line, and the number of a cleaning is that of the entries before it. -/
def Answered (told : Told) (pos : Option Text) (reply : Text) : Command → Prop
  | .create => ∀ entid, createdId reply = some entid → entid ∉ told.given
  | .search => ∀ query, RegServ.searched pos = some query →
    ∃ found : List (ℤ × RegEntry ℤ), reply = msgSearchSuccess ++ listed found ∧
      (found.map Prod.fst).Nodup ∧ ∀ entid entry, (entid, entry) ∈ found ↔
        told.live entid = some entry ∧ ∀ pair ∈ keyValuePairs id pos, entry.Agrees pair
  | .clean => reply = printed (conversions msgCleanSuccess)
    [.number (Set.ncard {entid | told.live entid ≠ none})]
  | _ => True

end Told

/-- The command of a line, and its arguments. -/
def parsed (line : Text) : Option (Command × Option Text) :=
  let (word, pos) := getToken " ".toList line
  (commandOf word).map fun command => (command, pos)

theorem parsed_eq_some {line : Text} {command : Command} {pos : Option Text}
    (h : parsed line = some (command, pos)) :
    commandOf (getToken " ".toList line).1 = some command ∧ (getToken " ".toList line).2 = pos := by
  rw [parsed] at h
  dsimp only at h
  obtain ⟨command', hword, heq⟩ := Option.map_eq_some_iff.mp h
  obtain ⟨rfl, rfl⟩ := Prod.mk.inj heq
  exact ⟨hword, rfl⟩

/-- Every line is answered, and the registry has what its clients have been told. -/
def Conforms {κ : Type} : RegServ → Told → List (κ × Text) → Prop
  | _, _, [] => True
  | serv, told, (_, line) :: lines => ∃ serv' reply command pos,
    serv.handleInput line = .ok (serv', reply) ∧ parsed line = some (command, pos) ∧
      told.Answered pos reply command ∧
      (∀ entid, serv'.regData.get? entid = (told.after pos reply command).live entid) ∧
      Conforms serv' (told.after pos reply command) lines

/-- The commands of the registry proper. -/
def Handled (line : Text) : Prop :=
  ∃ command pos, parsed line = some (command, pos) ∧
    command ∈ [Command.create, .change, .search, .delete, .clean]

/-- The check of a new entry does not read a number that is not set. -/
def RegEntry.Decided (draft : RegEntry (Option ℤ)) : Prop :=
  draft.app ≠ [] → draft.site ≠ [] → draft.mach ≠ [] → draft.node ≠ [] →
    ∃ port, draft.port = some port ∧ (0 ≤ port → ∃ pid, draft.pid = some pid)

namespace RegServ

/-- A new entry has its numbers, and there is an id for it. A search finds entries whose lines
fit the buffer, and which have also what it overlooks. A cleaning finds no entry. -/
def Meets (serv : RegServ) (pos : Option Text) : Command → Prop
  | .create => ∀ draft, created pos = some draft →
    draft.Decided ∧ (described pos ≠ none → serv.nextId < 2 ^ 31 - 1)
  | .search => ∀ query, searched pos = some query → ∀ it ∈ serv.found query,
    (it.2.line it.1).length < 200 ∧
      ∀ pair ∈ overlooked (keyValuePairs id pos), it.2.Agrees pair
  | .clean => serv.regData.entries = []
  | _ => True

def MeetsLine (serv : RegServ) (line : Text) : Prop :=
  line.length < 400 ∧ ∀ command pos, parsed line = some (command, pos) → serv.Meets pos command

/-- The server after one line of a client. -/
def handle {κ : Type} (serv : RegServ) (line : κ × Text) : Outcome RegServ := do
  let (serv, _) ← serv.handleInput line.2
  return serv

end RegServ

/-- The ids in use and those that were given are below the next one. -/
structure Tracked (serv : RegServ) (told : Told) : Prop where
  stored : ∀ entid, serv.regData.get? entid = told.live entid
  given : ∀ entid ∈ told.given, entid < serv.nextId
  keys : ∀ entid ∈ serv.regData.keys, 0 < entid ∧ entid < serv.nextId
  next : 0 < serv.nextId ∧ serv.nextId ≤ 2 ^ 31 - 1

theorem tracked_init : Tracked .init .init where
  stored := fun _ => rfl
  given := by simp [Told.init]
  keys := by simp [RegServ.init]
  next := by decide

/-! Replies with a number fit their buffers. -/

theorem length_decimal {v : ℤ} (h : 0 ≤ v) (hlt : v < 2 ^ 31) : (decimal v).length ≤ 10 := by
  rw [decimal_eq, if_pos h, Nat.length_toDigits_le_iff (by decide) (by decide)]
  omega

/-- The message with a number in it. -/
def NumberReply (msg before last : Text) : Prop :=
  conversions msg = before.map .literal ++ .number :: last.map .literal ∧
    before.length + last.length < 100

theorem NumberReply.answer {msg before last : Text} (h : NumberReply msg before last)
    {serv : RegServ} {size : ℕ} {entid : ℤ} (hsize : 200 ≤ size)
    (hid : 0 < entid ∧ entid < 2 ^ 31) :
    serv.answer size msg [.number entid] = .ok (serv, before ++ (decimal entid ++ last)) := by
  have hlast : printed (last.map .literal) [] = last := by
    simpa [printed] using printed_literals last [] []
  have hprinted : printed (conversions msg) [.number entid] =
      before ++ (decimal entid ++ last) := by
    rw [h.1, printed_literals, printed, hlast]
  have hlength := length_decimal hid.1.le hid.2
  have hfits : (before ++ (decimal entid ++ last)).length < size := by
    have hbefore := h.2
    simp only [List.length_append]
    omega
  rw [RegServ.answer, sprintf_eq_ok.mpr ⟨hprinted.symm, hfits⟩]
  rfl

theorem numberReply_create : NumberReply msgCreateSuccess "+OK entry ID is ".toList ['\n'] :=
  ⟨by decide, by decide⟩

theorem numberReply_change :
    NumberReply msgChangeSuccess "+OK applied changes to entry ".toList ['\n'] :=
  ⟨by decide, by decide⟩

theorem numberReply_delete :
    NumberReply msgDeleteSuccess "+OK entry ".toList " deleted\n".toList :=
  ⟨by decide, by decide⟩

/-- The id in the message of a new entry. -/
theorem createdId_reply (entid : ℤ) :
    createdId ("+OK entry ID is ".toList ++ (decimal entid ++ ['\n'])) = some entid := by
  have hwords : (∀ c ∈ "+OK".toList, isSpace c = false) ∧
      (∀ c ∈ "entry".toList, isSpace c = false) ∧ (∀ c ∈ "ID".toList, isSpace c = false) ∧
      ∀ c ∈ "is".toList, isSpace c = false := by simp [isSpace]
  have hhead : ∀ (c : Char) (rest : Text), isSpace c = false →
      ∀ d ∈ (c :: rest).head?, isSpace d = false := by
    intro c rest hc d hd
    rw [List.head?_cons, Option.mem_some_iff] at hd
    exact hd ▸ hc
  have hnumber : scanned [.number, .literal '\n'] (decimal entid ++ ['\n']) =
      [.number entid] := by
    rw [scanned_number (isDigit_false_of_mem_head _ (by decide))]
    rfl
  have hscanned : sscanf ("+OK entry ID is ".toList ++ (decimal entid ++ ['\n']))
      msgCreateSuccess = [.number entid] := calc
    _ = scanned ("entry".toList.map .literal ++ .literal ' ' :: ("ID".toList.map .literal ++
          .literal ' ' :: ("is".toList.map .literal ++ .literal ' ' :: [.number, .literal '\n'])))
        ("entry".toList ++ ' ' :: ("ID".toList ++ ' ' :: ("is".toList ++
          ' ' :: (decimal entid ++ ['\n'])))) :=
      scanned_literal_word hwords.1 (hhead _ _ (by decide))
    _ = scanned ("ID".toList.map .literal ++
          .literal ' ' :: ("is".toList.map .literal ++ .literal ' ' :: [.number, .literal '\n']))
        ("ID".toList ++ ' ' :: ("is".toList ++ ' ' :: (decimal entid ++ ['\n']))) :=
      scanned_literal_word hwords.2.1 (hhead _ _ (by decide))
    _ = scanned ("is".toList.map .literal ++ .literal ' ' :: [.number, .literal '\n'])
        ("is".toList ++ ' ' :: (decimal entid ++ ['\n'])) :=
      scanned_literal_word hwords.2.2.1 (hhead _ _ (by decide))
    _ = scanned [.number, .literal '\n'] (decimal entid ++ ['\n']) :=
      scanned_literal_word hwords.2.2.2 (decimal_head _ _)
    _ = [.number entid] := hnumber
  rw [createdId, hscanned]

theorem createdId_error {c : Char} {rest : Text} (hc : c ≠ '+') : createdId (c :: rest) = none := by
  rw [createdId, sscanf_msgCreateSuccess hc]

theorem answer_ok {serv : RegServ} {size : ℕ} {format reply : Text} {args : List Value}
    (hprinted : reply = printed (conversions format) args) (hfits : reply.length < size) :
    serv.answer size format args = .ok (serv, reply) := by
  rw [RegServ.answer, sprintf_eq_ok.mpr ⟨hprinted, hfits⟩]
  rfl

/-! What each command keeps. -/

section Steps
variable {serv : RegServ} {told : Told}

theorem Tracked.bound (h : Tracked serv told) {entid : ℤ} {entry : RegEntry ℤ}
    (hget : serv.regData.get? entid = some entry) : 0 < entid ∧ entid < 2 ^ 31 := by
  have hkey := h.keys entid (OrdMap.mem_keys.mpr ⟨entry, hget⟩)
  have hnext := h.next
  omega

theorem Tracked.setEntry (h : Tracked serv told) {entid : ℤ} {entry entry' : RegEntry ℤ}
    (hget : serv.regData.get? entid = some entry) :
    Tracked (serv.setEntry entid entry') (told.setEntry entid (some entry')) where
  stored := by
    intro entid'
    rw [RegServ.setEntry, OrdMap.get?_set, Told.live_setEntry, h.stored]
  given := h.given
  keys := by
    intro entid' hmem
    cases OrdMap.mem_keys_set.mp hmem with
    | inl hself => exact hself ▸ h.keys entid (OrdMap.mem_keys.mpr ⟨entry, hget⟩)
    | inr hmem => exact h.keys entid' hmem
  next := h.next

theorem Tracked.create (h : Tracked serv told) (hnext : serv.nextId < 2 ^ 31 - 1)
    (entry : RegEntry ℤ) :
    Tracked ({ serv with nextId := serv.nextId + 1 }.setEntry serv.nextId entry)
      (told.create serv.nextId entry) where
  stored := by
    intro entid'
    have hlive : (told.create serv.nextId entry).live entid' =
        if entid' = serv.nextId then some entry else told.live entid' := told.live_setEntry _ _ _
    rw [RegServ.setEntry, OrdMap.get?_set, hlive, h.stored]
  given := by
    intro entid hmem
    cases List.mem_cons.mp hmem with
    | inl hself => exact hself ▸ lt_add_one serv.nextId
    | inr hmem => exact (h.given entid hmem).trans (lt_add_one serv.nextId)
  keys := by
    intro entid' hmem
    cases OrdMap.mem_keys_set.mp hmem with
    | inl hself =>
      rw [hself]
      exact ⟨h.next.1, lt_add_one serv.nextId⟩
    | inr hmem =>
      have hkey := h.keys entid' hmem
      exact ⟨hkey.1, hkey.2.trans (lt_add_one serv.nextId)⟩
  next := by
    have hpos := h.next.1
    simp only [RegServ.setEntry]
    omega

theorem Tracked.delete (h : Tracked serv told) (entid : ℤ) :
    Tracked { serv with regData := serv.regData.filterKeys fun key => key != entid }
      (told.setEntry entid none) where
  stored := by
    intro entid'
    rw [OrdMap.get?_filterKeys, Told.live_setEntry, h.stored]
    by_cases heq : entid' = entid <;> simp [heq]
  given := h.given
  keys := fun entid' hmem => h.keys entid' (OrdMap.mem_keys_filterKeys.mp hmem).1
  next := h.next

theorem RegEntry.Decided.checked {draft : RegEntry (Option ℤ)} (h : draft.Decided) :
    ∃ entry, draft.checked = .ok entry := by
  rw [RegEntry.checked]
  split_ifs with hstrings
  · exact ⟨none, rfl⟩
  · simp only [not_or] at hstrings
    obtain ⟨port, hport, hpid⟩ := h hstrings.1 hstrings.2.1 hstrings.2.2.1 hstrings.2.2.2
    rw [hport]
    dsimp only
    split_ifs with hnegative
    · exact ⟨none, rfl⟩
    · obtain ⟨pid, hpid⟩ := hpid (not_lt.mp hnegative)
      rw [hpid]
      dsimp only
      split_ifs
      · exact ⟨none, rfl⟩
      · exact ⟨_, rfl⟩

/-- The command answers as the clients may expect. -/
def Keeps (serv : RegServ) (told : Told) (pos : Option Text) (command : Command) : Prop :=
  ∃ serv' reply, serv.on pos command = .ok (serv', reply) ∧ told.Answered pos reply command ∧
    Tracked serv' (told.after pos reply command)

theorem Tracked.onCreate (h : Tracked serv told) {pos : Option Text}
    (hmeets : serv.Meets pos .create) : Keeps serv told pos .create := by
  have hrefused : ∀ msg : Text, createdId msg = none → serv.onCreate pos = .ok (serv, msg) →
      Keeps serv told pos .create := by
    intro msg hmsg hrun
    refine ⟨serv, msg, hrun, ?_, ?_⟩
    · intro entid hcreated
      rw [hmsg] at hcreated
      cases hcreated
    · rw [Told.after, hmsg]
      exact h
  cases hcreated : RegServ.created pos with
  | none =>
    refine hrefused msgCreateBadFormat (createdId_error (by decide)) ?_
    rw [RegServ.onCreate, hcreated]
    exact answer_ok (by decide +kernel) (by decide +kernel)
  | some draft =>
    obtain ⟨hdecided, hnext⟩ := hmeets draft hcreated
    obtain ⟨checked, hchecked⟩ := hdecided.checked
    have hdescribed : described pos = checked := by
      rw [described, hcreated, Option.map_some, hchecked]
    cases checked with
    | none =>
      refine hrefused msgCreateIncomplete (createdId_error (by decide)) ?_
      rw [RegServ.onCreate, hcreated]
      dsimp only
      rw [hchecked, Outcome.ok_bind]
      exact answer_ok (by decide +kernel) (by decide +kernel)
    | some entry =>
      have hlt := hnext (by simp [hdescribed])
      have hid : 0 < serv.nextId ∧ serv.nextId < 2 ^ 31 := ⟨h.next.1, by omega⟩
      refine ⟨{ serv with nextId := serv.nextId + 1 }.setEntry serv.nextId entry,
        "+OK entry ID is ".toList ++ (decimal serv.nextId ++ ['\n']), ?_, ?_, ?_⟩
      · rw [RegServ.on, RegServ.onCreate, hcreated]
        dsimp only
        rw [hchecked, Outcome.ok_bind]
        dsimp only
        rw [RegServ.addEntry, RegServ.uniqueId, if_pos hlt, Outcome.ok_bind]
        exact numberReply_create.answer (by decide) hid
      · intro entid hgiven
        rw [createdId_reply] at hgiven
        rw [← Option.some.inj hgiven]
        exact fun hmem => lt_irrefl _ (h.given _ hmem)
      · rw [Told.after, createdId_reply, hdescribed]
        exact h.create hlt entry

theorem Tracked.onSearch (h : Tracked serv told) {pos : Option Text}
    (hmeets : serv.Meets pos .search) : Keeps serv told pos .search := by
  cases hasked : RegServ.searched pos with
  | none =>
    refine ⟨serv, msgSearchBadFormat, ?_, ?_, h⟩
    · rw [RegServ.on, RegServ.onSearch, hasked]
      exact answer_ok (by decide +kernel) (by decide +kernel)
    · intro query hquery
      rw [hasked] at hquery
      cases hquery
  | some query =>
    have hfound := hmeets query hasked
    refine ⟨serv, msgSearchSuccess ++ listed (serv.found query), ?_, ?_, h⟩
    · rw [RegServ.on, onSearch_eq hasked]
      exact (writeEntries_eq_ok (by decide)).mpr ⟨fun it hmem => (hfound it hmem).1, rfl⟩
    · intro query' hquery'
      refine ⟨serv.found query, rfl, ?_, fun entid entry => ?_⟩
      · exact (List.filter_sublist.map Prod.fst).nodup serv.regData.keys_nodup
      · rw [RegServ.found, List.mem_filter, ← OrdMap.get?_eq_some, h.stored]
        refine and_congr_right fun hlive => matched_iff_agrees hasked fun hmatched => ?_
        refine (hfound (entid, entry) ?_).2
        rw [RegServ.found, List.mem_filter, ← OrdMap.get?_eq_some, h.stored]
        exact ⟨hlive, hmatched⟩

theorem Tracked.onDelete (h : Tracked serv told) (pos : Option Text) :
    Keeps serv told pos .delete := by
  cases hget : serv.regData.get? (RegServ.entryId pos).1 with
  | none =>
    refine ⟨serv, msgDeleteNotFound, ?_, trivial, ?_⟩
    · rw [RegServ.on, RegServ.onDelete, hget]
      exact answer_ok (by decide) (by decide)
    · exact h
  | some entry =>
    refine ⟨{ serv with regData := serv.regData.filterKeys fun key =>
        key != (RegServ.entryId pos).1 },
      "+OK entry ".toList ++ (decimal (RegServ.entryId pos).1 ++ " deleted\n".toList), ?_, trivial,
      ?_⟩
    · rw [RegServ.on, RegServ.onDelete, hget]
      exact numberReply_delete.answer (by decide) (h.bound hget)
    · exact h.delete (RegServ.entryId pos).1

theorem Tracked.onClean (h : Tracked serv told) {pos : Option Text}
    (hmeets : serv.Meets pos .clean) : Keeps serv told pos .clean := by
  have hentries : serv.regData.entries = [] := hmeets
  have hnone : ∀ entid, told.live entid = none := by
    intro entid
    rw [← h.stored, OrdMap.get?, hentries]
    rfl
  have hlive : told.live = fun _ => none := funext hnone
  refine ⟨serv, printed (conversions msgCleanSuccess) [.number 0], ?_, ?_, ?_⟩
  · rw [RegServ.on, RegServ.onClean, hentries]
    exact answer_ok rfl (by decide)
  · simp [Told.Answered, hlive]
  · rw [Told.after, ← hlive, ite_self]
    exact h

theorem Tracked.onChange (h : Tracked serv told) (pos : Option Text) :
    Keeps serv told pos .change := by
  have hrefused : ∀ msg : Text, succeeded msg = false → serv.onChange pos = .ok (serv, msg) →
      Keeps serv told pos .change := by
    intro msg hmsg hrun
    refine ⟨serv, msg, hrun, trivial, ?_⟩
    rw [Told.after]
    simp only [hmsg]
    exact h
  cases hget : serv.regData.get? (RegServ.entryId pos).1 with
  | none =>
    refine hrefused msgChangeEntryNotFound (by decide) ?_
    rw [RegServ.onChange]
    simp only [hget]
    exact answer_ok (by decide) (by decide)
  | some entry =>
    cases hchanged : RegServ.changed entry (RegServ.entryId pos).2 with
    | none =>
      refine hrefused msgChangeBadFormat (by decide) ?_
      rw [RegServ.onChange]
      simp only [hget, hchanged]
      exact answer_ok (by decide +kernel) (by decide +kernel)
    | some entry' =>
      by_cases hincomplete : entry'.Incomplete
      · refine hrefused msgChangeIncomplete (by decide) ?_
        rw [RegServ.onChange]
        simp only [hget, hchanged, hincomplete, if_true]
        exact answer_ok (by decide +kernel) (by decide +kernel)
      · refine ⟨serv.setEntry (RegServ.entryId pos).1 entry', "+OK applied changes to entry ".toList ++
          (decimal (RegServ.entryId pos).1 ++ ['\n']), ?_, trivial, ?_⟩
        · rw [RegServ.on, RegServ.onChange]
          simp only [hget, hchanged, hincomplete, if_false]
          exact numberReply_change.answer (by decide) (h.bound hget)
        · have hsucceeded : succeeded ("+OK applied changes to entry ".toList ++
              (decimal (RegServ.entryId pos).1 ++ ['\n'])) = true := rfl
          have hlive : told.live (RegServ.entryId pos).1 = some entry := h.stored _ ▸ hget
          rw [Told.after]
          simp only [hsucceeded, hlive, Option.bind_some, hchanged]
          exact h.setEntry hget

/-- One line keeps what the clients are told. -/
theorem Tracked.line (h : Tracked serv told) {line : Text} (hhandled : Handled line)
    (hmeets : serv.MeetsLine line) : ∃ serv' reply command pos,
      serv.handleInput line = .ok (serv', reply) ∧ parsed line = some (command, pos) ∧
        told.Answered pos reply command ∧ Tracked serv' (told.after pos reply command) := by
  obtain ⟨command, pos, hparsed, hcommand⟩ := hhandled
  have hcondition := hmeets.2 command pos hparsed
  have hkeeps : Keeps serv told pos command := by
    cases command with
    | create => exact h.onCreate hcondition
    | search => exact h.onSearch hcondition
    | delete => exact h.onDelete pos
    | clean => exact h.onClean hcondition
    | change => exact h.onChange pos
    | list => simp at hcommand
    | showEntry => simp at hcommand
  obtain ⟨serv', reply, hrun, hanswered, htracked⟩ := hkeeps
  refine ⟨serv', reply, command, pos, ?_, hparsed, hanswered, htracked⟩
  obtain ⟨hword, rfl⟩ := parsed_eq_some hparsed
  rw [RegServ.handleInput, if_pos hmeets.1]
  dsimp only
  rw [hword]
  exact hrun

end Steps

/-- A run whose lines meet the condition, from any state that the clients know. -/
theorem Tracked.conforms {κ : Type} {lines : List (κ × Text)} :
    ∀ {serv : RegServ} {told : Told}, Tracked serv told →
      (∀ line ∈ lines, Handled line.2) →
      Outcome.StepsMeet (fun serv line => serv.MeetsLine line.2) RegServ.handle lines serv →
      Conforms serv told lines := by
  induction lines with
  | nil =>
    intro serv told _ _ _
    trivial
  | cons line lines ih =>
    intro serv told h hhandled hmeets
    obtain ⟨hline, hlines⟩ := List.forall_mem_cons.mp hhandled
    obtain ⟨serv', reply, command, pos, hrun, hparsed, hanswered, htracked⟩ :=
      h.line hline hmeets.1
    refine ⟨serv', reply, command, pos, hrun, hparsed, hanswered, htracked.stored, ?_⟩
    refine ih htracked hlines (hmeets.2 serv' ?_)
    rw [RegServ.handle, hrun]
    rfl

/-- Every line of any clients is answered as they may expect, when its condition is met. -/
theorem registry_conforms {κ : Type} (lines : List (κ × Text))
    (hhandled : ∀ line ∈ lines, Handled line.2)
    (hmeets : Outcome.StepsMeet (fun serv line => serv.MeetsLine line.2) RegServ.handle lines
      RegServ.init) : Conforms .init .init lines :=
  tracked_init.conforms hhandled hmeets

theorem RegServ.Meets.meetsLine {serv : RegServ} {line : Text} {command : Command}
    {pos : Option Text} (h : serv.Meets pos command) (hparsed : parsed line = some (command, pos))
    (hlength : line.length < 400) : serv.MeetsLine line := by
  refine ⟨hlength, fun command' pos' hparsed' => ?_⟩
  rw [hparsed] at hparsed'
  obtain ⟨rfl, rfl⟩ := Prod.mk.inj (Option.some.inj hparsed')
  exact h

/-- An entry is made in an empty registry, and found. -/
theorem registry_conforms_search : Conforms .init .init
    [(0, "CLEAN".toList), (1, sampleCreate), (0, "SEARCH app=ab".toList)] := by
  have hclean : parsed "CLEAN".toList = some (.clean, none) := by decide +kernel
  have hcreate : parsed sampleCreate = some (.create, some (sampleCreate.drop 6)) := by
    decide +kernel
  have hsearch : parsed "SEARCH app=ab".toList = some (.search, some " app=ab".toList) := by
    decide +kernel
  have hcleaned : RegServ.init.handle (0, "CLEAN".toList) = .ok .init := by decide +kernel
  have hcreated : RegServ.init.handle (1, sampleCreate) = .ok sampleServ := by decide +kernel
  refine registry_conforms _ ?_ ⟨?_, fun serv hserv => ⟨?_, fun serv' hserv' => ⟨?_, ?_⟩⟩⟩
  · simp only [List.forall_mem_cons, List.not_mem_nil, false_implies, implies_true, and_true]
    exact ⟨⟨_, _, hclean, by decide⟩, ⟨_, _, hcreate, by decide⟩, ⟨_, _, hsearch, by decide⟩⟩
  · have hmeets : RegServ.init.Meets none .clean := rfl
    exact hmeets.meetsLine hclean (by decide)
  · rw [hcleaned] at hserv
    cases hserv
    have hdraft : RegServ.created (some (sampleCreate.drop 6)) = some
        { sampleEntry with port := some 5, pid := some 7 } := by decide +kernel
    have hmeets : RegServ.init.Meets (some (sampleCreate.drop 6)) .create := by
      intro draft hcreated'
      rw [hdraft] at hcreated'
      cases hcreated'
      exact ⟨fun _ _ _ _ => ⟨5, rfl, fun _ => ⟨7, rfl⟩⟩, fun _ => by decide⟩
    exact hmeets.meetsLine hcreate (by decide +kernel)
  · rw [hcleaned] at hserv
    cases hserv
    rw [hcreated] at hserv'
    cases hserv'
    have hquery : RegServ.searched (some " app=ab".toList) = some
        { anyEntry with app := "ab".toList } := by decide +kernel
    have hmeets : sampleServ.Meets (some " app=ab".toList) .search := by
      intro query hasked
      rw [hquery] at hasked
      cases hasked
      have hfound : sampleServ.found { anyEntry with app := "ab".toList } = [(1, sampleEntry)] := by
        decide
      have hover : overlooked (keyValuePairs id (some " app=ab".toList)) = [] := by decide +kernel
      rw [hfound, hover]
      intro it hmem
      rw [List.mem_singleton.mp hmem]
      exact ⟨by decide +kernel, by simp⟩
    exact hmeets.meetsLine hsearch (by decide)
  · intro _ _
    trivial

def RegistryConforms : Prop :=
  ∀ lines : List (ℕ × Text), (∀ line ∈ lines, Handled line.2) → Conforms .init .init lines

theorem not_registryConforms : ¬ RegistryConforms := by
  intro h
  have hhandled : ∀ line ∈ [(0, sampleCreate), (0, "CLEAN".toList)], Handled line.2 := by
    simp only [List.forall_mem_cons, List.not_mem_nil, false_implies, implies_true, and_true]
    exact ⟨⟨.create, some (sampleCreate.drop 6), by decide +kernel, by decide⟩,
      ⟨.clean, none, by decide +kernel, by decide⟩⟩
  obtain ⟨serv, reply, command, pos, hrun, _, _, _, hrest⟩ := h _ hhandled
  rw [sampleServ_created] at hrun
  have hserv : sampleServ = serv := congrArg Prod.fst (Outcome.ok.inj hrun)
  rw [← hserv] at hrest
  obtain ⟨serv, reply, command, pos, hrun, _⟩ := hrest
  have hclean : sampleServ.handleInput "CLEAN".toList = .undefined := by decide +kernel
  rw [hclean] at hrun
  cases hrun

end ReadexPtf.Registry
