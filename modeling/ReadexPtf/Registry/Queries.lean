import ReadexPtf.Registry.ReadBack

/-! The search of the service: what `sscanf` makes of the lines of the reply. -/
namespace ReadexPtf.Registry

/-- An entry line without its end. -/
def RegEntry.shown (id : ℤ) (entry : RegEntry ℤ) : Text :=
  "ID ".toList ++ (decimal id ++ ' ' :: fieldsTo [] entry.fields)

theorem line_eq_shown (id : ℤ) (entry : RegEntry ℤ) :
    entry.line id = entry.shown id ++ ['\n'] := by
  have hfields := fieldsTo_append [] ['\n'] entry.fields
  rw [List.nil_append] at hfields
  rw [line_eq, hfields, RegEntry.shown]
  simp only [List.append_assoc, List.cons_append]

theorem break_notMem_shown {id : ℤ} {entry : RegEntry ℤ} (h : ∀ t ∈ entry.strings, '\n' ∉ t) :
    '\n' ∉ entry.shown id := by
  have hdecimal : '\n' ∉ decimal id := notMem_decimal (by decide) (by decide) id
  simp [RegEntry.shown, hdecimal, break_notMem_fields h]

/-- The lines of some entries, and the end of them. -/
def listed (entries : List (ℤ × RegEntry ℤ)) : Text :=
  (entries.map fun it => it.2.line it.1).flatten ++ ".\n".toList

theorem listed_cons (it : ℤ × RegEntry ℤ) (entries : List (ℤ × RegEntry ℤ)) :
    listed (it :: entries) = it.2.shown it.1 ++ '\n' :: listed entries := by
  rw [listed, List.map_cons, List.flatten_cons, line_eq_shown, listed]
  simp only [List.append_assoc, List.cons_append, List.nil_append]

theorem length_listed (entries : List (ℤ × RegEntry ℤ)) :
    entries.length ≤ (listed entries).length := by
  induction entries with
  | nil => exact Nat.zero_le _
  | cons it entries ih =>
    rw [listed_cons, List.length_append, List.length_cons, List.length_cons]
    omega

theorem mapM_lines {size : ℕ} {lines : List Text} : ∀ {entries : List (ℤ × RegEntry ℤ)},
    entries.mapM (fun it => sprintf size strEntryData (it.2.values it.1)) = .ok lines ↔
      (∀ it ∈ entries, (it.2.line it.1).length < size) ∧
        lines = entries.map fun it => it.2.line it.1 := by
  intro entries
  constructor
  · intro h
    have hprinted : ∀ (it : ℤ × RegEntry ℤ) (line : Text),
        sprintf size strEntryData (it.2.values it.1) = .ok line → id line = it.2.line it.1 :=
      fun it line hline => (sprintf_eq_ok.mp hline).1
    have hlines := Outcome.map_of_mapM hprinted h
    rw [List.map_id] at hlines
    refine ⟨fun it hmem => ?_, hlines⟩
    have hmem' : it.2.line it.1 ∈ lines := hlines ▸ List.mem_map_of_mem hmem
    obtain ⟨it', _, hline⟩ := Outcome.mem_of_mapM h hmem'
    exact (sprintf_eq_ok.mp hline).2
  · rintro ⟨hfits, rfl⟩
    exact Outcome.mapM_eq_map fun it hmem => sprintf_eq_ok.mpr ⟨rfl, hfits it hmem⟩

theorem writeEntries_eq_ok {serv : RegServ} {size : ℕ} {head : Text}
    {entries : List (ℤ × RegEntry ℤ)} {out : RegServ × Text} (hsize : 2 < size) :
    serv.writeEntries size head entries = .ok out ↔
      (∀ it ∈ entries, (it.2.line it.1).length < size) ∧ out = (serv, head ++ listed entries) := by
  have hend : printed (conversions "%s\n".toList) [.text strEndOfMultiline] = ".\n".toList := by
    decide
  have hlast : sprintf size "%s\n".toList [.text strEndOfMultiline] = .ok ".\n".toList :=
    sprintf_eq_ok.mpr ⟨hend.symm, hsize⟩
  rw [RegServ.writeEntries, Outcome.bind_eq_ok, hlast]
  simp only [mapM_lines, Outcome.ok_bind, Outcome.pure_eq, Outcome.ok.injEq, listed]
  constructor
  · rintro ⟨lines, ⟨hfits, rfl⟩, rfl⟩
    exact ⟨hfits, by rw [List.append_assoc]⟩
  · rintro ⟨hfits, rfl⟩
    exact ⟨_, ⟨hfits, rfl⟩, by rw [List.append_assoc]⟩

/-! The request reaches the server as the search that it is. -/

theorem appendPart_start {buffers buffers' : Option Text × Text} {part : Text × Value} {head : Text}
    (h : appendPart buffers part = .ok buffers') (hstart : head <+: buffers.2) :
    head <+: buffers'.2 := by
  rw [appendPart] at h
  obtain ⟨buf, _, h⟩ := Outcome.bind_eq_ok.mp h
  obtain ⟨line, hline, h⟩ := Outcome.bind_eq_ok.mp h
  rw [strcat] at hline
  split_ifs at hline
  cases hline
  cases h
  exact hstart.trans (List.prefix_append _ _)

theorem writeRequest_start {head : Text} {parts : List (Text × Value)} {buf : Option Text}
    {line : Text} (h : writeRequest head parts = .ok (buf, line)) : head <+: line := by
  rw [writeRequest] at h
  obtain ⟨buffers, hparts, h⟩ := Outcome.bind_eq_ok.mp h
  obtain ⟨line', hline, h⟩ := Outcome.bind_eq_ok.mp h
  have hstart : head <+: buffers.2 :=
    Outcome.foldlM_invariant (fun buffers : Option Text × Text => head <+: buffers.2)
      (fun _ _ _ hstart hpart => appendPart_start hpart hstart) parts (none, head) buffers
      (List.prefix_refl _) hparts
  rw [strcat] at hline
  split_ifs at hline
  cases hline
  cases h
  exact hstart.trans (List.prefix_append _ _)

/-- What the server receives of a text that starts with a word and a blank. -/
theorem received_start {word line : Text} (hbreak : '\n' ∉ word) (hreturn : '\r' ∉ word)
    (h : word <+: line) : word <+: received line := by
  obtain ⟨rest, rfl⟩ := h
  have hall : ∀ c ∈ word, (c != '\n') = true := fun c hc => by
    simpa using ne_of_mem_of_not_mem hc hbreak
  have hkeep : word.filter (fun c => c != '\r') = word :=
    List.filter_eq_self.mpr fun c hc => by simpa using ne_of_mem_of_not_mem hc hreturn
  rw [received, List.takeWhile_append_of_pos hall, List.filter_append, hkeep]
  exact List.prefix_append _ _

/-- A search that the service writes and the server can read, with what it finds. -/
def Finds (serv : RegServ) (query : RegEntry ℤ) (entries : List (ℤ × RegEntry ℤ)) : Prop :=
  ∃ buf line asked, searchRequest query = .ok (buf, line) ∧ (received line).length < 400 ∧
    RegServ.searched (getToken " ".toList (received line)).2 = some asked ∧
    entries = serv.found asked

theorem handleInput_search {serv : RegServ} {line : Text} (hstart : "SEARCH ".toList <+: line)
    (hlength : line.length < 400) :
    serv.handleInput line = serv.onSearch (getToken " ".toList line).2 := by
  obtain ⟨rest, rfl⟩ := hstart
  have htoken : getToken " ".toList ("SEARCH ".toList ++ rest) =
      ("SEARCH".toList, some (' ' :: rest)) := by
    simp [getToken]
  have hcommand : commandOf "SEARCH".toList = some .search := by decide
  rw [RegServ.handleInput, if_pos hlength, htoken]
  simp only [hcommand, RegServ.on]

theorem onSearch_eq {serv : RegServ} {pos : Option Text} {asked : RegEntry ℤ}
    (h : RegServ.searched pos = some asked) :
    serv.onSearch pos = serv.writeEntries 200 msgSearchSuccess (serv.found asked) := by
  have hhead : sprintf 200 msgSearchSuccess [] = .ok msgSearchSuccess :=
    sprintf_eq_ok.mpr ⟨by decide, by decide⟩
  rw [RegServ.onSearch, h]
  simp only [hhead, Outcome.ok_bind]

/-! What the variables of a search hold. -/

/-- The texts that have been read. -/
def Slots.Read (slots : Slots) : Prop := ∀ t, some (Value.text t) ∈ slots → Plain t

theorem Slots.read_init : Slots.init.Read := by
  intro t h
  simp [Slots.init] at h

theorem Slots.Read.scan {slots : Slots} (h : slots.Read) (line : Text) : (slots.scan line).Read := by
  have hformat : .line ∉ conversions strEntryData := by decide
  intro t hmem
  cases List.mem_append.mp hmem with
  | inl hread =>
    obtain ⟨value, hvalue, heq⟩ := List.mem_map.mp hread
    cases heq
    exact plain_of_text_mem_scanned hformat hvalue
  | inr hkept => exact h t (List.mem_of_mem_drop hkept)

theorem Slots.Read.entry {slots : Slots} (h : slots.Read) {it : ℤ × RegEntry ℤ}
    (hentry : slots.entry = .ok it) : ∀ t ∈ it.2.strings, Plain t := by
  rw [Slots.entry.eq_def] at hentry
  split at hentry
  · cases hentry
    intro t hmem
    refine h t ?_
    simp only [RegEntry.strings, List.mem_cons, List.not_mem_nil, or_false] at hmem
    rcases hmem with rfl | rfl | rfl | rfl | rfl | rfl <;> simp
  · cases hentry

theorem readEntries_plain : ∀ {rounds : ℕ} {slots : Slots} {buf stream : Text}
    {entries : List (ℤ × RegEntry ℤ)}, slots.Read →
    readEntries rounds slots buf stream = .ok entries →
    ∀ it ∈ entries, ∀ t ∈ it.2.strings, Plain t := by
  intro rounds
  induction rounds with
  | zero =>
    intro slots buf stream entries _ h
    simp [readEntries] at h
  | succ rounds ih =>
    intro slots buf stream entries hslots h
    rw [readEntries] at h
    obtain ⟨entry, hentry, h⟩ := Outcome.bind_eq_ok.mp h
    have hself := (hslots.scan buf).entry hentry
    dsimp only at h
    split_ifs at h
    · cases h
      simpa using hself
    · obtain ⟨others, hothers, h⟩ := Outcome.bind_eq_ok.mp h
      cases h
      exact List.forall_mem_cons.mpr ⟨hself, ih (hslots.scan buf) hothers⟩

/-- No search gives an entry with a blank in a string. -/
theorem queryEntries_plain {serv : RegServ} {query : RegEntry ℤ}
    {entries : List (ℤ × RegEntry ℤ)} (h : queryEntries serv query = .ok entries) :
    ∀ it ∈ entries, ∀ t ∈ it.2.strings, Plain t := by
  rw [queryEntries] at h
  obtain ⟨request, _, h⟩ := Outcome.bind_eq_ok.mp h
  obtain ⟨reply, _, h⟩ := Outcome.bind_eq_ok.mp h
  dsimp only at h
  split_ifs at h
  · cases h
    simp
  · cases h
    simp
  · exact readEntries_plain Slots.read_init h

/-! The lines of readable entries. -/

/-- The strings have no blank, and the line fits the buffer of the search. -/
def RegEntry.Readable (id : ℤ) (entry : RegEntry ℤ) : Prop :=
  (∀ t ∈ entry.strings, Plain t) ∧ (entry.line id).length < 200

theorem scan_shown {slots : Slots} {id : ℤ} {entry : RegEntry ℤ} (hlength : slots.length = 9)
    (h : ∀ t ∈ entry.strings, Plain t) :
    slots.scan (entry.shown id) = (entry.values id).map some := by
  have hvalues : sscanf (entry.shown id) strEntryData = entry.values id := sscanf_entry h
  have hrest : slots.drop (entry.values id).length = [] := List.drop_eq_nil_of_le hlength.le
  rw [Slots.scan, hvalues, hrest, List.append_nil]

theorem RegEntry.Readable.read {id : ℤ} {entry : RegEntry ℤ} (h : entry.Readable id)
    (entries : List (ℤ × RegEntry ℤ)) : socketReadLine bufSize (listed ((id, entry) :: entries)) =
      (entry.shown id, listed entries) := by
  have hbreak : '\n' ∉ entry.shown id :=
    break_notMem_shown fun t ht => (h.1 t ht).notMem (by decide)
  have hlength : (entry.shown id).length < 400 := by
    have hline := h.2
    rw [line_eq_shown, List.length_append] at hline
    omega
  rw [listed_cons, socketReadLine_bufSize hbreak hlength]

theorem shown_ne_end (id : ℤ) (entry : RegEntry ℤ) : entry.shown id ≠ strEndOfMultiline := by
  have hword : "ID ".toList = 'I' :: ['D', ' '] := by decide
  have hend : strEndOfMultiline = ['.'] := by decide
  rw [RegEntry.shown, hword, hend]
  simp

theorem readEntries_listed {entries : List (ℤ × RegEntry ℤ)} :
    ∀ {it : ℤ × RegEntry ℤ} {rounds : ℕ} {slots : Slots}, slots.length = 9 →
    entries.length < rounds → (∀ it' ∈ it :: entries, it'.2.Readable it'.1) →
    readEntries rounds slots (it.2.shown it.1) (listed entries) = .ok (it :: entries) := by
  induction entries with
  | nil =>
    intro it rounds slots hslots hrounds h
    obtain ⟨rounds, rfl⟩ := Nat.exists_eq_succ_of_ne_zero (Nat.ne_of_gt hrounds)
    have hit := h it List.mem_cons_self
    have hend : socketReadLine bufSize (listed []) = (strEndOfMultiline, []) := by decide
    rw [readEntries, scan_shown hslots hit.1, hend]
    rfl
  | cons next entries ih =>
    intro it rounds slots hslots hrounds h
    obtain ⟨rounds, rfl⟩ := Nat.exists_eq_succ_of_ne_zero (Nat.ne_of_gt (Nat.zero_lt_of_lt hrounds))
    have hit := h it List.mem_cons_self
    have hothers : ∀ it' ∈ next :: entries, it'.2.Readable it'.1 := fun it' hmem =>
      h it' (List.mem_cons_of_mem it hmem)
    have hnext := (hothers next List.mem_cons_self).read entries
    have hread : Slots.entry ((it.2.values it.1).map some) = .ok it := rfl
    rw [readEntries, scan_shown hslots hit.1, hread, Outcome.ok_bind, hnext]
    dsimp only
    rw [if_neg (shown_ne_end _ _), ih rfl (Nat.lt_of_succ_lt_succ hrounds) hothers]
    rfl

theorem queryEntries_iff {serv : RegServ} {query : RegEntry ℤ}
    {entries : List (ℤ × RegEntry ℤ)} (hfinds : Finds serv query entries) :
    queryEntries serv query = .ok entries ↔ ∀ it ∈ entries, it.2.Readable it.1 := by
  obtain ⟨buf, line, asked, hrequest, hlength, hasked, rfl⟩ := hfinds
  have hstart : "SEARCH ".toList <+: received line :=
    received_start (by decide) (by decide) (writeRequest_start hrequest)
  have hsearch : serv.handleInput (received line) =
      serv.writeEntries 200 msgSearchSuccess (serv.found asked) :=
    (handleInput_search hstart hlength).trans (onSearch_eq hasked)
  constructor
  · intro h it hmem
    refine ⟨queryEntries_plain h it hmem, ?_⟩
    rw [queryEntries, hrequest, Outcome.ok_bind] at h
    dsimp only at h
    obtain ⟨reply, hreply, _⟩ := Outcome.bind_eq_ok.mp h
    exact ((writeEntries_eq_ok (by decide)).mp (hsearch.symm.trans hreply)).1 it hmem
  · intro h
    have hreply : serv.writeEntries 200 msgSearchSuccess (serv.found asked) =
        .ok (serv, msgSearchSuccess ++ listed (serv.found asked)) :=
      (writeEntries_eq_ok (by decide)).mpr ⟨fun it hmem => (h it hmem).2, rfl⟩
    have hbreak : '\n' ∉ "+OK displaying search results".toList := by decide
    have hhead : socketReadLine bufSize (msgSearchSuccess ++ listed (serv.found asked)) =
        ("+OK displaying search results".toList, listed (serv.found asked)) :=
      socketReadLine_bufSize hbreak (by decide)
    have hother : "+OK displaying search results".toList ≠ msgSearchSuccess := by decide
    rw [queryEntries, hrequest, Outcome.ok_bind]
    dsimp only
    rw [hsearch, hreply, Outcome.ok_bind]
    simp only [hhead, if_neg hother]
    cases hfound : serv.found asked with
    | nil =>
      have hend : socketReadLine bufSize (listed []) = (strEndOfMultiline, []) := by decide
      simp only [hend, if_true]
      rfl
    | cons it entries =>
      rw [hfound] at h
      have hread := (h it List.mem_cons_self).read entries
      simp only [hread, if_neg (shown_ne_end _ _)]
      exact readEntries_listed rfl (Nat.lt_succ_of_le (length_listed entries)) h

/-! The readers of both clients together. -/

/-- Both clients give an entry as it is in the registry. -/
structure ReadBack (serv : RegServ) (id : ℤ) (entry query : RegEntry ℤ) : Prop where
  fillin : registryFillin serv id = .ok (some (id, Filled.ofEntry entry))
  get : getEntry serv id = .ok (some (id, entry))
  search : ∃ entries, queryEntries serv query = .ok entries ∧ (id, entry) ∈ entries

/-- What a search gives has no blank in a string, and the other client needs one in the longest. -/
theorem not_readBack {serv : RegServ} {id : ℤ} {entry query : RegEntry ℤ}
    (hget : serv.regData.get? id = some entry) : ¬ ReadBack serv id entry query := by
  intro h
  obtain ⟨entries, hsearch, hmem⟩ := h.search
  have hplain := queryEntries_plain hsearch (id, entry) hmem
  have hbreak : ∀ t ∈ entry.strings, '\n' ∉ t := fun t ht => (hplain t ht).notMem (by decide)
  have hblank : ∀ t ∈ entry.strings, ' ' ∉ t := fun t ht => (hplain t ht).notMem (by decide)
  exact not_fill hblank (registryFillin_fills hget hbreak h.fillin)

/-- Every entry that a new line of a client creates is read back, whatever query finds it. -/
def CreatedReadBack : Prop :=
  ∀ (serv serv' : RegServ) (line reply : Text) (id : ℤ) (entry query : RegEntry ℤ),
    serv.handleInput line = .ok (serv', reply) → serv.regData.get? id = none →
    serv'.regData.get? id = some entry → Finds serv' query [(id, entry)] →
    ReadBack serv' id entry query

/-- No entry is read back by both clients. The search alone gives what it has found exactly
when the strings have no blanks and the lines fit its buffer. -/
theorem entry_readBack_iff (serv : RegServ) (id : ℤ) (entry query : RegEntry ℤ)
    (entries : List (ℤ × RegEntry ℤ)) (hget : serv.regData.get? id = some entry)
    (hfinds : Finds serv query entries) :
    ¬ ReadBack serv id entry query ∧
      (queryEntries serv query = .ok entries ↔ ∀ it ∈ entries, it.2.Readable it.1) :=
  ⟨not_readBack hget, queryEntries_iff hfinds⟩

def sampleEntry : RegEntry ℤ :=
  ⟨"ab".toList, "s".toList, "m".toList, "n".toList, 5, 7, "c".toList, "t".toList⟩

/-- The server after its first entry. -/
def sampleServ : RegServ := ⟨OrdMap.empty.set 1 sampleEntry, 2⟩

def sampleCreate : Text := "CREATE app=ab site=s mach=m node=n port=5 pid=7 comp=c tag=t".toList

theorem sampleServ_created : RegServ.init.handleInput sampleCreate =
    .ok (sampleServ, "+OK entry ID is 1\n".toList) := by
  decide +kernel

/-- A query for all entries. -/
def anyEntry : RegEntry ℤ := ⟨[], [], [], [], 0, 0, [], []⟩

theorem finds_sample : Finds sampleServ anyEntry [(1, sampleEntry)] :=
  ⟨none, "SEARCH \n".toList, anyEntry, by decide, by decide, by decide, by decide⟩

theorem entry_readBack_sample :
    ¬ ReadBack sampleServ 1 sampleEntry anyEntry ∧
      queryEntries sampleServ anyEntry = .ok [(1, sampleEntry)] := by
  have hreadable : ∀ it ∈ [(1, sampleEntry)], it.2.Readable it.1 := by
    intro it hmem
    rw [List.mem_singleton.mp hmem]
    exact ⟨by simp [RegEntry.strings, sampleEntry, Plain, isSpace], by decide +kernel⟩
  have hsample := entry_readBack_iff sampleServ 1 sampleEntry anyEntry [(1, sampleEntry)]
    (by decide) finds_sample
  exact ⟨hsample.1, hsample.2.mpr hreadable⟩

theorem not_createdReadBack : ¬ CreatedReadBack := by
  intro h
  have hnew : RegServ.init.regData.get? 1 = none := rfl
  have hget : sampleServ.regData.get? 1 = some sampleEntry := by decide
  exact not_readBack hget
    (h _ _ _ _ 1 sampleEntry anyEntry sampleServ_created hnew hget finds_sample)

end ReadexPtf.Registry
