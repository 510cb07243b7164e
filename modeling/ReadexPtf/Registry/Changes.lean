import ReadexPtf.Registry.Queries

/-! The change of an entry: what the server does, and what the client reports. -/
namespace ReadexPtf.Registry

/-! Requests part by part. -/

def partText (part : Text × Value) : Text := printed (conversions part.1) [part.2]

def partsText (parts : List (Text × Value)) : Text := (parts.map partText).flatten

theorem partsText_cons (part : Text × Value) (parts : List (Text × Value)) :
    partsText (part :: parts) = partText part ++ partsText parts := by
  rw [partsText, List.map_cons, List.flatten_cons, partsText]

/-- `buf` after the last part. -/
def lastPart (buf : Option Text) (parts : List (Text × Value)) : Option Text :=
  parts.foldl (fun _ part => some (partText part)) buf

theorem strcat_eq_ok {line text line' : Text} :
    strcat line text = .ok line' ↔ (line ++ text).length < bufSize ∧ line' = line ++ text := by
  rw [strcat]
  split_ifs with hfits
  · rw [Outcome.ok.injEq, eq_comm, and_iff_right hfits]
  · simp only [hfits, false_and]

theorem appendPart_eq_ok {buffers buffers' : Option Text × Text} {part : Text × Value} :
    appendPart buffers part = .ok buffers' ↔ (buffers.2 ++ partText part).length < bufSize ∧
      buffers' = (some (partText part), buffers.2 ++ partText part) := by
  rw [appendPart]
  simp only [Outcome.bind_eq_ok, sprintf_eq_ok, strcat_eq_ok, Outcome.pure_eq, Outcome.ok.injEq]
  constructor
  · rintro ⟨buf, ⟨rfl, _⟩, line, ⟨hfits, rfl⟩, rfl⟩
    exact ⟨hfits, rfl⟩
  · rintro ⟨hfits, rfl⟩
    have hlength : (partText part).length < bufSize := by
      rw [List.length_append] at hfits
      omega
    exact ⟨_, ⟨rfl, hlength⟩, _, ⟨hfits, rfl⟩, rfl⟩

theorem foldlM_appendPart {parts : List (Text × Value)} :
    ∀ {buffers buffers' : Option Text × Text}, buffers.2.length < bufSize →
    (parts.foldlM appendPart buffers = .ok buffers' ↔
      (buffers.2 ++ partsText parts).length < bufSize ∧
        buffers' = (lastPart buffers.1 parts, buffers.2 ++ partsText parts)) := by
  induction parts with
  | nil =>
    intro buffers buffers' hlength
    simp [partsText, lastPart, hlength, eq_comm]
  | cons part parts ih =>
    intro buffers buffers' _
    rw [List.foldlM_cons, Outcome.bind_eq_ok]
    simp only [appendPart_eq_ok]
    constructor
    · rintro ⟨_, ⟨hfits, rfl⟩, hrest⟩
      have hparts := (ih hfits).mp hrest
      rw [List.append_assoc, ← partsText_cons] at hparts
      exact hparts
    · rintro ⟨hfits, rfl⟩
      rw [partsText_cons, ← List.append_assoc] at hfits ⊢
      have hpart : (buffers.2 ++ partText part).length < bufSize := by
        rw [List.length_append] at hfits
        omega
      exact ⟨_, ⟨hpart, rfl⟩, (ih hpart).mpr ⟨hfits, rfl⟩⟩

theorem writeRequest_eq_ok {head : Text} {parts : List (Text × Value)} {buf : Option Text}
    {line : Text} (hhead : head.length < bufSize) :
    writeRequest head parts = .ok (buf, line) ↔
      (head ++ partsText parts ++ ['\n']).length < bufSize ∧ buf = lastPart none parts ∧
        line = head ++ partsText parts ++ ['\n'] := by
  rw [writeRequest]
  simp only [Outcome.bind_eq_ok, Outcome.pure_eq, Outcome.ok.injEq, strcat_eq_ok]
  constructor
  · rintro ⟨buffers, hparts, hline⟩
    obtain ⟨_, rfl⟩ := (foldlM_appendPart hhead).mp hparts
    obtain ⟨_, ⟨hfits, rfl⟩, heq⟩ := hline
    cases heq
    exact ⟨hfits, rfl, rfl⟩
  · rintro ⟨hfits, rfl, rfl⟩
    have hparts : (head ++ partsText parts).length < bufSize := by
      rw [List.length_append] at hfits
      omega
    exact ⟨_, (foldlM_appendPart hhead).mpr ⟨hparts, rfl⟩, _, ⟨hfits, rfl⟩, rfl⟩

theorem lastPart_eq_none {parts : List (Text × Value)} :
    lastPart none parts = none ↔ parts = [] := by
  cases List.eq_nil_or_concat parts with
  | inl hnil => simp [hnil, lastPart]
  | inr hconcat =>
    obtain ⟨first, last, rfl⟩ := hconcat
    simp [lastPart]

theorem mem_of_lastPart {parts : List (Text × Value)} {buf : Text}
    (h : lastPart none parts = some buf) : ∃ part ∈ parts, buf = partText part := by
  cases List.eq_nil_or_concat parts with
  | inl hnil => simp [hnil, lastPart] at h
  | inr hconcat =>
    obtain ⟨first, last, rfl⟩ := hconcat
    refine ⟨last, by simp, ?_⟩
    simpa [lastPart, eq_comm] using h

/-- A message of success starts with a plus. -/
theorem sscanf_msgCreateSuccess {c : Char} {rest : Text} (hc : c ≠ '+') :
    sscanf (c :: rest) msgCreateSuccess = [] := by
  have hformat : conversions msgCreateSuccess =
      .literal '+' :: conversions msgCreateSuccess.tail := rfl
  rw [sscanf, hformat, scanned, if_neg (by decide), if_neg hc]

/-- No part of a request starts as a message of success does. -/
theorem sscanf_part {app site mach node comp tag : Option Text} {port pid : ℤ}
    {part : Text × Value} (h : part ∈ requestParts app site mach node port pid comp tag) :
    sscanf (partText part) msgCreateSuccess = [] := by
  have hstart : ∃ c rest, partText part = c :: rest ∧ c ≠ '+' := by
    simp only [requestParts, List.mem_append, Option.mem_toList, Option.map_eq_some_iff,
      List.mem_ite_nil_right, List.mem_singleton] at h
    rcases h with ((((((⟨t, _, rfl⟩ | ⟨t, _, rfl⟩) | ⟨t, _, rfl⟩) | ⟨t, _, rfl⟩) | ⟨_, rfl⟩) |
      ⟨_, rfl⟩) | ⟨t, _, rfl⟩) | ⟨t, _, rfl⟩
    all_goals exact ⟨_, _, rfl, by decide⟩
  obtain ⟨c, rest, hpart, hc⟩ := hstart
  rw [hpart, sscanf_msgCreateSuccess hc]

/-! The request as the server reads it. -/

theorem getToken_word {word rest : Text} (hne : word ≠ []) (hblank : ' ' ∉ word) :
    getToken " ".toList (word ++ ' ' :: rest) = (word, some (' ' :: rest)) := by
  have hother : ∀ c ∈ word, ¬ " ".toList.contains c = true := fun c hc => by
    simpa using ne_of_mem_of_not_mem hc hblank
  have hstart : (word ++ ' ' :: rest).dropWhile " ".toList.contains = word ++ ' ' :: rest := by
    cases word with
    | nil => exact absurd rfl hne
    | cons c word =>
      rw [List.cons_append, List.dropWhile_cons_of_neg (hother c List.mem_cons_self)]
  have hall : ∀ c ∈ word, (!" ".toList.contains c) = true := fun c hc => by
    simpa using ne_of_mem_of_not_mem hc hblank
  have hstop : (!" ".toList.contains ' ') = false := by decide
  simp only [getToken, hstart, takeWhile_append_stop hall hstop, dropWhile_append_stop hall hstop]

theorem getToken_blank (rest : Text) :
    getToken " ".toList (' ' :: rest) = getToken " ".toList rest := by
  simp only [getToken, List.dropWhile_cons_of_pos (by decide : " ".toList.contains ' ' = true)]

theorem received_append {head t : Text} (hbreak : '\n' ∉ head) (hreturn : '\r' ∉ head) :
    received (head ++ t) = head ++ received t := by
  have hall : ∀ c ∈ head, (c != '\n') = true := fun c hc => by
    simpa using ne_of_mem_of_not_mem hc hbreak
  have hkeep : head.filter (fun c => c != '\r') = head :=
    List.filter_eq_self.mpr fun c hc => by simpa using ne_of_mem_of_not_mem hc hreturn
  rw [received, List.takeWhile_append_of_pos hall, List.filter_append, hkeep, received]

/-- The request up to the parts. -/
def changeHead (entid : ℤ) : Text := "CHANGE".toList ++ ' ' :: (decimal entid ++ [' '])

/-- What the server reads behind the entry id. -/
def changeArgs (parts : List (Text × Value)) : Text := received (partsText parts ++ ['\n'])

theorem notMem_changeHead {c : Char} (hdigit : c.isDigit = false) (hminus : c ≠ '-')
    (hblank : c ≠ ' ') (hword : c ∉ "CHANGE".toList) (entid : ℤ) : c ∉ changeHead entid := by
  intro h
  cases List.mem_append.mp h with
  | inl h => exact hword h
  | inr h =>
    simp only [List.mem_cons, hblank, List.mem_append, notMem_decimal hdigit hminus entid,
      List.not_mem_nil, or_self] at h

theorem received_change (entid : ℤ) (parts : List (Text × Value)) :
    received (changeHead entid ++ partsText parts ++ ['\n']) =
      changeHead entid ++ changeArgs parts := by
  have hbreak : '\n' ∉ changeHead entid :=
    notMem_changeHead (by decide) (by decide) (by decide) (by decide) entid
  have hreturn : '\r' ∉ changeHead entid :=
    notMem_changeHead (by decide) (by decide) (by decide) (by decide) entid
  rw [List.append_assoc, received_append hbreak hreturn, changeArgs]

theorem entryId_change (entid : ℤ) (args : Text) :
    RegServ.entryId (some (' ' :: (decimal entid ++ ' ' :: args))) =
      (entid, some (' ' :: args)) := by
  have hblank : ' ' ∉ decimal entid := notMem_decimal (by decide) (by decide) entid
  simp only [RegServ.entryId, Option.getD_some, getToken_blank,
    getToken_word (decimal_ne_nil entid) hblank, atoi_decimal]

theorem handleInput_word {serv : RegServ} {word rest : Text} {command : Command} (hne : word ≠ [])
    (hblank : ' ' ∉ word) (hcommand : commandOf word = some command)
    (hlength : (word ++ ' ' :: rest).length < 400) :
    serv.handleInput (word ++ ' ' :: rest) = serv.on (some (' ' :: rest)) command := by
  rw [RegServ.handleInput, if_pos hlength, getToken_word hne hblank]
  simp only [hcommand]

theorem handleInput_length {serv : RegServ} {line : Text} {out : RegServ × Text}
    (h : serv.handleInput line = .ok out) : line.length < 400 := by
  rw [RegServ.handleInput] at h
  split_ifs at h with hlength
  exact hlength

theorem handleInput_change {serv : RegServ} {entid : ℤ} {args : Text}
    (hlength : (changeHead entid ++ args).length < 400) :
    serv.handleInput (changeHead entid ++ args) =
      serv.onChange (some (' ' :: (decimal entid ++ ' ' :: args))) := by
  have happend : ∀ word : Text, word ++ ' ' :: (decimal entid ++ [' ']) ++ args =
      word ++ ' ' :: (decimal entid ++ ' ' :: args) := by simp
  have htext : changeHead entid ++ args =
      "CHANGE".toList ++ ' ' :: (decimal entid ++ ' ' :: args) := happend _
  have hcommand : commandOf "CHANGE".toList = some .change := by decide +kernel
  rw [htext] at hlength ⊢
  exact handleInput_word (by decide) (by decide) hcommand hlength

/-! What is reported. -/

section Reports
variable (serv : RegServ) (entid : ℤ)

/-- No entry has the id, or the pairs leave the entry without a value it needs, or name a key
that no entry has. -/
def RegServ.Refuses (args : Text) : Prop :=
  ∀ entry, serv.regData.get? entid = some entry →
    ∀ entry', RegServ.changed entry (some (' ' :: args)) = some entry' → entry'.Incomplete

/-- Success is reported when the change has been applied, and failure when the entry is as
it was. -/
def ChangeReported (app site mach node : Option Text) (port pid : ℤ) (comp tag : Option Text) :
    Prop :=
  ∃ serv' ret,
    registryChangeEntry serv entid app site mach node port pid comp tag = .ok (serv', ret) ∧
      (ret ≠ 0 ↔ ¬ serv.Refuses entid
        (changeArgs (requestParts app site mach node port pid comp tag))) ∧
      (ret = 0 ↔ serv'.regData.get? entid = serv.regData.get? entid)

end Reports

theorem onChange_refused {serv : RegServ} {entid : ℤ} {args : Text}
    (h : serv.Refuses entid args) :
    ∃ reply, serv.onChange (some (' ' :: (decimal entid ++ ' ' :: args))) = .ok (serv, reply) := by
  have hanswer : ∀ msg : Text, printed (conversions msg) [] = msg → msg.length < 200 →
      serv.answer 200 msg [] = .ok (serv, msg) := by
    intro msg hmsg hlength
    rw [RegServ.answer, sprintf_eq_ok.mpr ⟨hmsg.symm, hlength⟩]
    rfl
  rw [RegServ.onChange, entryId_change]
  dsimp only
  cases hget : serv.regData.get? entid with
  | none => exact ⟨_, hanswer msgChangeEntryNotFound (by decide) (by decide)⟩
  | some entry =>
    dsimp only
    cases hchanged : RegServ.changed entry (some (' ' :: args)) with
    | none => exact ⟨_, hanswer msgChangeBadFormat (by decide +kernel) (by decide +kernel)⟩
    | some entry' =>
      dsimp only
      rw [if_pos (h entry hget entry' hchanged)]
      exact ⟨_, hanswer msgChangeIncomplete (by decide +kernel) (by decide +kernel)⟩

/-- Every call that returns returns 0. -/
theorem registryChangeEntry_eq_ok {serv : RegServ} {entid : ℤ}
    {app site mach node comp tag : Option Text} {port pid : ℤ} {out : RegServ × ℤ} :
    registryChangeEntry serv entid app site mach node port pid comp tag = .ok out ↔
      let parts := requestParts app site mach node port pid comp tag
      parts ≠ [] ∧ (changeHead entid ++ partsText parts ++ ['\n']).length < bufSize ∧
        (changeHead entid ++ changeArgs parts).length < 400 ∧ out.2 = 0 ∧
        ∃ reply, serv.onChange (some (' ' :: (decimal entid ++ ' ' :: changeArgs parts))) =
          .ok (out.1, reply) := by
  have hhead : printed (conversions "%s %d ".toList) [.text "CHANGE".toList, .number entid] =
      changeHead entid := rfl
  rw [registryChangeEntry]
  dsimp only
  simp only [Outcome.bind_eq_ok, sprintf_eq_ok, hhead]
  constructor
  · rintro ⟨_, ⟨rfl, hfits⟩, ⟨buf, line⟩, hrequest, ⟨serv', reply⟩, hreply, hreturn⟩
    obtain ⟨hline, hbuf, rfl⟩ := (writeRequest_eq_ok hfits).mp hrequest
    rw [received_change] at hreply
    have hlength := handleInput_length hreply
    rw [handleInput_change hlength] at hreply
    cases buf with
    | none => cases hreturn
    | some buf =>
      have hne : requestParts app site mach node port pid comp tag ≠ [] := fun hnil =>
        absurd (hbuf.trans (lastPart_eq_none.mpr hnil)) (Option.some_ne_none buf)
      obtain ⟨part, hpart, rfl⟩ := mem_of_lastPart hbuf.symm
      simp only [sscanf_part hpart, Outcome.pure_eq, Outcome.ok.injEq] at hreturn
      subst hreturn
      exact ⟨hne, hline, hlength, rfl, reply, hreply⟩
  · rintro ⟨hne, hline, hlength, hret, reply, hreply⟩
    have hfits : (changeHead entid).length < bufSize := by
      rw [List.append_assoc, List.length_append] at hline
      omega
    cases hbuf : lastPart none (requestParts app site mach node port pid comp tag) with
    | none => exact absurd (lastPart_eq_none.mp hbuf) hne
    | some buf =>
      obtain ⟨part, hpart, rfl⟩ := mem_of_lastPart hbuf
      refine ⟨_, ⟨rfl, hfits⟩, _, (writeRequest_eq_ok hfits).mpr ⟨hline, hbuf.symm, rfl⟩,
        (out.1, reply), ?_, ?_⟩
      · rw [received_change, handleInput_change hlength, hreply]
      · simp only [sscanf_part hpart, Outcome.pure_eq, ← hret]

/-- The client reports what the server has done exactly when the request has a part, fits the
buffers and is refused. -/
theorem changeReported_iff (serv : RegServ) (entid : ℤ) (app site mach node : Option Text)
    (port pid : ℤ) (comp tag : Option Text) :
    ChangeReported serv entid app site mach node port pid comp tag ↔
      let parts := requestParts app site mach node port pid comp tag
      parts ≠ [] ∧ (changeHead entid ++ partsText parts ++ ['\n']).length < bufSize ∧
        (changeHead entid ++ changeArgs parts).length < 400 ∧
        serv.Refuses entid (changeArgs parts) := by
  constructor
  · rintro ⟨serv', ret, hcall, hsuccess, _⟩
    obtain ⟨hparts, hline, hlength, rfl, _⟩ := registryChangeEntry_eq_ok.mp hcall
    exact ⟨hparts, hline, hlength, not_not.mp fun h => hsuccess.mpr h rfl⟩
  · rintro ⟨hparts, hline, hlength, hrefused⟩
    obtain ⟨reply, hreply⟩ := onChange_refused hrefused
    refine ⟨serv, 0, registryChangeEntry_eq_ok.mpr ⟨hparts, hline, hlength, rfl, reply, hreply⟩, ?_⟩
    exact ⟨by simp [hrefused], by simp⟩

/-- The service says of every change that it has failed. -/
theorem changeEntry_failed {serv : RegServ} {data : RegEntry ℤ} {id : ℤ} {out : RegServ × ℤ}
    (h : changeEntry serv data id = .ok out) : out.2 = -1 := by
  rw [changeEntry] at h
  obtain ⟨⟨serv', ret⟩, hcall, h⟩ := Outcome.bind_eq_ok.mp h
  have hret : ret = 0 := (registryChangeEntry_eq_ok.mp hcall).2.2.2.1
  cases h
  simp [hret]

def ChangesReported : Prop :=
  ∀ serv entid app site mach node port pid comp tag,
    ChangeReported serv entid app site mach node port pid comp tag

/-- The port of the first entry is changed, and failure reported. -/
theorem registryChangeEntry_sample :
    registryChangeEntry sampleServ 1 none none none none 6 0 none none =
      .ok (⟨OrdMap.empty.set 1 { sampleEntry with port := 6 }, 2⟩, 0) := by
  decide +kernel

theorem not_changesReported : ¬ ChangesReported := by
  intro h
  obtain ⟨serv', ret, hcall, _, hfailure⟩ := h sampleServ 1 none none none none 6 0 none none
  rw [registryChangeEntry_sample] at hcall
  have hout := Outcome.ok.inj hcall
  have hserv : (⟨OrdMap.empty.set 1 { sampleEntry with port := 6 }, 2⟩ : RegServ) = serv' :=
    congrArg Prod.fst hout
  have hret : 0 = ret := congrArg Prod.snd hout
  have hsame := hfailure.mp hret.symm
  rw [← hserv] at hsame
  exact absurd hsame (by decide)

end ReadexPtf.Registry
