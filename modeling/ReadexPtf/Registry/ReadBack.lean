import ReadexPtf.Registry.Client

/-! Entries read back by the clients. The server writes a blank behind each string, which
`sscanf` does not read and the client in C keeps. -/
namespace ReadexPtf.Registry

/-- A pair of an entry line. -/
inductive Field where
  | quoted (name text : Text)
  | numeric (name : Text) (v : ℤ)

/-- The pair, and what follows it. -/
def Field.textTo (rest : Text) : Field → Text
  | .quoted name t => name ++ '=' :: '"' :: (t ++ ' ' :: '"' :: rest)
  | .numeric name v => name ++ '=' :: (decimal v ++ rest)

/-- Fields with a blank between them, and what follows them. -/
def fieldsTo (rest : Text) : List Field → Text
  | [] => rest
  | [field] => field.textTo rest
  | field :: fields => field.textTo (' ' :: fieldsTo rest fields)

/-- The text behind a field. -/
def tailTo (rest : Text) : List Field → Text
  | [] => rest
  | fields => ' ' :: fieldsTo rest fields

theorem fieldsTo_cons (rest : Text) (field : Field) (fields : List Field) :
    fieldsTo rest (field :: fields) = field.textTo (tailTo rest fields) := by
  cases fields <;> rfl

theorem textTo_append (rest last : Text) (field : Field) :
    field.textTo (rest ++ last) = field.textTo rest ++ last := by
  cases field <;> simp [Field.textTo]

theorem fieldsTo_append (rest last : Text) (fields : List Field) :
    fieldsTo (rest ++ last) fields = fieldsTo rest fields ++ last := by
  induction fields with
  | nil => rfl
  | cons field fields ih =>
    cases fields with
    | nil => exact textTo_append rest last field
    | cons field' fields =>
      rw [fieldsTo_cons, fieldsTo_cons, ← textTo_append, tailTo, ih]
      · rfl
      · simp

def RegEntry.fields (entry : RegEntry ℤ) : List Field :=
  [.quoted "app".toList entry.app, .quoted "site".toList entry.site,
    .quoted "mach".toList entry.mach, .quoted "node".toList entry.node,
    .numeric "port".toList entry.port, .numeric "pid".toList entry.pid,
    .quoted "comp".toList entry.comp, .quoted "tag".toList entry.tag]

theorem line_eq (id : ℤ) (entry : RegEntry ℤ) :
    entry.line id = "ID ".toList ++ (decimal id ++ ' ' :: fieldsTo ['\n'] entry.fields) := by
  rw [RegEntry.line]
  exact (rfl)

/-! What a client can read around an equality sign of the fields. -/

theorem equals_notMem_decimal (v : ℤ) : '=' ∉ decimal v := by
  intro hmem
  cases of_mem_decimal hmem with
  | inl hdigit => simp at hdigit
  | inr hminus => simp at hminus

/-- The value between two quotes. -/
theorem nextValue_quoted (t : Text) : (nextValue ('"' :: t)).1 = t.takeWhile fun c => c != '"' := by
  have hcontains : (fun c => !"\"".toList.contains c) = fun c : Char => c != '"' := by
    funext c
    simp [bne, Bool.beq_eq_decide_eq]
  have hskip : skipWs ('"' :: t) = '"' :: t := by simp [skipWs]
  simp only [nextValue, hskip, nextToken, hcontains]

/-- A value that a quote opens is shorter than the text that follows it up to the blank, or
has that blank. -/
theorem quoted_value (t rest : Text) :
    ((t ++ ' ' :: '"' :: rest).takeWhile fun c => c != '"').length < t.length ∨
      ' ' ∈ (t ++ ' ' :: '"' :: rest).takeWhile fun c => c != '"' := by
  cases stop_cases (fun c => c != '"') t with
  | inl hall =>
    right
    rw [List.takeWhile_append_of_pos hall]
    simp
  | inr hstop =>
    obtain ⟨w, c, after, rfl, hw, hc⟩ := hstop
    left
    rw [List.append_assoc, List.cons_append, takeWhile_append_stop hw hc]
    simp

/-- The value behind an equality sign inside the string of a field. -/
theorem nextValue_inside (b rest : Text) (hrest : rest = [] ∨ ∃ rest', rest = ' ' :: rest') :
    (nextValue (b ++ ' ' :: '"' :: rest)).1.length ≤ b.length ∨
      ' ' ∈ (nextValue (b ++ ' ' :: '"' :: rest)).1 := by
  have hblank : ((fun c => c == ' ' || c == '\t') ' ') = true := by decide
  cases stop_cases (fun c => c == ' ' || c == '\t') b with
  | inl hall =>
    -- Only blanks follow the sign: the closing quote of the field opens a value.
    have hskip : skipWs (b ++ ' ' :: '"' :: rest) = '"' :: rest := by
      rw [skipWs, List.dropWhile_append_of_pos hall]
      simp
    have hvalue : (nextValue (b ++ ' ' :: '"' :: rest)).1 = rest.takeWhile fun c => c != '"' := by
      rw [← nextValue_quoted]
      simp only [nextValue, hskip]
      simp [skipWs]
    rw [hvalue]
    cases hrest with
    | inl hnil =>
      left
      simp [hnil]
    | inr hcons =>
      obtain ⟨rest', rfl⟩ := hcons
      right
      simp
  | inr hstop =>
    obtain ⟨blanks, c, after, rfl, hblanks, hc⟩ := hstop
    have hskip : skipWs (blanks ++ c :: after ++ ' ' :: '"' :: rest) =
        c :: (after ++ ' ' :: '"' :: rest) := by
      rw [List.append_assoc, skipWs]
      exact dropWhile_append_stop hblanks hc
    by_cases hquote : c = '"'
    · subst hquote
      have hvalue : (nextValue (blanks ++ '"' :: after ++ ' ' :: '"' :: rest)).1 =
          (after ++ ' ' :: '"' :: rest).takeWhile fun c => c != '"' := by
        rw [← nextValue_quoted]
        simp only [nextValue, hskip]
        simp [skipWs]
      rw [hvalue]
      refine (quoted_value after rest).imp_left fun hlt => ?_
      simp only [List.length_append, List.length_cons]
      omega
    · left
      have hvalue : (nextValue (blanks ++ c :: after ++ ' ' :: '"' :: rest)).1 =
          (c :: (after ++ ' ' :: '"' :: rest)).takeWhile fun c => !" \t".toList.contains c := by
        rw [nextValue, hskip]
        split
        · rename_i heq
          exact absurd (List.cons.inj heq).1 hquote
        · rfl
      rw [hvalue, ← List.cons_append]
      have hstops : (c :: after ++ ' ' :: '"' :: rest).takeWhile
          (fun c => !" \t".toList.contains c) <+: c :: after := by
        rw [List.takeWhile_append]
        split_ifs
        · simp
        · exact List.takeWhile_prefix _
      have hlength := hstops.length_le
      simp only [List.length_append, List.length_cons] at hlength ⊢
      omega

/-- An element of two lists together is in the first or in the second. -/
theorem append_eq_around {t y pre post : Text} {c : Char} (h : t ++ y = pre ++ c :: post) :
    (∃ b, t = pre ++ c :: b ∧ post = b ++ y) ∨ ∃ pre', pre = t ++ pre' ∧ y = pre' ++ c :: post := by
  cases List.append_eq_append_iff.mp h with
  | inl hpre =>
    obtain ⟨pre', hpre, hy⟩ := hpre
    exact .inr ⟨pre', hpre, hy⟩
  | inr hsplit =>
    obtain ⟨b, ht, hpost⟩ := hsplit
    cases b with
    | nil =>
      rw [List.append_nil] at ht
      exact .inr ⟨[], by rw [List.append_nil, ht], by simpa using hpost.symm⟩
    | cons d b =>
      obtain ⟨rfl, rfl⟩ := List.cons.inj hpost
      exact .inl ⟨b, ht, rfl⟩

theorem append_eq_after {t y pre post : Text} {c : Char} (h : t ++ y = pre ++ c :: post)
    (hc : c ∉ t) : ∃ pre', pre = t ++ pre' ∧ y = pre' ++ c :: post := by
  refine (append_eq_around h).resolve_left fun hinside => ?_
  obtain ⟨b, ht, _⟩ := hinside
  exact hc (by simp [ht])

theorem cons_eq_after {c d : Char} {y pre post : Text} (h : d :: y = pre ++ c :: post)
    (hne : d ≠ c) : ∃ pre', pre = d :: pre' ∧ y = pre' ++ c :: post :=
  append_eq_after (t := [d]) h (by simp [hne.symm])

/-- What can stand around an equality sign: a number behind its name, or a value that is
shorter than a string of the fields or has a blank. -/
theorem around_equals : ∀ {fields : List Field} {pre post : Text},
    (∀ name t, Field.quoted name t ∈ fields → '=' ∉ name) →
    (∀ name v, Field.numeric name v ∈ fields → '=' ∉ name) →
    fieldsTo [] fields = pre ++ '=' :: post →
    (∃ name v, Field.numeric name v ∈ fields ∧ name <:+ pre) ∨
      ∃ name t, Field.quoted name t ∈ fields ∧
        ((nextValue post).1.length < t.length ∨ ' ' ∈ (nextValue post).1) := by
  intro fields
  induction fields with
  | nil =>
    intro pre post _ _ h
    simp [fieldsTo] at h
  | cons field fields ih =>
    intro pre post hquoted hnumeric h
    -- Behind the first field the sign belongs to the others.
    have hlater : ∀ before pre' : Text, pre = before ++ pre' →
        tailTo [] fields = pre' ++ '=' :: post →
        (∃ name v, Field.numeric name v ∈ field :: fields ∧ name <:+ pre) ∨
          ∃ name t, Field.quoted name t ∈ field :: fields ∧
            ((nextValue post).1.length < t.length ∨ ' ' ∈ (nextValue post).1) := by
      intro before pre' hpre htail
      cases fields with
      | nil => simp [tailTo] at htail
      | cons next fields =>
        obtain ⟨pre'', rfl, hfields⟩ := cons_eq_after (show _ :: _ = _ from htail) (by decide)
        cases ih (fun name t hmem => hquoted name t (List.mem_cons_of_mem _ hmem))
          (fun name v hmem => hnumeric name v (List.mem_cons_of_mem _ hmem)) hfields with
        | inl hnumber =>
          obtain ⟨name, v, hmem, hsuffix⟩ := hnumber
          refine .inl ⟨name, v, List.mem_cons_of_mem _ hmem, hsuffix.trans ?_⟩
          rw [hpre]
          exact (List.suffix_cons ' ' pre'').trans (List.suffix_append before _)
        | inr hstring =>
          obtain ⟨name, t, hmem, hvalue⟩ := hstring
          exact .inr ⟨name, t, List.mem_cons_of_mem _ hmem, hvalue⟩
    rw [fieldsTo_cons] at h
    cases field with
    | numeric name v =>
      have hname := hnumeric name v List.mem_cons_self
      obtain ⟨pre', hpre, hrest⟩ := append_eq_after h hname
      cases pre' with
      | nil =>
        rw [List.append_nil] at hpre
        exact .inl ⟨name, v, List.mem_cons_self, hpre ▸ List.suffix_refl _⟩
      | cons c pre' =>
        obtain ⟨rfl, hdigits⟩ := List.cons.inj hrest
        obtain ⟨pre'', hpre', htail⟩ := append_eq_after hdigits (equals_notMem_decimal v)
        refine hlater (name ++ '=' :: decimal v) pre'' ?_ htail
        rw [hpre, hpre']
        simp
    | quoted name t =>
      have hname := hquoted name t List.mem_cons_self
      obtain ⟨pre', hpre, hrest⟩ := append_eq_after h hname
      have htail : tailTo [] fields = [] ∨ ∃ rest, tailTo [] fields = ' ' :: rest := by
        cases fields with
        | nil => exact .inl rfl
        | cons next fields => exact .inr ⟨_, rfl⟩
      cases pre' with
      | nil =>
        have hpost : post = '"' :: (t ++ ' ' :: '"' :: tailTo [] fields) :=
          (List.cons.inj hrest).2.symm
        refine .inr ⟨name, t, List.mem_cons_self, ?_⟩
        rw [hpost, nextValue_quoted]
        exact quoted_value t _
      | cons c pre' =>
        obtain ⟨rfl, hopened⟩ := List.cons.inj hrest
        obtain ⟨pre'', rfl, hstring⟩ := cons_eq_after hopened (by decide)
        cases append_eq_around hstring with
        | inl hinside =>
          obtain ⟨b, ht, hpost⟩ := hinside
          refine .inr ⟨name, t, List.mem_cons_self, ?_⟩
          rw [hpost]
          refine (nextValue_inside b _ htail).imp_left fun hle => ?_
          rw [ht, List.length_append, List.length_cons]
          omega
        | inr hafter =>
          obtain ⟨pre₁, rfl, hblank⟩ := hafter
          obtain ⟨pre₂, rfl, hclosed⟩ := cons_eq_after hblank (by decide)
          obtain ⟨pre₃, rfl, hothers⟩ := cons_eq_after hclosed (by decide)
          refine hlater (name ++ '=' :: '"' :: (t ++ [' ', '"'])) pre₃ ?_ hothers
          rw [hpre]
          simp

/-- The strings of an entry with their keys. -/
def RegEntry.named (entry : RegEntry ℤ) : List (Text × Text) :=
  [("app".toList, entry.app), ("site".toList, entry.site), ("mach".toList, entry.mach),
    ("node".toList, entry.node), ("comp".toList, entry.comp), ("tag".toList, entry.tag)]

def stringKeys : List Text :=
  ["app".toList, "site".toList, "mach".toList, "node".toList, "comp".toList, "tag".toList]

theorem key_of_mem_named {entry : RegEntry ℤ} {pair : Text × Text} (h : pair ∈ entry.named) :
    pair.1 ∈ stringKeys :=
  (List.mem_map_of_mem h : Prod.fst pair ∈ entry.named.map Prod.fst)

theorem strings_eq (entry : RegEntry ℤ) : entry.strings = entry.named.map Prod.snd := rfl

/-- All that an entry has, filled in. -/
def Filled.ofEntry (entry : RegEntry ℤ) : Filled :=
  ⟨some entry.app, some entry.site, some entry.mach, some entry.node, some entry.port,
    some entry.pid, some entry.comp, some entry.tag⟩

theorem mem_of_valueOf {kv : List (Text × Text)} {key val : Text}
    (h : valueOf kv key = some val) : (key, val) ∈ kv := by
  obtain ⟨pair, hfind, hval⟩ := Option.map_eq_some_iff.mp h
  have hkey : pair.1 = key := by simpa using List.find?_some hfind
  have hmem := List.mem_reverse.mp (List.mem_of_find?_eq_some hfind)
  rwa [← hkey, ← hval]

theorem mem_of_fill {kv : List (Text × Text)} {entry : RegEntry ℤ}
    (h : fill kv = .ok (Filled.ofEntry entry)) : ∀ pair ∈ entry.named, pair ∈ kv := by
  rw [fill] at h
  split at h
  · cases h
  · rename_i tag htag
    have hfilled := Outcome.ok.inj h
    simp only [Filled.ofEntry, Filled.mk.injEq, Option.some.injEq] at hfilled
    obtain ⟨happ, hsite, hmach, hnode, _, _, hcomp, htag'⟩ := hfilled
    intro pair hpair
    simp only [RegEntry.named, List.mem_cons, List.not_mem_nil, or_false] at hpair
    rcases hpair with rfl | rfl | rfl | rfl | rfl | rfl
    · exact mem_of_valueOf happ
    · exact mem_of_valueOf hsite
    · exact mem_of_valueOf hmach
    · exact mem_of_valueOf hnode
    · exact mem_of_valueOf hcomp
    · exact mem_of_valueOf (htag' ▸ htag)

/-- The keys of the numbers end with other letters than those of the strings. -/
theorem numeric_not_suffix {entry : RegEntry ℤ} {name before blanks : Text} {v : ℤ}
    {pair : Text × Text} (hname : Field.numeric name v ∈ entry.fields) (hpair : pair ∈ entry.named)
    (hblanks : ∀ c ∈ blanks, c = ' ' ∨ c = '\t') : ¬ name <:+ before ++ pair.1 ++ blanks := by
  intro hsuffix
  have hlast : name.getLast? = some 't' ∨ name.getLast? = some 'd' := by
    simp only [RegEntry.fields, List.mem_cons, reduceCtorEq, Field.numeric.injEq, false_or,
      List.not_mem_nil, or_false] at hname
    rcases hname with ⟨rfl, _⟩ | ⟨rfl, _⟩
    · exact .inl (by decide)
    · exact .inr (by decide)
  have hne : name ≠ [] := by
    rintro rfl
    simp at hlast
  obtain ⟨first, hfirst⟩ := hsuffix
  have hends : (before ++ pair.1 ++ blanks).getLast? = name.getLast? := by
    rw [← hfirst, List.getLast?_append_of_ne_nil first hne]
  cases List.eq_nil_or_concat blanks with
  | inl hnil =>
    have hkeys : ∀ key ∈ stringKeys,
        key.getLast? ∈ [some 'p', some 'e', some 'h', some 'g'] ∧ key ≠ [] := by decide
    have hkey := hkeys pair.1 (key_of_mem_named hpair)
    rw [hnil, List.append_nil, List.getLast?_append_of_ne_nil before hkey.2] at hends
    rw [hends] at hkey
    cases hlast with
    | inl ht => exact absurd (ht ▸ hkey.1) (by decide)
    | inr hd => exact absurd (hd ▸ hkey.1) (by decide)
  | inr hconcat =>
    obtain ⟨blanks', c, rfl⟩ := hconcat
    rw [List.concat_eq_append, ← List.append_assoc, List.getLast?_concat] at hends
    have hc := hblanks c (by simp)
    rw [← hends] at hlast
    simp only [Option.some.injEq] at hlast
    rcases hlast with rfl | rfl <;> simp at hc

/-- The pairs of an entry line do not give back strings without blanks: the longest string
would have to stand inside a longer one. -/
theorem not_fill {entry : RegEntry ℤ} (hblank : ∀ t ∈ entry.strings, ' ' ∉ t) :
    fill (makeKeyValuePairs (fieldsTo [] entry.fields)) ≠ .ok (Filled.ofEntry entry) := by
  intro h
  obtain ⟨pair, hpair, hlongest⟩ : ∃ pair ∈ entry.named, ∀ other ∈ entry.named,
      other.2.length ≤ pair.2.length := by
    cases hmax : entry.named.argmax fun pair => pair.2.length with
    | none => exact absurd (List.argmax_eq_none.mp hmax) (by simp [RegEntry.named])
    | some pair =>
      refine ⟨pair, List.argmax_mem hmax, fun other hother => ?_⟩
      exact List.le_of_mem_argmax (f := fun pair : Text × Text => pair.2.length) hother hmax
  obtain ⟨before, blanks, after, haround, hblanks, hvalue⟩ :=
    nextPairs_around (mem_of_fill h pair hpair)
  have hstring : ∀ name t, Field.quoted name t ∈ entry.fields → (name, t) ∈ entry.named := by
    intro name t hmem
    simp only [RegEntry.fields, List.mem_cons, Field.quoted.injEq, reduceCtorEq, List.not_mem_nil,
      or_false, false_or] at hmem
    rcases hmem with ⟨rfl, rfl⟩ | ⟨rfl, rfl⟩ | ⟨rfl, rfl⟩ | ⟨rfl, rfl⟩ | ⟨rfl, rfl⟩ | ⟨rfl, rfl⟩ <;>
      simp only [RegEntry.named, List.mem_cons, true_or, or_true]
  have hquoted : ∀ name t, Field.quoted name t ∈ entry.fields → '=' ∉ name := by
    intro name t hmem
    have hkeys : ∀ key ∈ stringKeys, '=' ∉ key := by decide
    exact hkeys name (key_of_mem_named (hstring name t hmem))
  have hnumeric : ∀ name v, Field.numeric name v ∈ entry.fields → '=' ∉ name := by
    intro name v hmem
    simp only [RegEntry.fields, List.mem_cons, reduceCtorEq, Field.numeric.injEq, false_or,
      List.not_mem_nil, or_false] at hmem
    rcases hmem with ⟨rfl, _⟩ | ⟨rfl, _⟩ <;> decide
  cases around_equals hquoted hnumeric haround with
  | inl hnumber =>
    obtain ⟨name, v, hmem, hsuffix⟩ := hnumber
    exact numeric_not_suffix hmem hpair hblanks hsuffix
  | inr hread =>
    obtain ⟨name, t, hmem, hvalue'⟩ := hread
    rw [← hvalue] at hvalue'
    cases hvalue' with
    | inl hshorter => exact absurd (hlongest _ (hstring name t hmem)) (by simpa using hshorter)
    | inr hblank' =>
      exact hblank pair.2 (strings_eq entry ▸ List.mem_map_of_mem hpair) hblank'

/-! The lines on the wire. -/

theorem socketReadLine_line {maxlen : ℕ} {w rest : Text} (hw : '\n' ∉ w)
    (hlength : w.length < maxlen - 1) :
    socketReadLine maxlen (w ++ '\n' :: rest) = (w, rest) := by
  have hall : ∀ c ∈ w, (c != '\n') = true := fun c hc => by
    simpa using ne_of_mem_of_not_mem hc hw
  have htake : ((w ++ '\n' :: rest).take (maxlen - 1)).takeWhile (fun c => c != '\n') = w := by
    rw [List.take_append, List.take_of_length_le hlength.le]
    obtain ⟨n, hn⟩ : ∃ n, maxlen - 1 - w.length = n + 1 := ⟨_, (Nat.sub_add_cancel (by omega)).symm⟩
    rw [hn, List.take_succ_cons, takeWhile_append_stop hall (by decide)]
  simp only [socketReadLine, htake, if_pos hlength, List.drop_left, List.tail_cons]

theorem socketReadLine_bufSize {w rest : Text} (hw : '\n' ∉ w) (hlength : w.length < 400) :
    socketReadLine bufSize (w ++ '\n' :: rest) = (w, rest) :=
  socketReadLine_line hw (lt_trans hlength (by decide))

/-- Nothing in a line ends it. -/
theorem received_line {w : Text} (hbreak : '\n' ∉ w) (hreturn : '\r' ∉ w) :
    received (w ++ ['\n']) = w := by
  have hall : ∀ c ∈ w, (c != '\n') = true := fun c hc => by
    simpa using ne_of_mem_of_not_mem hc hbreak
  rw [received, takeWhile_append_stop hall (by decide)]
  exact List.filter_eq_self.mpr fun c hc => by simpa using ne_of_mem_of_not_mem hc hreturn

theorem notMem_decimal {c : Char} (hdigit : c.isDigit = false) (hminus : c ≠ '-') (v : ℤ) :
    c ∉ decimal v := by
  intro hmem
  cases of_mem_decimal hmem with
  | inl h => simp [h] at hdigit
  | inr h => exact hminus h

/-- The characters of an entry line are those of its strings, of its numbers and of the format. -/
theorem break_notMem_fields {entry : RegEntry ℤ} (h : ∀ t ∈ entry.strings, '\n' ∉ t) :
    '\n' ∉ fieldsTo [] entry.fields := by
  have hdecimal : ∀ v, '\n' ∉ decimal v := notMem_decimal (by decide) (by decide)
  simp only [RegEntry.strings, List.forall_mem_cons, List.not_mem_nil, false_implies, implies_true,
    and_true] at h
  obtain ⟨happ, hsite, hmach, hnode, hcomp, htag⟩ := h
  simp [RegEntry.fields, fieldsTo, Field.textTo, happ, hsite, hmach, hnode, hcomp, htag, hdecimal]

theorem entryId_decimal (id : ℤ) : RegServ.entryId (some (' ' :: decimal id)) = (id, none) := by
  have hblank : ∀ c ∈ decimal id, " ".toList.contains c = false := by
    intro c hc
    have hne : c ≠ ' ' := ne_of_mem_of_not_mem hc (notMem_decimal (by decide) (by decide) id)
    simpa using hne
  have hstart : (' ' :: decimal id).dropWhile " ".toList.contains = decimal id := by
    rw [List.dropWhile_cons_of_pos (by decide)]
    cases hdecimal : decimal id with
    | nil => rfl
    | cons c cs =>
      have hc := hblank c (hdecimal ▸ List.mem_cons_self)
      rw [List.dropWhile_cons_of_neg (by rw [hc]; decide)]
  have hend : (decimal id).dropWhile (fun c => !" ".toList.contains c) = [] := by
    refine List.dropWhile_eq_nil_iff.mpr fun c hc => ?_
    simp only [hblank c hc, Bool.not_false]
  simp only [RegServ.entryId, Option.getD_some, getToken, hstart, hend, atoi_decimal]

/-- The request to show an entry is read as such. -/
theorem handleInput_show {serv : RegServ} {id : ℤ} {line : Text}
    (h : sprintf bufSize "%s %d\n".toList [.text "SHOW".toList, .number id] = .ok line)
    {out : RegServ × Text} (hout : serv.handleInput (received line) = .ok out) :
    serv.onShow (some (' ' :: decimal id)) = .ok out := by
  have hline : line = ("SHOW ".toList ++ decimal id) ++ ['\n'] := by
    rw [sprintf] at h
    split_ifs at h
    rw [← Outcome.ok.inj h]
    simp [conversions, printed]
  have hdecimal : ∀ c, c.isDigit = false → c ≠ '-' → c ∉ "SHOW ".toList →
      c ∉ "SHOW ".toList ++ decimal id := by
    intro c hdigit hminus hword hmem
    exact (List.mem_append.mp hmem).elim hword (notMem_decimal hdigit hminus id)
  rw [hline, received_line (hdecimal _ (by decide) (by decide) (by decide))
    (hdecimal _ (by decide) (by decide) (by decide)), RegServ.handleInput] at hout
  split_ifs at hout
  exact hout

theorem isDigit_false_of_mem_head {t : Text} (c : Char) (hc : c.isDigit = false) :
    ∀ d ∈ (c :: t).head?, d.isDigit = false := by
  intro d hd
  rw [List.head?_cons, Option.mem_some_iff] at hd
  exact hd ▸ hc

/-- A number does not start with a blank. -/
theorem decimal_head (v : ℤ) (rest : Text) :
    ∀ c ∈ (decimal v ++ rest).head?, isSpace c = false := by
  intro c hc
  rw [List.head?_append_of_ne_nil _ (decimal_ne_nil v)] at hc
  cases of_mem_decimal (List.mem_of_mem_head? hc) with
  | inl hdigit => exact (plain_of_isDigit hdigit).1
  | inr hminus =>
    rw [hminus]
    decide

/-- The number and the rest of an entry line. -/
theorem sscanf_line {id : ℤ} {rest : Text} (hne : rest ≠ []) (hbreak : '\n' ∉ rest)
    (hstart : ∀ c ∈ rest.head?, isSpace c = false) :
    sscanf ("ID ".toList ++ (decimal id ++ ' ' :: rest)) "ID %d %[^\n]".toList =
      [.number id, .text rest] := by
  have hformat : conversions "ID %d %[^\n]".toList =
      "ID".toList.map .literal ++ .literal ' ' :: .number :: .literal ' ' :: [.line] := by decide
  have htext : "ID ".toList ++ (decimal id ++ ' ' :: rest) =
      "ID".toList ++ ' ' :: (decimal id ++ ' ' :: rest) := rfl
  have hline : rest.takeWhile (fun c => c != '\n') = rest := by
    refine List.takeWhile_eq_self_iff.mpr fun c hc => ?_
    simpa using ne_of_mem_of_not_mem hc hbreak
  have hword : ∀ c ∈ "ID".toList, isSpace c = false := by simp [isSpace]
  rw [sscanf, hformat, htext, scanned_literals hword, scanned_blank (decimal_head _ _),
    scanned_number (isDigit_false_of_mem_head _ (by decide)), scanned_blank hstart]
  simp [scanned, hline, hne]

theorem fields_start (entry : RegEntry ℤ) (rest : Text) :
    ∃ t, fieldsTo rest entry.fields = 'a' :: t := by
  have happ : "app".toList = ['a', 'p', 'p'] := by decide
  rw [RegEntry.fields, fieldsTo_cons, Field.textTo, happ]
  exact ⟨_, List.cons_append⟩

/-- The reply to the request: one line of success, then the entry. -/
theorem registryFillin_fills {serv : RegServ} {id : ℤ} {entry : RegEntry ℤ}
    {result : ℤ × Filled} (hget : serv.regData.get? id = some entry)
    (hstrings : ∀ t ∈ entry.strings, '\n' ∉ t) (h : registryFillin serv id = .ok (some result)) :
    fill (makeKeyValuePairs (fieldsTo [] entry.fields)) = .ok result.2 := by
  rw [registryFillin] at h
  obtain ⟨request, hrequest, h⟩ := Outcome.bind_eq_ok.mp h
  obtain ⟨⟨serv', reply⟩, hreply, h⟩ := Outcome.bind_eq_ok.mp h
  have hshown := handleInput_show hrequest hreply
  simp only [RegServ.onShow, entryId_decimal, hget] at hshown
  obtain ⟨head, hhead, hshown⟩ := Outcome.bind_eq_ok.mp hshown
  obtain ⟨line, hline, hshown⟩ := Outcome.bind_eq_ok.mp hshown
  obtain ⟨hhead, hheadlength⟩ := sprintf_eq_ok.mp hhead
  obtain ⟨hline, hlinelength⟩ := sprintf_eq_ok.mp hline
  have hdecimal : '\n' ∉ decimal id := notMem_decimal (by decide) (by decide) id
  -- The two lines as they are written.
  have hfirst : head = ("+OK showing entry ".toList ++ decimal id) ++ ['\n'] := by
    rw [hhead]
    simp [msgShowSuccess, success, conversions, printed]
  have hsecond : line = ("ID ".toList ++ (decimal id ++ ' ' :: fieldsTo [] entry.fields)) ++ ['\n'] := by
    have hfields := fieldsTo_append [] ['\n'] entry.fields
    rw [List.nil_append] at hfields
    rw [hline, ← RegEntry.line, line_eq, hfields]
    simp only [List.append_assoc, List.cons_append]
  have hbreak := break_notMem_fields hstrings
  have hfirstbreak : '\n' ∉ "+OK showing entry ".toList ++ decimal id := by
    intro hmem
    exact (List.mem_append.mp hmem).elim (by decide) hdecimal
  have hsecondbreak : '\n' ∉ "ID ".toList ++ (decimal id ++ ' ' :: fieldsTo [] entry.fields) := by
    simp [hdecimal, hbreak]
  have hreplied : reply = ("+OK showing entry ".toList ++ decimal id) ++ '\n' ::
      (("ID ".toList ++ (decimal id ++ ' ' :: fieldsTo [] entry.fields)) ++ '\n' :: []) := by
    have hsnd : head ++ line = reply := congrArg Prod.snd (Outcome.ok.inj hshown)
    rw [← hsnd, hfirst, hsecond]
    simp only [List.append_assoc, List.cons_append, List.nil_append]
  rw [hfirst, List.length_append, List.length_singleton] at hheadlength
  rw [hsecond, List.length_append, List.length_singleton] at hlinelength
  simp only [hreplied, socketReadLine_bufSize hfirstbreak (Nat.lt_of_succ_lt hheadlength),
    socketReadLine_bufSize hsecondbreak (Nat.lt_of_succ_lt hlinelength)] at h
  split_ifs at h
  · cases h
  · obtain ⟨t, ht⟩ := fields_start entry []
    rw [sscanf_line (by simp [ht]) hbreak (by rw [ht]; simp; decide)] at h
    obtain ⟨filled, hfilled, h⟩ := Outcome.bind_eq_ok.mp h
    cases h
    exact hfilled

/-! The line as `sscanf` reads it. -/

/-- The conversions for a field, and those that follow it. -/
def Field.formatTo (last : List Conversion) : Field → List Conversion
  | .quoted name _ =>
    (name ++ ['=', '"']).map .literal ++ .word :: .literal ' ' :: .literal '"' :: last
  | .numeric name _ => (name ++ ['=']).map .literal ++ .number :: last

def formatsTo (last : List Conversion) : List Field → List Conversion
  | [] => last
  | [field] => field.formatTo last
  | field :: fields => field.formatTo (.literal ' ' :: formatsTo last fields)

def Field.value : Field → Value
  | .quoted _ t => .text t
  | .numeric _ v => .number v

def Field.Readable : Field → Prop
  | .quoted name t => Plain name ∧ Plain t
  | .numeric name _ => Plain name

theorem conversions_strEntryData (entry : RegEntry ℤ) : conversions strEntryData =
    "ID".toList.map .literal ++ .literal ' ' :: .number :: .literal ' ' ::
      formatsTo [.literal '\n'] entry.fields := by
  exact (rfl)

theorem scanned_field {field : Field} {rest : Text} {fs : List Conversion}
    (hfield : field.Readable) (hrest : ∀ c ∈ rest.head?, c.isDigit = false) :
    scanned (field.formatTo fs) (field.textTo rest) = field.value :: scanned fs rest := by
  cases field with
  | quoted name t =>
    obtain ⟨hname, ht⟩ := hfield
    have htext : (Field.quoted name t).textTo rest =
        (name ++ ['=', '"']) ++ (t ++ ' ' :: '"' :: rest) := by
      simp [Field.textTo]
    have hquote : ∀ c ∈ ('"' :: rest).head?, isSpace c = false := by simp [isSpace]
    have hclosed : scanned (['"'].map .literal ++ fs) (['"'] ++ rest) = scanned fs rest :=
      scanned_literals (by simp [isSpace])
    rw [Field.formatTo, htext, scanned_literals (hname.append (by simp [isSpace])),
      scanned_word ht.1 ht.2, scanned_blank hquote]
    exact congrArg _ hclosed
  | numeric name v =>
    have htext : (Field.numeric name v).textTo rest = (name ++ ['=']) ++ (decimal v ++ rest) := by
      simp [Field.textTo]
    have hname : Plain name := hfield
    rw [Field.formatTo, htext, scanned_literals (hname.append (by simp [isSpace])),
      scanned_number hrest]
    rfl

theorem fieldsTo_head {field : Field} {fields : List Field} (hfield : field.Readable) :
    ∀ c ∈ (fieldsTo [] (field :: fields)).head?, isSpace c = false := by
  rw [fieldsTo_cons]
  have hname : ∀ name rest : Text, Plain name → ∀ c ∈ (name ++ rest).head?, isSpace c = false := by
    intro name rest hname c hc
    rw [List.head?_append_of_ne_nil name hname.1] at hc
    exact hname.2 c (List.mem_of_mem_head? hc)
  cases field with
  | quoted name t => exact hname name _ hfield.1
  | numeric name v => exact hname name _ hfield

/-- Reading back all fields. -/
theorem scanned_fields : ∀ {fields : List Field}, (∀ field ∈ fields, field.Readable) →
    scanned (formatsTo [.literal '\n'] fields) (fieldsTo [] fields) = fields.map Field.value := by
  intro fields
  induction fields with
  | nil =>
    intro _
    simp [formatsTo, fieldsTo, scanned, isSpace]
  | cons field fields ih =>
    intro h
    have hfield := h field List.mem_cons_self
    cases fields with
    | nil =>
      rw [formatsTo, fieldsTo, scanned_field hfield (by simp)]
      simp [scanned, isSpace]
    | cons next fields =>
      have hnext : ∀ other ∈ next :: fields, other.Readable := fun other hother =>
        h other (List.mem_cons_of_mem field hother)
      have hformats : formatsTo [.literal '\n'] (field :: next :: fields) =
          field.formatTo (.literal ' ' :: formatsTo [.literal '\n'] (next :: fields)) := rfl
      have hfields : fieldsTo [] (field :: next :: fields) =
          field.textTo (' ' :: fieldsTo [] (next :: fields)) := rfl
      rw [hformats, hfields, scanned_field hfield (isDigit_false_of_mem_head _ (by decide)),
        scanned_blank (fieldsTo_head (hnext next List.mem_cons_self)), ih hnext, List.map_cons,
        List.map_cons, List.map_cons]

theorem readable_fields {entry : RegEntry ℤ} (h : ∀ t ∈ entry.strings, Plain t) :
    ∀ field ∈ entry.fields, field.Readable := by
  have hplain : ∀ key ∈ stringKeys ++ ["port".toList, "pid".toList], Plain key := by
    simp [stringKeys, Plain, isSpace]
  simp only [stringKeys, List.cons_append, List.nil_append, List.forall_mem_cons,
    List.not_mem_nil, false_implies, implies_true, and_true] at hplain
  simp only [RegEntry.strings, List.forall_mem_cons, List.not_mem_nil, false_implies,
    implies_true, and_true] at h
  obtain ⟨happ, hsite, hmach, hnode, hcomp, htag⟩ := h
  obtain ⟨kapp, ksite, kmach, knode, kcomp, ktag, kport, kpid⟩ := hplain
  simp only [RegEntry.fields, List.forall_mem_cons, List.not_mem_nil, false_implies, implies_true,
    and_true, Field.Readable]
  exact ⟨⟨kapp, happ⟩, ⟨ksite, hsite⟩, ⟨kmach, hmach⟩, ⟨knode, hnode⟩, kport, kpid,
    ⟨kcomp, hcomp⟩, ktag, htag⟩

/-- The line of an entry without blanks gives all that it has. -/
theorem sscanf_entry {id : ℤ} {entry : RegEntry ℤ} (h : ∀ t ∈ entry.strings, Plain t) :
    sscanf ("ID ".toList ++ (decimal id ++ ' ' :: fieldsTo [] entry.fields)) strEntryData =
      entry.values id := by
  have hreadable := readable_fields h
  have htext : "ID ".toList ++ (decimal id ++ ' ' :: fieldsTo [] entry.fields) =
      "ID".toList ++ ' ' :: (decimal id ++ ' ' :: fieldsTo [] entry.fields) := rfl
  have hword : ∀ c ∈ "ID".toList, isSpace c = false := by simp [isSpace]
  have hhead : ∀ c ∈ (fieldsTo [] entry.fields).head?, isSpace c = false :=
    fieldsTo_head (hreadable _ List.mem_cons_self)
  rw [sscanf, conversions_strEntryData entry, htext, scanned_literals hword,
    scanned_blank (decimal_head _ _), scanned_number (isDigit_false_of_mem_head _ (by decide)),
    scanned_blank hhead, scanned_fields hreadable]
  rfl

end ReadexPtf.Registry
