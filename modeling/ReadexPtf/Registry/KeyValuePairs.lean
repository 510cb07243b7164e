import ReadexPtf.Registry.Changes

/-! Pairs of keys and quoted values, as they are written into a line and read from it. -/
namespace ReadexPtf.Registry

/-- A pair as the clients write it, with the blanks behind it. -/
structure QuotedPair where
  key : Text
  value : Text
  blanks : ℕ
  noQuote : '"' ∉ value

def QuotedPair.kv (pair : QuotedPair) : Text × Text := (pair.key, pair.value)

/-- The pairs of a line; blanks stand before the first as well. -/
def pairsText (lead : ℕ) : List QuotedPair → Text
  | [] => List.replicate lead ' '
  | pair :: pairs =>
    List.replicate lead ' ' ++ pair.key ++ '=' :: '"' :: (pair.value ++ '"' ::
      pairsText pair.blanks pairs)

/-- What the commands take from a line: they pass over an empty key. -/
def readPairs (rounds : ℕ) (line : Text) : List (Text × Text) :=
  (pairsFrom id rounds line).filter fun pair => pair.1 ≠ []

/-- However many rounds are allowed, as long as there are more than characters. -/
def ReadsBack (lead : ℕ) (pairs : List QuotedPair) : Prop :=
  ∀ rounds, (pairsText lead pairs).length < rounds →
    readPairs rounds (pairsText lead pairs) = pairs.map QuotedPair.kv

/-- A key that is a token between the delimiters. -/
def IsKey (key : Text) : Prop := key ≠ [] ∧ ' ' ∉ key ∧ '=' ∉ key

/-- An empty value has its quotes taken for the start of what follows them, so nothing may. -/
def EmptyLast (pairs : List QuotedPair) : Prop :=
  ∀ before pair after, pairs = before ++ pair :: after → pair.value = [] →
    after = [] ∧ pair.blanks = 0

section Rounds

theorem getToken_length {delim rest rest' : Text} (h : (getToken delim rest).2 = some rest') :
    rest'.length ≤ rest.length := by
  have hbody := (List.dropWhile_suffix (l := rest) delim.contains).length_le
  simp only [getToken] at h
  split at h
  · cases h
  · rename_i c cs hdrop
    cases h
    rw [← hdrop]
    exact ((List.dropWhile_suffix _).length_le).trans hbody

theorem strskipWs_length {rest rest' : Text} (h : strskipWs rest = some rest') :
    rest'.length ≤ rest.length := by
  rw [strskipWs] at h
  split at h
  · cases h
  · rename_i c cs hdrop
    cases h
    rw [← hdrop]
    exact (List.dropWhile_suffix _).length_le

/-- A pair takes an equality sign at least. -/
theorem getKeyValuePair_length {rest rest' : Text} (h : (getKeyValuePair rest).2 = some rest') :
    rest'.length < rest.length := by
  rw [getKeyValuePair] at h
  split at h
  · cases h
  · rename_i key p1 hkey
    have hp1 : p1.length ≤ rest.length := getToken_length (by rw [hkey])
    split at h
    · rename_i p2 hsign
      have hp2 := strskipWs_length hsign
      rw [List.length_cons] at hp2
      split at h
      · cases h
      · rename_i p3 hvalue
        have hp3 := strskipWs_length hvalue
        have htoken : ∀ delim, (getToken delim p3).2.map List.tail = some rest' →
            rest'.length ≤ p3.length := by
          intro delim htail
          obtain ⟨p4, hp4, rfl⟩ := Option.map_eq_some_iff.mp htail
          exact (List.tail_suffix p4).length_le.trans (getToken_length hp4)
        split_ifs at h
        · have hrest := htoken _ h
          omega
        · have hrest := htoken _ h
          omega
    · cases h

/-- The rounds come to an end by themselves. -/
theorem pairsFrom_rounds {rounds : ℕ} {rest : Text} (h : rest.length < rounds) :
    pairsFrom id rounds rest = pairsFrom id (rest.length + 1) rest := by
  induction rounds using Nat.strong_induction_on generalizing rest with
  | _ rounds ih =>
    obtain ⟨rounds, rfl⟩ : ∃ n, rounds = n + 1 := ⟨rounds - 1, by omega⟩
    simp only [pairsFrom, id_eq]
    cases hnext : (getKeyValuePair rest).2 with
    | none => rfl
    | some rest' =>
      have hless := getKeyValuePair_length hnext
      simp only [List.cons.injEq, true_and]
      rcases Nat.lt_or_ge rest.length rounds with hlt | hge
      · rw [ih rounds (by omega) (by omega), ih rest.length (by omega) hless]
      · rw [show rounds = rest.length by omega]

end Rounds

section Keys

/-- What is read as a key is empty, or a token between the delimiters. -/
theorem getKeyValuePair_key (rest : Text) :
    (getKeyValuePair rest).1.1 = [] ∨
      ' ' ∉ (getKeyValuePair rest).1.1 ∧ '=' ∉ (getKeyValuePair rest).1.1 := by
  rw [getKeyValuePair]
  split
  · exact .inl rfl
  · rename_i key p1 hkey
    have htoken : ' ' ∉ key ∧ '=' ∉ key := by
      simp only [getToken] at hkey
      split at hkey
      · cases hkey
      · obtain ⟨rfl, -⟩ := Prod.mk.inj hkey
        constructor
        · intro hmem
          exact absurd (List.mem_takeWhile_imp hmem) (by decide)
        · intro hmem
          exact absurd (List.mem_takeWhile_imp hmem) (by decide)
    split
    · split
      · exact .inl rfl
      · exact .inr htoken
    · exact .inl rfl

theorem isKey_of_mem_readPairs {rounds : ℕ} {rest : Text} {pair : Text × Text}
    (h : pair ∈ readPairs rounds rest) : IsKey pair.1 := by
  obtain ⟨hmem, hkey⟩ := List.mem_filter.mp h
  have hne : pair.1 ≠ [] := of_decide_eq_true hkey
  have hread : ∀ rounds rest, pair ∈ pairsFrom id rounds rest →
      pair.1 = [] ∨ ' ' ∉ pair.1 ∧ '=' ∉ pair.1 := by
    intro rounds
    induction rounds with
    | zero => exact fun rest hmem => absurd hmem List.not_mem_nil
    | succ rounds ih =>
      intro rest hmem
      simp only [pairsFrom, id_eq] at hmem
      split at hmem
      · rw [List.mem_singleton.mp hmem]
        exact getKeyValuePair_key rest
      · rename_i rest' _
        cases List.mem_cons.mp hmem with
        | inl hself => exact hself ▸ getKeyValuePair_key rest
        | inr hlater => exact ih rest' hlater
  exact ⟨hne, (hread rounds rest hmem).resolve_left hne⟩

end Keys

section Reading
variable {key value rest : Text} {lead : ℕ}

theorem getToken_blanks (lead : ℕ) (rest : Text) :
    getToken " =".toList (List.replicate lead ' ' ++ rest) = getToken " =".toList rest := by
  have hblanks : ∀ c ∈ List.replicate lead ' ', " =".toList.contains c = true := by
    intro c hc
    rw [List.eq_of_mem_replicate hc]
    decide
  simp only [getToken, List.dropWhile_append_of_pos hblanks]

theorem getToken_key (hkey : IsKey key) (rest : Text) :
    getToken " =".toList (List.replicate lead ' ' ++ key ++ '=' :: rest) =
      (key, some ('=' :: rest)) := by
  have hplain : ∀ c ∈ key, " =".toList.contains c = false := by
    intro c hc
    have hblank : c ≠ ' ' := ne_of_mem_of_not_mem hc hkey.2.1
    have hsign : c ≠ '=' := ne_of_mem_of_not_mem hc hkey.2.2
    simp [hblank, hsign]
  have hall : ∀ c ∈ key, (!" =".toList.contains c) = true := fun c hc => by rw [hplain c hc]; rfl
  have hstart : (key ++ '=' :: rest).dropWhile " =".toList.contains = key ++ '=' :: rest := by
    obtain ⟨c, cs, rfl⟩ := List.exists_cons_of_ne_nil hkey.1
    rw [List.cons_append, List.dropWhile_cons_of_neg (by rw [hplain c List.mem_cons_self]; simp)]
  rw [List.append_assoc, getToken_blanks]
  simp only [getToken, hstart, takeWhile_append_stop hall (by decide : (!" =".toList.contains '=') =
    false), dropWhile_append_stop hall (by decide : (!" =".toList.contains '=') = false)]

/-- A pair with a quoted value: the key, and the token that starts at the quote. -/
theorem getKeyValuePair_quoted (lead : ℕ) (hkey : IsKey key) (rest : Text) :
    getKeyValuePair (List.replicate lead ' ' ++ key ++ '=' :: '"' :: rest) =
      ((key, (getToken "\"".toList ('"' :: rest)).1),
        (getToken "\"".toList ('"' :: rest)).2.map List.tail) := by
  rw [getKeyValuePair, getToken_key hkey]
  rfl

theorem getToken_value (hne : value ≠ []) (hvalue : '"' ∉ value) (rest : Text) :
    getToken "\"".toList ('"' :: (value ++ '"' :: rest)) = (value, some ('"' :: rest)) := by
  have hplain : ∀ c ∈ value, "\"".toList.contains c = false := fun c hc => by
    simpa using ne_of_mem_of_not_mem hc hvalue
  have hall : ∀ c ∈ value, (!"\"".toList.contains c) = true := fun c hc => by rw [hplain c hc]; rfl
  have hstart : ('"' :: (value ++ '"' :: rest)).dropWhile "\"".toList.contains =
      value ++ '"' :: rest := by
    obtain ⟨c, cs, rfl⟩ := List.exists_cons_of_ne_nil hne
    rw [List.dropWhile_cons_of_pos (by decide), List.cons_append,
      List.dropWhile_cons_of_neg (by rw [hplain c List.mem_cons_self]; simp)]
  simp only [getToken, hstart, takeWhile_append_stop hall (by decide : (!"\"".toList.contains '"') =
    false), dropWhile_append_stop hall (by decide : (!"\"".toList.contains '"') = false)]

/-- Both quotes of an empty value are passed over, and the value is what follows them. -/
theorem getToken_empty {c : Char} (hmem : c ∈ rest) (hc : c ≠ '"') :
    (getToken "\"".toList ('"' :: '"' :: rest)).1 ≠ [] := by
  have hstart : ('"' :: '"' :: rest).dropWhile "\"".toList.contains =
      rest.dropWhile "\"".toList.contains := by
    rw [List.dropWhile_cons_of_pos (by decide), List.dropWhile_cons_of_pos (by decide)]
  cases hbody : rest.dropWhile "\"".toList.contains with
  | nil =>
    have hquote := List.dropWhile_eq_nil_iff.mp hbody c hmem
    simp [hc] at hquote
  | cons d ds =>
    have hd : "\"".toList.contains d = false := by
      have hhead := List.head?_dropWhile_not "\"".toList.contains rest
      rw [hbody] at hhead
      simpa using hhead
    simp only [getToken, hstart, hbody]
    split
    · exact List.cons_ne_nil d ds
    · rw [List.takeWhile_cons_of_pos (by rw [hd]; rfl)]
      exact List.cons_ne_nil _ _

theorem readPairs_nil (rounds : ℕ) : readPairs (rounds + 1) (pairsText lead []) = [] := by
  have hnone : getKeyValuePair (List.replicate lead ' ') = (([], []), none) := by
    have htoken := getToken_blanks lead []
    rw [List.append_nil] at htoken
    rw [getKeyValuePair, htoken]
    rfl
  simp [readPairs, pairsFrom, pairsText, hnone]

end Reading

section ReadBack
variable {lead : ℕ} {pair : QuotedPair} {pairs : List QuotedPair}

theorem EmptyLast.of_cons (h : EmptyLast (pair :: pairs)) : EmptyLast pairs :=
  fun before other after heq => h (pair :: before) other after (by rw [heq]; rfl)

theorem readPairs_step {rest : Text} {kv : Text × Text} {next : Option Text}
    (h : getKeyValuePair rest = (kv, next)) (hkey : kv.1 ≠ []) (rounds : ℕ) :
    readPairs (rounds + 1) rest = kv :: (next.map (readPairs rounds)).getD [] := by
  rw [readPairs, pairsFrom, id_eq, h]
  cases next with
  | none => simp [hkey]
  | some rest' => simp [hkey, readPairs]

/-- A round that reads a value that is not empty. -/
theorem readPairs_cons (hkey : IsKey pair.key) (hvalue : pair.value ≠ []) (rounds : ℕ) :
    readPairs (rounds + 1) (pairsText lead (pair :: pairs)) =
      pair.kv :: readPairs rounds (pairsText pair.blanks pairs) := by
  have hpair := getKeyValuePair_quoted lead hkey
    (pair.value ++ '"' :: pairsText pair.blanks pairs)
  rw [getToken_value hvalue pair.noQuote] at hpair
  exact readPairs_step hpair hkey.1 rounds

theorem readPairs_empty (hkey : IsKey pair.key) (hvalue : pair.value = []) (rounds : ℕ) :
    readPairs (rounds + 1) (pairsText lead (pair :: pairs)) =
      (pair.key, (getToken "\"".toList ('"' :: '"' :: pairsText pair.blanks pairs)).1) ::
        (((getToken "\"".toList ('"' :: '"' :: pairsText pair.blanks pairs)).2.map List.tail).map
          (readPairs rounds)).getD [] := by
  have hpair := getKeyValuePair_quoted lead hkey ('"' :: pairsText pair.blanks pairs)
  rw [pairsText, hvalue, List.nil_append]
  exact readPairs_step hpair hkey.1 rounds

theorem reads_of_readable (hkeys : ∀ pair ∈ pairs, IsKey pair.key) (hempty : EmptyLast pairs)
    {rounds : ℕ} (hrounds : (pairsText lead pairs).length < rounds) :
    readPairs rounds (pairsText lead pairs) = pairs.map QuotedPair.kv := by
  induction pairs generalizing lead rounds with
  | nil =>
    obtain ⟨rounds, rfl⟩ : ∃ n, rounds = n + 1 := ⟨rounds - 1, by omega⟩
    exact readPairs_nil rounds
  | cons pair pairs ih =>
    obtain ⟨rounds, rfl⟩ : ∃ n, rounds = n + 1 := ⟨rounds - 1, by omega⟩
    obtain ⟨hkey, hkeys⟩ := List.forall_mem_cons.mp hkeys
    by_cases hvalue : pair.value = []
    · obtain ⟨rfl, hblanks⟩ := hempty [] pair pairs rfl hvalue
      have htoken : getToken "\"".toList ['"', '"'] = ([], none) := by decide
      rw [readPairs_empty hkey hvalue, hblanks, pairsText, List.replicate_zero, htoken]
      simp [QuotedPair.kv, hvalue]
    · rw [readPairs_cons hkey hvalue, List.map_cons, ih hkeys hempty.of_cons]
      simp only [pairsText, List.length_append, List.length_cons] at hrounds
      omega

theorem emptyLast_of_reads (hkeys : ∀ pair ∈ pairs, IsKey pair.key) {rounds : ℕ}
    (hrounds : (pairsText lead pairs).length < rounds)
    (h : readPairs rounds (pairsText lead pairs) = pairs.map QuotedPair.kv) : EmptyLast pairs := by
  induction pairs generalizing lead rounds with
  | nil => exact fun before pair after heq => by simp at heq
  | cons pair pairs ih =>
    obtain ⟨rounds, rfl⟩ : ∃ n, rounds = n + 1 := ⟨rounds - 1, by omega⟩
    obtain ⟨hkey, hkeys⟩ := List.forall_mem_cons.mp hkeys
    by_cases hvalue : pair.value = []
    · -- whatever stands behind the quotes is taken for the value
      have hnone : ∀ c ∈ pairsText pair.blanks pairs, c = '"' := by
        intro c hc
        by_contra hother
        rw [readPairs_empty hkey hvalue, List.map_cons, QuotedPair.kv, hvalue] at h
        exact getToken_empty hc hother (Prod.mk.inj (List.cons.inj h).1).2
      have hpairs : pairs = [] := by
        cases pairs with
        | nil => rfl
        | cons other others =>
          have hsign := hnone '=' (by simp [pairsText])
          exact absurd hsign (by decide)
      have hblanks : pair.blanks = 0 := by
        by_contra hpos
        have hblank := hnone ' ' (by rw [hpairs, pairsText]; exact List.mem_replicate.mpr ⟨hpos, rfl⟩)
        exact absurd hblank (by decide)
      intro before other after heq _
      rw [hpairs] at heq
      cases before with
      | nil =>
        obtain ⟨rfl, rfl⟩ := List.cons.inj heq
        exact ⟨rfl, hblanks⟩
      | cons first before => simp at heq
    · rw [readPairs_cons hkey hvalue, List.map_cons, List.cons.injEq] at h
      have hlength : (pairsText pair.blanks pairs).length < rounds := by
        simp only [pairsText, List.length_append, List.length_cons] at hrounds
        omega
      have hlater := ih hkeys hlength h.2
      intro before other after heq hother
      cases before with
      | nil => exact absurd (((List.cons.inj heq).1 ▸ hother) : pair.value = []) hvalue
      | cons first before => exact hlater before other after (List.cons.inj heq).2 hother

end ReadBack

/-- Reading always ends, and gives the pairs back just if the keys are tokens and no empty value
has anything behind it. -/
theorem readsBack_iff (lead : ℕ) (pairs : List QuotedPair) :
    (∀ (rounds : ℕ) (line : Text), line.length < rounds →
      readPairs rounds line = readPairs (line.length + 1) line) ∧
    (ReadsBack lead pairs ↔ (∀ pair ∈ pairs, IsKey pair.key) ∧ EmptyLast pairs) := by
  refine ⟨fun rounds line h => by rw [readPairs, readPairs, pairsFrom_rounds h], ?_⟩
  constructor
  · intro h
    have hread := h _ (Nat.lt_succ_self _)
    have hkeys : ∀ pair ∈ pairs, IsKey pair.key := by
      intro pair hpair
      have hmem : pair.kv ∈ pairs.map QuotedPair.kv := List.mem_map_of_mem hpair
      rw [← hread] at hmem
      exact isKey_of_mem_readPairs hmem
    exact ⟨hkeys, emptyLast_of_reads hkeys (Nat.lt_succ_self _) hread⟩
  · exact fun h rounds hrounds => reads_of_readable h.1 h.2 hrounds

/-- An empty value between two pairs: what is read for it is the next key. -/
theorem not_readsBack : ¬ ReadsBack 0 [⟨"app".toList, [], 1, List.not_mem_nil⟩,
    ⟨"site".toList, "lrz".toList, 0, by decide⟩] := by
  intro h
  have hread := h 20 (by decide)
  revert hread
  decide

end ReadexPtf.Registry
