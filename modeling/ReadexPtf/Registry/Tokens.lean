import ReadexPtf.Lib.Formatted

/-! The string utilities that both ends of the registry protocol read their lines with. A
position in a line is given by the text from there on, and `npos` by `none`. -/
namespace ReadexPtf.Registry

/-- `str.find_first_not_of( "\t ", pos )`. -/
def strskipWs (rest : Text) : Option Text :=
  match rest.dropWhile fun c => c == '\t' || c == ' ' with
  | [] => none
  | c :: cs => some (c :: cs)

/-- The token after the delimiters at the start, and where it ends. -/
def getToken (delim : Text) (rest : Text) : Text × Option Text :=
  let body := rest.dropWhile delim.contains
  match body.dropWhile fun c => !delim.contains c with
  | [] => (body, none)
  | c :: cs => (body.takeWhile fun c => !delim.contains c, some (c :: cs))

/-- A pair that is not well formed is empty, and ends the line. -/
def getKeyValuePair (rest : Text) : (Text × Text) × Option Text :=
  match getToken " =".toList rest with
  | (_, none) => (([], []), none)
  | (key, some p1) =>
    match strskipWs p1 with
    | some ('=' :: p1) =>
      match strskipWs p1 with
      | none => (([], []), none)
      | some p1 =>
        -- The token after a quote starts behind all quotes that follow it.
        let (value, p1) := if p1.head? = some '"' then getToken "\"".toList p1
          else getToken " ".toList p1
        ((key, value), p1.map List.tail)
    | _ => (([], []), none)

/-- `do ... while( pos != npos )` over the pairs of a line; a round reads at least one
character. -/
def pairsFrom (skip : Text → Text) : ℕ → Text → List (Text × Text)
  | 0, _ => []
  | rounds + 1, rest =>
    let (pair, next) := getKeyValuePair (skip rest)
    match next with
    | none => [pair]
    | some rest => pair :: pairsFrom skip rounds rest

def keyValuePairs (skip : Text → Text) (pos : Option Text) : List (Text × Text) :=
  pairsFrom skip ((pos.getD []).length + 1) (pos.getD [])

/-! The same for the clients, in C. -/

def skipWs (rest : Text) : Text := rest.dropWhile fun c => c == ' ' || c == '\t'

def nextToken (delim : Text) (rest : Text) : Text × Text :=
  (rest.takeWhile fun c => !delim.contains c, rest.dropWhile fun c => !delim.contains c)

/-- The value after an equality sign, and what follows it. -/
def nextValue (rest : Text) : Text × Text :=
  match skipWs rest with
  | '"' :: rest =>
    let (val, rest) := nextToken "\"".toList rest
    (val, rest.tail)
  | rest => nextToken " \t".toList rest

def nextPair (rest : Text) : Option ((Text × Text) × Text) :=
  let (key, rest) := nextToken " =\t".toList (skipWs rest)
  match skipWs rest with
  | '=' :: rest =>
    let (val, rest) := nextValue rest
    some ((key, val), rest)
  | _ => none

def nextPairs : ℕ → Text → List (Text × Text)
  | 0, _ => []
  | rounds + 1, rest =>
    if rest.isEmpty then []
    else
      match nextPair rest with
      | none => []
      | some (kv, rest) => kv :: nextPairs rounds rest

/-- A round reads an equality sign at least. -/
def makeKeyValuePairs (str : Text) : List (Text × Text) := nextPairs str.length str

/-! A pair that a client reads stands around an equality sign of the line. -/

theorem skipWs_suffix (rest : Text) : skipWs rest <:+ rest := List.dropWhile_suffix _

theorem skipWs_split (rest : Text) :
    ∃ blanks, rest = blanks ++ skipWs rest ∧ ∀ c ∈ blanks, c = ' ' ∨ c = '\t' := by
  refine ⟨rest.takeWhile fun c => c == ' ' || c == '\t', ?_, fun c hc => ?_⟩
  · rw [skipWs, List.takeWhile_append_dropWhile]
  · simpa using List.mem_takeWhile_imp hc

theorem nextValue_suffix (rest : Text) : (nextValue rest).2 <:+ rest := by
  have hskip := skipWs_suffix rest
  rw [nextValue]
  split
  · rename_i rest' heq
    have hquoted : rest' <:+ rest := (List.suffix_cons '"' rest').trans (heq ▸ hskip)
    exact (List.tail_suffix _).trans ((List.dropWhile_suffix _).trans hquoted)
  · exact (List.dropWhile_suffix _).trans hskip

/-- The key ends where the sign is or where blanks lead to it. -/
theorem nextPair_around {rest rest' key val : Text} (h : nextPair rest = some ((key, val), rest')) :
    ∃ before blanks after, rest = before ++ key ++ blanks ++ '=' :: after ∧
      (∀ c ∈ blanks, c = ' ' ∨ c = '\t') ∧ val = (nextValue after).1 ∧
      rest' = (nextValue after).2 := by
  simp only [nextPair, nextToken] at h
  split at h
  · rename_i after heq
    simp only [Option.some.injEq, Prod.mk.injEq] at h
    obtain ⟨⟨hkey, hval⟩, hrest⟩ := h
    obtain ⟨before, hbefore, _⟩ := skipWs_split rest
    obtain ⟨blanks, hblanks, hblank⟩ :=
      skipWs_split ((skipWs rest).dropWhile fun c => !" =\t".toList.contains c)
    refine ⟨before, blanks, after, ?_, hblank, hval.symm, hrest.symm⟩
    calc rest = before ++ skipWs rest := hbefore
      _ = before ++ (key ++ (skipWs rest).dropWhile fun c => !" =\t".toList.contains c) := by
        rw [← hkey, List.takeWhile_append_dropWhile]
      _ = before ++ (key ++ (blanks ++ '=' :: after)) := by rw [hblanks, heq]
      _ = before ++ key ++ blanks ++ '=' :: after := by simp only [List.append_assoc]
  · cases h

theorem nextPairs_around : ∀ {rounds : ℕ} {rest key val : Text},
    (key, val) ∈ nextPairs rounds rest →
    ∃ before blanks after, rest = before ++ key ++ blanks ++ '=' :: after ∧
      (∀ c ∈ blanks, c = ' ' ∨ c = '\t') ∧ val = (nextValue after).1 := by
  intro rounds
  induction rounds with
  | zero =>
    intro rest key val h
    simp [nextPairs] at h
  | succ rounds ih =>
    intro rest key val h
    rw [nextPairs] at h
    split_ifs at h
    · simp at h
    · cases hpair : nextPair rest with
      | none => simp [hpair] at h
      | some pair =>
        obtain ⟨⟨key', val'⟩, rest'⟩ := pair
        obtain ⟨before, blanks, after, hrest, hblanks, hval, hafter⟩ := nextPair_around hpair
        simp only [hpair, List.mem_cons] at h
        cases h with
        | inl hself =>
          obtain ⟨rfl, rfl⟩ := Prod.mk.inj hself
          exact ⟨before, blanks, after, hrest, hblanks, hval⟩
        | inr hlater =>
          obtain ⟨before', blanks', after', hrest', hblanks', hval'⟩ := ih hlater
          obtain ⟨skipped, hskipped⟩ := hafter ▸ nextValue_suffix after
          refine ⟨before ++ key' ++ blanks ++ '=' :: (skipped ++ before'), blanks', after', ?_,
            hblanks', hval'⟩
          rw [hrest, ← hskipped, hrest']
          simp

end ReadexPtf.Registry
