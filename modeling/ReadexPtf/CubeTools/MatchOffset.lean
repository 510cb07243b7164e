import ReadexPtf.Lib.Formatted
import Mathlib

/-! The names of regions in the report: backslashes are put in front of the characters that
have a meaning there. -/
namespace ReadexPtf.CubeTools
open ReadexPtf

/-- `[*_]`. -/
def special (c : Char) : Bool := c = '*' || c = '_'

/-- Where the first match is, and what follows it. -/
def regexSearch (s : Text) : Option (ℕ × Text) :=
  match s.dropWhile fun c => !special c with
  | [] => none
  | _ :: rest => some ((s.takeWhile fun c => !special c).length, rest)

/-- `while( boost::regex_search( s, e, w, re, flags ) )`; a match is one character. A match at
the start of what remains is passed over, and `pos` stays. -/
def matchFrom : ℕ → Text → Text → ℕ → Outcome Text
  | 0, _, _, _ => .undefined
  | rounds + 1, s, newString, pos =>
    match regexSearch s with
    | none => .ok newString
    | some (p, s) =>
      if 0 < p ∧ p < newString.length then
        let pos := pos + p
        if pos ≤ newString.length then
          matchFrom rounds s (newString.take pos ++ '\\' :: newString.drop pos) (pos + 2)
        else .undefined
      else matchFrom rounds s newString pos

/-- `strcpy` ends at the first null character. -/
def findMatchOffset (searchString : Text) : Outcome Text :=
  matchFrom (searchString.length + 1) searchString
    (searchString.takeWhile fun c => c ≠ '\x00') 0

/-- Every special character with a backslash in front of it. -/
def escape (text : Text) : Text :=
  text.flatMap fun c => if special c then ['\\', c] else [c]

/-- No special character is at the start or behind another one. -/
inductive Separated : Text → Prop
  | plain {text : Text} (h : ∀ c ∈ text, special c = false) : Separated text
  | escaped {before : Text} {c : Char} {rest : Text} (hbefore : ∀ d ∈ before, special d = false)
      (hne : before ≠ []) (hc : special c = true) (hrest : Separated rest) :
      Separated (before ++ c :: rest)

section Search
variable {before rest : Text} {c : Char}

theorem regexSearch_none {text : Text} (h : ∀ c ∈ text, special c = false) :
    regexSearch text = none := by
  have hend : text.dropWhile (fun c => !special c) = [] :=
    List.dropWhile_eq_nil_iff.mpr fun c hc => by rw [h c hc]; rfl
  rw [regexSearch, hend]

theorem regexSearch_some (h : ∀ d ∈ before, special d = false) (hc : special c = true) :
    regexSearch (before ++ c :: rest) = some (before.length, rest) := by
  have hbefore : ∀ d ∈ before, (!special d) = true := fun d hd => by rw [h d hd]; rfl
  have hstop : (!special c) = false := by rw [hc]; rfl
  rw [regexSearch, dropWhile_append_stop hbefore hstop, takeWhile_append_stop hbefore hstop]

/-- A text without special characters, or one up to the first of them. -/
theorem special_cases (text : Text) :
    (∀ c ∈ text, special c = false) ∨
      ∃ before c rest, text = before ++ c :: rest ∧ (∀ d ∈ before, special d = false) ∧
        special c = true := by
  cases stop_cases (fun c => !special c) text with
  | inl hall => exact .inl fun c hc => by simpa using hall c hc
  | inr hstop =>
    obtain ⟨before, c, rest, htext, hbefore, hc⟩ := hstop
    exact .inr ⟨before, c, rest, htext, fun d hd => by simpa using hbefore d hd, by simpa using hc⟩

theorem escape_plain {text : Text} (h : ∀ c ∈ text, special c = false) : escape text = text := by
  induction text with
  | nil => rfl
  | cons c text ih =>
    rw [escape, List.flatMap_cons, if_neg (by simp [h c List.mem_cons_self])]
    exact congrArg (c :: ·) (ih fun d hd => h d (List.mem_cons_of_mem c hd))

theorem escape_append (text text' : Text) : escape (text ++ text') = escape text ++ escape text' :=
  List.flatMap_append

theorem escape_match (h : ∀ d ∈ before, special d = false) (hc : special c = true) :
    escape (before ++ c :: rest) = before ++ '\\' :: c :: escape rest := by
  rw [escape_append, escape_plain h, escape, List.flatMap_cons, if_pos hc]
  rfl

theorem length_escape (text : Text) :
    (escape text).length = text.length + text.countP special := by
  induction text with
  | nil => rfl
  | cons c text ih =>
    rw [escape, List.flatMap_cons, List.length_append, List.countP_cons]
    have hrest : (text.flatMap fun c => if special c then ['\\', c] else [c]).length =
        text.length + text.countP special := ih
    rw [hrest, List.length_cons]
    by_cases hc : special c <;> simp [hc] <;> omega

/-- Where the matches are separated the loop escapes what remains. -/
theorem matchFrom_separated (hseparated : Separated rest) :
    ∀ (rounds : ℕ) (done : Text), rest.length < rounds →
      matchFrom rounds rest (done ++ rest) done.length = .ok (done ++ escape rest) := by
  induction hseparated with
  | plain hplain =>
    intro rounds done hrounds
    cases rounds with
    | zero => cases hrounds
    | succ rounds => rw [matchFrom, regexSearch_none hplain, escape_plain hplain]
  | @escaped before c rest hbefore hne hc hrest ih =>
    intro rounds done hrounds
    cases rounds with
    | zero => cases hrounds
    | succ rounds =>
      have hpositive := List.length_pos_iff.mpr hne
      rw [List.length_append, List.length_cons] at hrounds
      have hinside : 0 < before.length ∧
          before.length < (done ++ (before ++ c :: rest)).length := by
        simp only [List.length_append, List.length_cons]
        omega
      have hfits : done.length + before.length ≤ (done ++ (before ++ c :: rest)).length := by
        simp only [List.length_append, List.length_cons]
        omega
      have hsplit : done ++ (before ++ c :: rest) = (done ++ before) ++ c :: rest := by simp
      have hat : done.length + before.length = (done ++ before).length := by simp
      rw [matchFrom, regexSearch_some hbefore hc]
      dsimp only
      rw [if_pos hinside, if_pos hfits, hsplit, hat, List.take_left, List.drop_left]
      have hnext := ih rounds (done ++ before ++ ['\\', c]) (by omega)
      have htext : done ++ before ++ '\\' :: c :: rest = done ++ before ++ ['\\', c] ++ rest := by
        simp
      have hpos : (done ++ before).length + 2 = (done ++ before ++ ['\\', c]).length := by
        rw [List.length_append, List.length_append, List.length_append]
        rfl
      rw [htext, hpos, hnext, escape_match hbefore hc]
      simp

/-- A round adds a backslash unless it passes a match over. -/
theorem length_matchFrom :
    ∀ (rounds : ℕ) (s newString result : Text) (pos : ℕ),
      matchFrom rounds s newString pos = .ok result →
      result.length ≤ newString.length + s.countP special ∧
        (result.length = newString.length + s.countP special → Separated s) := by
  intro rounds
  induction rounds with
  | zero =>
    intro s newString result pos h
    cases h
  | succ rounds ih =>
    intro s newString result pos h
    cases special_cases s with
    | inl hplain =>
      rw [matchFrom, regexSearch_none hplain] at h
      rw [← Outcome.ok.inj h]
      exact ⟨Nat.le_add_right _ _, fun _ => .plain hplain⟩
    | inr hmatch =>
      obtain ⟨before, c, rest, rfl, hbefore, hc⟩ := hmatch
      have hcount : (before ++ c :: rest).countP special = rest.countP special + 1 := by
        have hnone : before.countP special = 0 :=
          List.countP_eq_zero.mpr fun d hd => by simp [hbefore d hd]
        rw [List.countP_append, hnone, List.countP_cons_of_pos hc, Nat.zero_add]
      rw [matchFrom, regexSearch_some hbefore hc] at h
      dsimp only at h
      rw [hcount]
      split_ifs at h with hinside hfits
      · have hnext := ih _ _ _ _ h
        have hlonger : (newString.take (pos + before.length) ++
            '\\' :: newString.drop (pos + before.length)).length = newString.length + 1 := by
          rw [List.length_append, List.length_cons, List.length_take, List.length_drop]
          omega
        rw [hlonger] at hnext
        refine ⟨by omega, fun heq => .escaped hbefore ?_ hc (hnext.2 (by omega))⟩
        exact List.ne_nil_of_length_pos hinside.1
      · have hnext := ih _ _ _ _ h
        refine ⟨by omega, fun heq => ?_⟩
        exfalso
        omega

theorem notMem_matchFrom {null : Char} (hnull : null ≠ '\\') :
    ∀ (rounds : ℕ) (s newString result : Text) (pos : ℕ),
      matchFrom rounds s newString pos = .ok result → null ∉ newString → null ∉ result := by
  intro rounds
  induction rounds with
  | zero =>
    intro s newString result pos h
    cases h
  | succ rounds ih =>
    intro s newString result pos h hnot
    rw [matchFrom] at h
    cases hsearch : regexSearch s with
    | none =>
      rw [hsearch] at h
      exact Outcome.ok.inj h ▸ hnot
    | some found =>
      rw [hsearch] at h
      dsimp only at h
      split_ifs at h
      · refine ih _ _ _ _ h fun hmem => ?_
        have hparts := List.take_append_drop (pos + found.1) newString
        rw [← hparts] at hnot
        simp only [List.mem_append, List.mem_cons, not_or] at hmem hnot
        rcases hmem with htake | hslash | hdrop
        · exact hnot.1 htake
        · exact hnull hslash
        · exact hnot.2 hdrop
      · exact ih _ _ _ _ h hnot

end Search

/-- Every special character is escaped, and nothing else changed, exactly if none of them is at
the start or behind another one, and the name has no null character. -/
theorem findMatchOffset_escapes_iff (searchString : Text) :
    findMatchOffset searchString = .ok (escape searchString) ↔
      Separated searchString ∧ '\x00' ∉ searchString := by
  have hcString : '\x00' ∉ searchString →
      searchString.takeWhile (fun c => c ≠ '\x00') = searchString := by
    intro hnot
    refine List.takeWhile_eq_self_iff.mpr fun c hc => decide_eq_true fun hnull => ?_
    exact hnot (hnull ▸ hc)
  rw [findMatchOffset]
  constructor
  · intro h
    have hnot : '\x00' ∉ searchString := by
      intro hnull
      have hresult := @notMem_matchFrom '\x00' (by decide) _ _ _ _ _ h fun hmem =>
        absurd (List.mem_takeWhile_imp hmem) (by decide)
      refine hresult (List.mem_flatMap.mpr ⟨'\x00', hnull, ?_⟩)
      decide
    rw [hcString hnot] at h
    exact ⟨(length_matchFrom _ _ _ _ _ h).2 (length_escape searchString), hnot⟩
  · intro h
    obtain ⟨hseparated, hnot⟩ := h
    rw [hcString hnot]
    exact matchFrom_separated hseparated _ [] (Nat.lt_succ_self _)

/-- The second of two asterisks stays as it is. -/
theorem not_findMatchOffset_escapes :
    ¬ ∀ searchString : Text, findMatchOffset searchString = .ok (escape searchString) := by
  intro h
  have hname := h "operator**".toList
  revert hname
  decide

end ReadexPtf.CubeTools
