import ReadexPtf.Lib.Outcome
import ReadexPtf.Lib.Decimal
import Mathlib

/-! `sprintf` and `sscanf` of texts without a null character. One format text serves both:
what the first writes with a conversion the second reads with it. -/
namespace ReadexPtf

abbrev Text := List Char

/-- `%d`. -/
def decimal (v : ℤ) : Text := v.repr.toList

inductive Conversion where
  | literal (c : Char)
  | number
  | word
  /-- `%[^\n]`. -/
  | line
  deriving DecidableEq, Repr

/-- The conversions of a format text. -/
def conversions : Text → List Conversion
  | '%' :: 'd' :: cs => .number :: conversions cs
  | '%' :: 's' :: cs => .word :: conversions cs
  | '%' :: '[' :: '^' :: '\n' :: ']' :: cs => .line :: conversions cs
  | c :: cs => .literal c :: conversions cs
  | [] => []

inductive Value where
  | number (v : ℤ)
  | text (t : Text)
  deriving DecidableEq, Repr

/-- What is written; the arguments are of the types the conversions name. -/
def printed : List Conversion → List Value → Text
  | .literal c :: fs, args => c :: printed fs args
  | .number :: fs, .number v :: args => decimal v ++ printed fs args
  | .word :: fs, .text t :: args => t ++ printed fs args
  | _, _ => []

/-- Writing over the end of the buffer is undefined. -/
def sprintf (size : ℕ) (format : Text) (args : List Value) : Outcome Text :=
  let text := printed (conversions format) args
  if text.length < size then .ok text else .undefined

/-- The number at the start, and what follows it. -/
def scanNumber (t : Text) : Option (ℤ × Text) :=
  let (negative, cs) := readSign (t.dropWhile isSpace)
  let digits := cs.takeWhile Char.isDigit
  if digits.isEmpty then none
  else
    let n := Nat.ofDigitChars 10 digits 0
    some (if negative then -n else n, cs.dropWhile Char.isDigit)

/-- The values that are assigned before the text does not match any more. -/
def scanned : List Conversion → Text → List Value
  | [], _ => []
  | .literal c :: fs, t =>
    if isSpace c then scanned fs (t.dropWhile isSpace)
    else
      match t with
      | [] => []
      | d :: t => if d = c then scanned fs t else []
  | .number :: fs, t =>
    match scanNumber t with
    | none => []
    | some (v, rest) => .number v :: scanned fs rest
  | .word :: fs, t =>
    let rest := t.dropWhile isSpace
    let word := rest.takeWhile fun c => !isSpace c
    if word.isEmpty then [] else .text word :: scanned fs (rest.dropWhile fun c => !isSpace c)
  | .line :: fs, t =>
    let line := t.takeWhile fun c => c != '\n'
    if line.isEmpty then [] else .text line :: scanned fs (t.dropWhile fun c => c != '\n')

def sscanf (t format : Text) : List Value := scanned (conversions format) t

/-! Characters up to the first that stops. -/

section Stops
variable {p : Char → Bool} {w rest : Text}

theorem takeWhile_append_stop {c : Char} (hw : ∀ d ∈ w, p d = true) (hc : p c = false) :
    (w ++ c :: rest).takeWhile p = w := by
  rw [List.takeWhile_append_of_pos hw, List.takeWhile_cons_of_neg (by simp [hc]), List.append_nil]

theorem dropWhile_append_stop {c : Char} (hw : ∀ d ∈ w, p d = true) (hc : p c = false) :
    (w ++ c :: rest).dropWhile p = c :: rest := by
  rw [List.dropWhile_append_of_pos hw, List.dropWhile_cons_of_neg (by simp [hc])]

/-- A text in which no character stops, or one up to its first that does. -/
theorem stop_cases (p : Char → Bool) (t : Text) :
    (∀ c ∈ t, p c = true) ∨
      ∃ w c rest, t = w ++ c :: rest ∧ (∀ d ∈ w, p d = true) ∧ p c = false := by
  cases hrest : t.dropWhile p with
  | nil =>
    have hall := List.dropWhile_eq_nil_iff.mp hrest
    exact .inl fun c hc => by simpa using hall c hc
  | cons c rest =>
    refine .inr ⟨t.takeWhile p, c, rest, ?_, fun d hd => ?_, ?_⟩
    · rw [← hrest, List.takeWhile_append_dropWhile]
    · exact List.mem_takeWhile_imp hd
    · have hne : t.dropWhile p ≠ [] := by simp [hrest]
      have hstop := List.head_dropWhile_not p hne
      simpa [hrest] using hstop

end Stops

theorem decimal_eq (v : ℤ) :
    decimal v = if 0 ≤ v then Nat.toDigits 10 v.toNat else '-' :: Nat.toDigits 10 (-v).toNat := by
  rw [decimal, Int.repr_eq_if]
  split_ifs <;> simp

theorem decimal_ne_nil (v : ℤ) : decimal v ≠ [] := by
  rw [decimal_eq]
  split_ifs
  · exact Nat.toDigits_ne_nil
  · exact List.cons_ne_nil _ _

/-- The characters of a number. -/
theorem of_mem_decimal {v : ℤ} {c : Char} (h : c ∈ decimal v) : c.isDigit = true ∨ c = '-' := by
  rw [decimal_eq] at h
  split_ifs at h
  · exact .inl (isDigit_of_mem_toDigits c h)
  · exact (List.mem_cons.mp h).elim .inr fun h => .inl (isDigit_of_mem_toDigits c h)

theorem atoi_decimal (v : ℤ) : atoi (String.ofList (decimal v)) = v := by
  rw [decimal, String.ofList_toList, atoi_repr]

/-- Reading back what was written. -/
theorem scanNumber_decimal {v : ℤ} {rest : Text} (hrest : ∀ c ∈ rest.head?, c.isDigit = false) :
    scanNumber (decimal v ++ rest) = some (v, rest) := by
  have hdigits : ∀ n : ℕ, (Nat.toDigits 10 n ++ rest).takeWhile Char.isDigit = Nat.toDigits 10 n ∧
      (Nat.toDigits 10 n ++ rest).dropWhile Char.isDigit = rest := by
    intro n
    have hall : ∀ c ∈ Nat.toDigits 10 n, c.isDigit = true := isDigit_of_mem_toDigits
    rw [List.takeWhile_append_of_pos hall, List.dropWhile_append_of_pos hall]
    cases rest with
    | nil => simp
    | cons c rest =>
      have hc : ¬ c.isDigit = true := by simp [hrest c rfl]
      rw [List.takeWhile_cons_of_neg hc, List.dropWhile_cons_of_neg hc, List.append_nil]
      exact ⟨rfl, rfl⟩
  rw [decimal_eq]
  split_ifs with hsign
  · have hfirst : ∃ c cs, Nat.toDigits 10 v.toNat = c :: cs ∧ c.isDigit = true := by
      cases htext : Nat.toDigits 10 v.toNat with
      | nil => exact absurd htext Nat.toDigits_ne_nil
      | cons c cs =>
        exact ⟨c, cs, rfl, isDigit_of_mem_toDigits c (htext ▸ List.mem_cons_self)⟩
    obtain ⟨c, cs, htext, hdigit⟩ := hfirst
    obtain ⟨hspace, hminus, hplus⟩ := plain_of_isDigit hdigit
    have hsigned : readSign ((Nat.toDigits 10 v.toNat ++ rest).dropWhile isSpace) =
        (false, Nat.toDigits 10 v.toNat ++ rest) := by
      rw [htext, List.cons_append, List.dropWhile_cons_of_neg (by simp [hspace])]
      exact readSign.eq_3 _ (fun _ h => hminus (List.cons.inj h).1)
        (fun _ h => hplus (List.cons.inj h).1)
    simp only [scanNumber, hsigned, (hdigits _).1, (hdigits _).2, List.isEmpty_iff,
      Nat.toDigits_ne_nil, if_false, Bool.false_eq_true]
    simp
    omega
  · have hsigned : readSign (('-' :: Nat.toDigits 10 (-v).toNat ++ rest).dropWhile isSpace) =
        (true, Nat.toDigits 10 (-v).toNat ++ rest) := by
      simp [isSpace, readSign]
    simp only [scanNumber, hsigned, (hdigits _).1, (hdigits _).2, List.isEmpty_iff,
      Nat.toDigits_ne_nil, if_false, if_true]
    simp
    omega

/-- What `%s` reads back: not empty, and without blanks. -/
def Plain (t : Text) : Prop := t ≠ [] ∧ ∀ c ∈ t, isSpace c = false

theorem Plain.append {t u : Text} (ht : Plain t) (hu : ∀ c ∈ u, isSpace c = false) :
    ∀ c ∈ t ++ u, isSpace c = false := by
  intro c hc
  exact (List.mem_append.mp hc).elim (ht.2 c) (hu c)

theorem Plain.notMem {t : Text} {c : Char} (h : Plain t) (hc : isSpace c = true) : c ∉ t := by
  intro hmem
  rw [h.2 c hmem] at hc
  cases hc

theorem sprintf_eq_ok {size : ℕ} {format text : Text} {args : List Value} :
    sprintf size format args = .ok text ↔
      text = printed (conversions format) args ∧ text.length < size := by
  rw [sprintf]
  split_ifs with hfits
  · rw [Outcome.ok.injEq]
    constructor
    · rintro rfl
      exact ⟨rfl, hfits⟩
    · intro h
      exact h.1.symm
  · constructor
    · intro h
      cases h
    · intro h
      exact absurd (h.1 ▸ h.2) hfits

theorem printed_literals (before : Text) (fs : List Conversion) (args : List Value) :
    printed (before.map .literal ++ fs) args = before ++ printed fs args := by
  induction before with
  | nil => rfl
  | cons c before ih => rw [List.map_cons, List.cons_append, printed, ih, List.cons_append]

/-! What each conversion reads. -/

section Scanned
variable {fs : List Conversion} {t rest : Text}

theorem scanned_literals {literals : Text} (h : ∀ c ∈ literals, isSpace c = false) :
    scanned (literals.map .literal ++ fs) (literals ++ t) = scanned fs t := by
  induction literals with
  | nil => rfl
  | cons c literals ih =>
    rw [List.map_cons, List.cons_append, List.cons_append, scanned]
    simp only [h c List.mem_cons_self, Bool.false_eq_true, if_false, if_true]
    exact ih fun d hd => h d (List.mem_cons_of_mem c hd)

theorem scanned_blank (h : ∀ c ∈ t.head?, isSpace c = false) :
    scanned (.literal ' ' :: fs) (' ' :: t) = scanned fs t := by
  have hblank : isSpace ' ' = true := by decide
  rw [scanned, if_pos hblank, List.dropWhile_cons_of_pos hblank]
  cases t with
  | nil => rfl
  | cons c t => rw [List.dropWhile_cons_of_neg (by simp [h c rfl])]

/-- A word of the format, and the blank behind it. -/
theorem scanned_literal_word {word : Text} (hword : ∀ c ∈ word, isSpace c = false)
    (h : ∀ c ∈ t.head?, isSpace c = false) :
    scanned (word.map .literal ++ .literal ' ' :: fs) (word ++ ' ' :: t) = scanned fs t := by
  rw [scanned_literals hword, scanned_blank h]

theorem scanned_number {v : ℤ} (hrest : ∀ c ∈ rest.head?, c.isDigit = false) :
    scanned (.number :: fs) (decimal v ++ rest) = .number v :: scanned fs rest := by
  rw [scanned, scanNumber_decimal hrest]

theorem scanned_word {w : Text} (hne : w ≠ []) (hw : ∀ c ∈ w, isSpace c = false) :
    scanned (.word :: fs) (w ++ ' ' :: rest) = .text w :: scanned fs (' ' :: rest) := by
  have hblank : isSpace ' ' = true := by decide
  have hstart : (w ++ ' ' :: rest).dropWhile isSpace = w ++ ' ' :: rest := by
    cases w with
    | nil => exact absurd rfl hne
    | cons c w => rw [List.cons_append, List.dropWhile_cons_of_neg (by simp [hw c List.mem_cons_self])]
  have hword : ∀ d ∈ w, (!isSpace d) = true := fun d hd => by simp [hw d hd]
  have hstop : (!isSpace ' ') = false := by simp [hblank]
  simp only [scanned, hstart, takeWhile_append_stop hword hstop, dropWhile_append_stop hword hstop,
    List.isEmpty_iff, hne, if_false]

theorem plain_of_text_mem_scanned : ∀ {fs : List Conversion} {t w : Text}, .line ∉ fs →
    Value.text w ∈ scanned fs t → Plain w := by
  intro fs
  induction fs with
  | nil =>
    intro t w _ h
    simp [scanned] at h
  | cons f fs ih =>
    intro t w hline h
    have hrest : .line ∉ fs := fun hmem => hline (List.mem_cons_of_mem f hmem)
    cases f with
    | literal c =>
      simp only [scanned] at h
      split_ifs at h
      · exact ih hrest h
      · cases t with
        | nil => simp at h
        | cons d t =>
          dsimp only at h
          split_ifs at h
          · exact ih hrest h
          · simp at h
    | number =>
      rw [scanned] at h
      cases hnumber : scanNumber t with
      | none => simp [hnumber] at h
      | some number =>
        simp only [hnumber, List.mem_cons, reduceCtorEq, false_or] at h
        exact ih hrest h
    | word =>
      simp only [scanned] at h
      split_ifs at h with hword
      · simp at h
      · cases List.mem_cons.mp h with
        | inl hself =>
          cases hself
          refine ⟨fun hnil => hword (by rw [hnil]; rfl), fun c hc => ?_⟩
          simpa using List.mem_takeWhile_imp hc
        | inr hmem => exact ih hrest hmem
    | line => exact absurd List.mem_cons_self hline

end Scanned
end ReadexPtf
