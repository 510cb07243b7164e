import ReadexPtf.Lib.Outcome
import Mathlib

/-! Decimal numbers as streams print them and as `std::stoll` and `std::stoull` read them:
after blanks, with a sign, and up to the first character that is no digit. -/
namespace ReadexPtf

/-- `std::isspace`. -/
def isSpace (c : Char) : Bool := c.toNat = 32 || (9 ≤ c.toNat && c.toNat ≤ 13)

/-- The sign: whether there is a minus, and what follows. -/
def readSign : List Char → Bool × List Char
  | '-' :: cs => (true, cs)
  | '+' :: cs => (false, cs)
  | cs => (false, cs)

/-- Sign and magnitude of the number at the start; `none` without a digit. -/
def readNumber (s : String) : Option (Bool × Nat) :=
  let (negative, cs) := readSign (s.toList.dropWhile isSpace)
  let digits := cs.takeWhile Char.isDigit
  if digits.isEmpty then none else some (negative, Nat.ofDigitChars 10 digits 0)

def stoll (s : String) : Outcome Int64 :=
  match readNumber s with
  | none => .throws "stoll"
  | some (negative, n) =>
    let v : Int := if negative then -n else n
    if -2 ^ 63 ≤ v ∧ v < 2 ^ 63 then .ok (Int64.ofInt v) else .throws "stoll"

def stoi (s : String) : Outcome ℤ :=
  match readNumber s with
  | none => .throws "stoi"
  | some (negative, n) =>
    let v : Int := if negative then -n else n
    if -2 ^ 31 ≤ v ∧ v < 2 ^ 31 then .ok v else .throws "stoi"

/-- A minus negates modulo the size of the type. -/
def stoull (s : String) : Outcome UInt64 :=
  match readNumber s with
  | none => .throws "stoull"
  | some (negative, n) =>
    if n < 2 ^ 64 then .ok (if negative then -UInt64.ofNat n else UInt64.ofNat n)
    else .throws "stoull"

/-- Zero without a digit. What does not fit into `int` is undefined and never printed. -/
def atoi (s : String) : ℤ :=
  match readNumber s with
  | none => 0
  | some (negative, n) => if negative then -n else n

/-- Reading returns a number or throws. -/
theorem stoll_returnsIff (s : String) : Outcome.ReturnsIff (∃ v, stoll s = .ok v) (stoll s) := by
  refine ⟨fun h => h, ?_⟩
  rw [stoll]
  cases readNumber s with
  | none => exact fun _ => ⟨_, rfl⟩
  | some number =>
    dsimp only
    generalize (if number.1 = true then -(number.2 : Int) else number.2) = v
    by_cases hfits : -2 ^ 63 ≤ v ∧ v < 2 ^ 63
    · exact fun hnot => absurd ⟨_, if_pos hfits⟩ hnot
    · exact fun _ => ⟨_, if_neg hfits⟩

theorem stoull_returnsIff (s : String) : Outcome.ReturnsIff (∃ v, stoull s = .ok v) (stoull s) := by
  refine ⟨fun h => h, ?_⟩
  rw [stoull]
  cases readNumber s with
  | none => exact fun _ => ⟨_, rfl⟩
  | some number =>
    dsimp only
    by_cases hfits : number.2 < 2 ^ 64
    · exact fun hnot => absurd ⟨_, if_pos hfits⟩ hnot
    · exact fun _ => ⟨_, if_neg hfits⟩

/-- A digit is neither a blank nor a sign. -/
theorem plain_of_isDigit {c : Char} (h : c.isDigit = true) :
    isSpace c = false ∧ c ≠ '-' ∧ c ≠ '+' := by
  have hrange : 48 ≤ c.toNat ∧ c.toNat ≤ 57 := by
    simpa [Char.isDigit, UInt32.le_iff_toNat_le] using h
  refine ⟨?_, fun heq => ?_, fun heq => ?_⟩
  · simp only [isSpace, Bool.or_eq_false_iff, Bool.and_eq_false_iff, decide_eq_false_iff_not]
    omega
  · simp [heq] at hrange
  · simp [heq] at hrange

theorem isDigit_of_mem_toDigits {n : Nat} : ∀ c ∈ Nat.toDigits 10 n, c.isDigit = true :=
  fun _ hc => Nat.isDigit_of_mem_toDigits (by decide) (by decide) hc

theorem readSign_toDigits (n : Nat) : readSign (Nat.toDigits 10 n) = (false, Nat.toDigits 10 n) := by
  cases hdigits : Nat.toDigits 10 n with
  | nil => rfl
  | cons c cs =>
    obtain ⟨-, hminus, hplus⟩ := plain_of_isDigit (isDigit_of_mem_toDigits c (hdigits ▸ List.mem_cons_self))
    rw [readSign]
    · exact fun _ h => hminus (List.cons.inj h).1
    · exact fun _ h => hplus (List.cons.inj h).1

theorem takeWhile_toDigits (n : Nat) :
    (Nat.toDigits 10 n).takeWhile Char.isDigit = Nat.toDigits 10 n :=
  List.takeWhile_eq_self_iff.mpr isDigit_of_mem_toDigits

theorem readNumber_repr (n : Nat) : readNumber n.repr = some (false, n) := by
  have hblank : (Nat.toDigits 10 n).dropWhile isSpace = Nat.toDigits 10 n := by
    apply List.dropWhile_eq_self_iff.mpr
    intro hpos
    have hdigit := isDigit_of_mem_toDigits _ (List.getElem_mem hpos)
    simp [(plain_of_isDigit hdigit).1]
  simp [readNumber, hblank, readSign_toDigits, takeWhile_toDigits, Nat.toDigits_ne_nil]

theorem readNumber_minus_repr (n : Nat) : readNumber ("-" ++ n.repr) = some (true, n) := by
  have hlist : ("-" ++ n.repr).toList = '-' :: Nat.toDigits 10 n := by simp
  have hblank : ('-' :: Nat.toDigits 10 n).dropWhile isSpace = '-' :: Nat.toDigits 10 n := by
    simp [isSpace]
  simp [readNumber, hlist, hblank, readSign, takeWhile_toDigits, Nat.toDigits_ne_nil]

theorem stoull_toString (x : UInt64) : stoull (toString x) = .ok x := by
  have hprint : toString x = x.toNat.repr := rfl
  have hbound : x.toNat < 2 ^ 64 := x.toNat_lt
  rw [stoull, hprint, readNumber_repr]
  simp only [if_pos hbound, Bool.false_eq_true, if_false, UInt64.ofNat_toNat]

theorem readNumber_int_repr (v : ℤ) : ∃ negative n, readNumber v.repr = some (negative, n) ∧
    (if negative then -(n : ℤ) else n) = v := by
  rw [Int.repr_eq_if]
  split_ifs with hsign
  · refine ⟨false, v.toNat, readNumber_repr _, ?_⟩
    simp only [Bool.false_eq_true, if_false]
    omega
  · refine ⟨true, (-v).toNat, readNumber_minus_repr _, ?_⟩
    simp only [if_true]
    omega

theorem atoi_repr (v : ℤ) : atoi v.repr = v := by
  obtain ⟨negative, n, hnumber, hvalue⟩ := readNumber_int_repr v
  rw [atoi, hnumber]
  exact hvalue

theorem stoll_toString (x : Int64) : stoll (toString x) = .ok x := by
  have hprint : toString x = x.toInt.repr := rfl
  have hbound : -2 ^ 63 ≤ x.toInt ∧ x.toInt < 2 ^ 63 := ⟨x.le_toInt, x.toInt_lt⟩
  obtain ⟨negative, n, hnumber, hvalue⟩ := readNumber_int_repr x.toInt
  rw [stoll, hprint, hnumber]
  simp only [hvalue, if_pos hbound, Int64.ofInt_toInt]

end ReadexPtf
