import ReadexPtf.Lib.Outcome

/-! Streams of bytes: integers of four bytes, the lowest first, lines, and tables of strings
in slots of one width. -/
namespace ReadexPtf.Blocks

abbrev Byte := BitVec 8

def intBytes (value : BitVec 32) : List Byte :=
  [value.setWidth 8, (value >>> 8).setWidth 8, (value >>> 16).setWidth 8,
    (value >>> 24).setWidth 8]

def ofBytes (b₀ b₁ b₂ b₃ : Byte) : BitVec 32 :=
  BitVec.ofNat 32 (b₀.toNat + 256 * (b₁.toNat + 256 * (b₂.toNat + 256 * b₃.toNat)))

/-- What is behind the end of the stream is never written. -/
def readInts : ℕ → List Byte → Outcome (List (BitVec 32) × List Byte)
  | 0, stream => .ok ([], stream)
  | n + 1, b₀ :: b₁ :: b₂ :: b₃ :: stream => do
    let (values, stream) ← readInts n stream
    return (ofBytes b₀ b₁ b₂ b₃ :: values, stream)
  | _, _ => .undefined

theorem ofBytes_intBytes (value : BitVec 32) :
    ofBytes (value.setWidth 8) ((value >>> 8).setWidth 8) ((value >>> 16).setWidth 8)
      ((value >>> 24).setWidth 8) = value := by
  have hlt := value.isLt
  apply BitVec.eq_of_toNat_eq
  simp only [ofBytes, BitVec.toNat_ofNat, BitVec.toNat_setWidth, BitVec.toNat_ushiftRight,
    Nat.shiftRight_eq_div_pow]
  omega

theorem readInts_intBytes (values : List (BitVec 32)) (rest : List Byte) :
    readInts values.length (values.flatMap intBytes ++ rest) = .ok (values, rest) := by
  induction values with
  | nil => rfl
  | cons value values ih =>
    have hbytes : (value :: values).flatMap intBytes ++ rest =
        value.setWidth 8 :: (value >>> 8).setWidth 8 :: (value >>> 16).setWidth 8 ::
          (value >>> 24).setWidth 8 :: (values.flatMap intBytes ++ rest) := rfl
    rw [hbytes, List.length_cons, readInts, ih, Outcome.ok_bind, ofBytes_intBytes]
    rfl

/-- At most `max` bytes up to the end of the line, which is read too. -/
def readLine (lineEnd : Byte) : ℕ → List Byte → List Byte × List Byte
  | 0, stream => ([], stream)
  | _, [] => ([], [])
  | max + 1, byte :: stream =>
    if byte = lineEnd then ([], stream)
    else (byte :: (readLine lineEnd max stream).1, (readLine lineEnd max stream).2)

/-- A line that is as long as it may be ends without an end of line. -/
theorem readLine_full {lineEnd : Byte} {bytes : List Byte} (h : lineEnd ∉ bytes)
    (rest : List Byte) : readLine lineEnd bytes.length (bytes ++ rest) = (bytes, rest) := by
  induction bytes with
  | nil => rfl
  | cons byte bytes ih =>
    rw [List.mem_cons, not_or] at h
    rw [List.cons_append, List.length_cons, readLine, if_neg (Ne.symm h.1), ih h.2]

/-- A string that fits in a slot; a line end would end the line of the slots. -/
structure SlotString (lineEnd : Byte) (width : ℕ) where
  bytes : List Byte
  noNul : 0 ∉ bytes
  noLineEnd : lineEnd ∉ bytes
  fits : bytes.length ≤ width
  deriving DecidableEq

section Slots
variable {lineEnd : Byte} {width : ℕ}

def SlotString.slot (string : SlotString lineEnd width) : List Byte :=
  string.bytes ++ List.replicate (width - string.bytes.length) 0

theorem SlotString.length_slot (string : SlotString lineEnd width) :
    string.slot.length = width := by
  have hfits := string.fits
  simp only [SlotString.slot, List.length_append, List.length_replicate]
  omega

theorem SlotString.ext {string string' : SlotString lineEnd width}
    (h : string.bytes = string'.bytes) : string = string' := by
  cases string
  cases string'
  cases h
  rfl

/-- The bytes of a slot up to the first 0 behind what a buffer holds. A slot without a 0 is read
on past what has been written. -/
def readSlot (width : ℕ) (buffer : List Byte) (i : ℕ) : Outcome (List Byte) :=
  let slot := (buffer.drop (i * width)).take width
  if 0 ∈ slot then .ok (slot.takeWhile (· ≠ 0)) else .undefined

theorem length_slots (strings : List (SlotString lineEnd width)) :
    (strings.flatMap SlotString.slot).length = strings.length * width := by
  induction strings with
  | nil => simp
  | cons string strings ih =>
    rw [List.flatMap_cons, List.length_append, ih, SlotString.length_slot, List.length_cons]
    ring

theorem lineEnd_notMem_slots (hne : lineEnd ≠ 0) (strings : List (SlotString lineEnd width)) :
    lineEnd ∉ strings.flatMap SlotString.slot := by
  intro hmem
  obtain ⟨string, _, hslot⟩ := List.mem_flatMap.mp hmem
  cases List.mem_append.mp hslot with
  | inl hbytes => exact string.noLineEnd hbytes
  | inr hpadding => exact hne (List.eq_of_mem_replicate hpadding)

theorem drop_slots {strings : List (SlotString lineEnd width)} {i : ℕ}
    {string : SlotString lineEnd width} (h : strings[i]? = some string) (rest : List Byte) :
    ((strings.flatMap SlotString.slot ++ rest).drop (i * width)).take width = string.slot := by
  induction strings generalizing i with
  | nil => cases h
  | cons first strings ih =>
    rw [List.flatMap_cons, List.append_assoc]
    cases i with
    | zero =>
      cases h
      rw [Nat.zero_mul, List.drop_zero, List.take_left' (SlotString.length_slot _)]
    | succ i =>
      have hlength : (i + 1) * width = first.slot.length + i * width := by
        rw [first.length_slot]
        ring
      rw [hlength, ← List.drop_drop, List.drop_left]
      exact ih h

/-- A string is read back if a 0 stands behind it in its slot. -/
theorem readSlot_slots {strings : List (SlotString lineEnd width)} {i : ℕ}
    {string : SlotString lineEnd width} (h : strings[i]? = some string) (rest : List Byte) :
    readSlot width (strings.flatMap SlotString.slot ++ rest) i =
      if string.bytes.length < width then .ok string.bytes else .undefined := by
  rw [readSlot, drop_slots h, SlotString.slot]
  split_ifs with hmem hshort hshort
  · have hstop : ∀ byte ∈ string.bytes, decide (byte ≠ 0) = true := by
      intro byte hbyte
      exact decide_eq_true fun heq => string.noNul (heq ▸ hbyte)
    obtain ⟨padding, hpadding⟩ := Nat.exists_eq_add_one_of_ne_zero (Nat.sub_ne_zero_of_lt hshort)
    rw [hpadding, List.replicate_succ, List.takeWhile_append_of_pos hstop]
    simp
  · have hnone : width - string.bytes.length = 0 := by omega
    rw [hnone, List.replicate_zero, List.append_nil] at hmem
    exact absurd hmem string.noNul
  · have hsome : width - string.bytes.length ≠ 0 := by omega
    exact absurd (List.mem_append_right _ (List.mem_replicate.mpr ⟨hsome, rfl⟩)) hmem
  · rfl

end Slots
end ReadexPtf.Blocks
