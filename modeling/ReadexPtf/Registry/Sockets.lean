import ReadexPtf.Lib.Formatted
import ReadexPtf.Lib.Outcome
import ReadexPtf.Lib.Segments
import Mathlib

/-! Lines and blocks that are read from sockets. What `read` gave beyond them is kept in one
buffer for all descriptors. -/
namespace ReadexPtf.Sockets

def sizeofReadBuf : ℕ := 1000

/-- What the calls of `read` on a connection give until the peer has closed it. -/
inductive Receive where
  | data (bytes : Text) (some_bytes : bytes ≠ []) (fits : bytes.length ≤ sizeofReadBuf)
  | interrupted
  | failed

/-- A character, and the connection it came from: the code has the character only. -/
abbrev Byte := Char × ℕ

inductive Piece (α : Type) where
  | line (content : List α)
  | block (content : List α)
  deriving DecidableEq

def Piece.content {α : Type} : Piece α → List α
  | .line content | .block content => content

def Piece.map {α β : Type} (f : α → β) : Piece α → Piece β
  | .line content => .line (content.map f)
  | .block content => .block (content.map f)

/-- `readBuf` are the characters from `read_ptr` on. What was returned, and for which
connection, is noted beside them. -/
structure SocketState where
  connectionOf : ℕ → Option ℕ
  incoming : ℕ → List Receive
  readBuf : List Byte
  returned : List (Option ℕ × Piece Byte)

inductive MyRead where
  | char (byte : Byte)
  | eof
  | error

/-- `read`, again as long as it is interrupted; `none` for an error, no bytes at the end. -/
def readAgain : List Receive → Option Text × List Receive
  | [] => (some [], [])
  | .interrupted :: later => readAgain later
  | .failed :: later => (none, later)
  | .data bytes _ _ :: later => (some bytes, later)

def socketMyRead (fd : ℕ) (s : SocketState) : MyRead × SocketState :=
  match s.readBuf with
  | byte :: rest => (.char byte, { s with readBuf := rest })
  | [] =>
    match s.connectionOf fd with
    | none => (.error, s)
    | some conn =>
      match readAgain (s.incoming conn) with
      | (none, later) => (.error, { s with incoming := Function.update s.incoming conn later })
      | (some [], later) => (.eof, { s with incoming := Function.update s.incoming conn later })
      | (some (c :: cs), later) => (.char (c, conn), { s with
          incoming := Function.update s.incoming conn later
          readBuf := cs.map (·, conn) })

/-- The rounds that are left, and the characters stored by those before: `n` is one more. -/
def readLineFrom (fd : ℕ) : ℕ → List Byte → SocketState → (ℤ × List Byte) × SocketState
  | 0, str, s => ((str.length + 1, str), s)
  | left + 1, str, s =>
    match socketMyRead fd s with
    | (.char byte, s) =>
      if byte.1 = '\n' then ((str.length + 1, str), s) else readLineFrom fd left (str ++ [byte]) s
    | (.eof, s) => ((str.length, str), s)
    | (.error, s) => ((-1, str), s)

def socketReadLine (fd : ℕ) (maxlen : ℤ) (s : SocketState) : (ℤ × List Byte) × SocketState :=
  readLineFrom fd (maxlen - 1).toNat [] s

/-- A round that finds the end of the stream stores nothing, and is counted. -/
def blockreadFrom (fd : ℕ) : ℕ → List Byte → SocketState → Option (List Byte) × SocketState
  | 0, ptr, s => (some ptr, s)
  | left + 1, ptr, s =>
    match socketMyRead fd s with
    | (.char byte, s) => blockreadFrom fd left (ptr ++ [byte]) s
    | (.eof, s) => blockreadFrom fd left ptr s
    | (.error, s) => (none, s)

def socketBlockread (fd : ℕ) (size : ℤ) (s : SocketState) : Option (List Byte) × SocketState :=
  blockreadFrom fd size.toNat [] s

inductive SocketEvent where
  | connect (fd conn : ℕ)
  | close (fd : ℕ)
  | readLine (fd : ℕ) (maxlen : ℤ)
  | blockread (fd : ℕ) (size : ℤ)

def SocketState.note (fd : ℕ) (piece : Piece Byte) (s : SocketState) : SocketState :=
  { s with returned := s.returned ++ [(s.connectionOf fd, piece)] }

/-- Nothing is returned at the end of a stream, and by a call that fails. -/
def socketStep (s : SocketState) : SocketEvent → Outcome SocketState
  | .connect fd conn =>
    .ok { s with connectionOf := Function.update s.connectionOf fd (some conn) }
  | .close fd => .ok { s with connectionOf := Function.update s.connectionOf fd none }
  | .readLine fd maxlen =>
    let read := socketReadLine fd maxlen s
    .ok (if 0 < read.1.1 then read.2.note fd (.line read.1.2) else read.2)
  | .blockread fd size =>
    match socketBlockread fd size s with
    | (some ptr, s) => .ok (s.note fd (.block ptr))
    | (none, s) => .ok s

def socketsBefore (incoming : ℕ → List Receive) : SocketState where
  connectionOf _ := none
  incoming
  readBuf := []
  returned := []

section Streams

/-- What a receipt brings, with `none` for an error. -/
def Receive.arrivals : Receive → List (Option Char)
  | .data bytes _ _ => bytes.map some
  | .interrupted => []
  | .failed => [none]

/-- What comes next from a connection: what is held of it, then what it still has to give. -/
def coming (conn : ℕ) (s : SocketState) : List (Option Char) :=
  (s.readBuf.filter (·.2 = conn)).map (fun byte => some byte.1) ++
    (s.incoming conn).flatMap Receive.arrivals

def sent (incoming : ℕ → List Receive) (conn : ℕ) : Text :=
  ((incoming conn).flatMap Receive.arrivals).reduceOption

def pending (conn : ℕ) (s : SocketState) : Text := (coming conn s).reduceOption

/-- The lines of a text; what follows the last newline is one if it is not empty. -/
def textLines (text : Text) : List Text :=
  (text.splitOn '\n').dropLast ++ ((text.splitOn '\n').getLast?.toList.filter (· ≠ []))

/-- What is left of a text when the piece was taken from its beginning. -/
def Piece.after (text : Text) : Piece Char → Option Text
  | .line content =>
    if text ≠ [] ∧ text.takeWhile (· ≠ '\n') = content then
      some (text.dropWhile (· ≠ '\n')).tail
    else none
  | .block content => if content <+: text then some (text.drop content.length) else none

def piecesOf (conn : ℕ) (returned : List (Option ℕ × Piece Byte)) : List (Piece Char) :=
  (returned.filter (·.1 = some conn)).map fun read => read.2.map Prod.fst

/-- Every byte was returned for the connection it came from; the pieces are taken from its
stream one behind the other; where all of them are lines, they are the lines of the peer. -/
structure LinesRight (stream : ℕ → Text) (s : SocketState) : Prop where
  own : ∀ read ∈ s.returned, ∀ byte ∈ read.2.content, read.1 = some byte.2
  inOrder : ∀ conn,
    (piecesOf conn s.returned).foldlM Piece.after (stream conn) = some (pending conn s)
  linesOfPeer : ∀ conn lines, piecesOf conn s.returned = lines.map Piece.line →
    textLines (stream conn) = lines ++ textLines (pending conn s)

end Streams

section Condition

/-- The next line is followed by a newline, or by the end of the stream, and has room; an error
comes before its first character only. -/
def NextFits (maxlen : ℤ) (coming : List (Option Char)) : Prop :=
  1 < maxlen ∧ ∃ (line : Text) (rest : List (Option Char)), coming = line.map some ++ rest ∧
    '\n' ∉ line ∧
      (rest.head? = some (some '\n') ∧ line.length + 1 < maxlen ∨
        rest = [] ∧ line.length < maxlen ∨ rest.head? = some none ∧ line = [])

/-- An error comes before the first character of a block only. -/
def BlockComes (size : ℤ) (coming : List (Option Char)) : Prop :=
  coming.head? = some none ∨ none ∉ coming.take size.toNat

/-- A read finds the buffer empty, or filled from its own connection. -/
def ReadsOwn (s : SocketState) : SocketEvent → Prop
  | .connect _ _ | .close _ => True
  | .readLine fd maxlen =>
    match s.connectionOf fd with
    | none => s.readBuf = [] ∧ 1 < maxlen
    | some conn => (∀ byte ∈ s.readBuf, byte.2 = conn) ∧ NextFits maxlen (coming conn s)
  | .blockread fd size =>
    match s.connectionOf fd with
    | none => s.readBuf = []
    | some conn => (∀ byte ∈ s.readBuf, byte.2 = conn) ∧ BlockComes size (coming conn s)

end Condition

section Reading
variable {fd conn : ℕ} {s s' : SocketState}

/-- The descriptor is of the connection, and nothing is held of another one. -/
structure Own (fd conn : ℕ) (s : SocketState) : Prop where
  connected : s.connectionOf fd = some conn
  held : ∀ byte ∈ s.readBuf, byte.2 = conn

/-- What a read of the connection may change: what comes next from it. -/
structure ReadTo (conn : ℕ) (later : List (Option Char)) (s s' : SocketState) : Prop where
  coming_eq : coming conn s' = later
  frame : ∀ other ≠ conn, coming other s' = coming other s
  connectionOf_eq : s'.connectionOf = s.connectionOf
  returned_eq : s'.returned = s.returned

theorem ReadTo.refl (conn : ℕ) (s : SocketState) : ReadTo conn (coming conn s) s s :=
  ⟨rfl, fun _ _ => rfl, rfl, rfl⟩

theorem ReadTo.trans {later latest : List (Option Char)} {t : SocketState}
    (h : ReadTo conn later s t) (h' : ReadTo conn latest t s') : ReadTo conn latest s s' where
  coming_eq := h'.coming_eq
  frame other hne := (h'.frame other hne).trans (h.frame other hne)
  connectionOf_eq := h'.connectionOf_eq.trans h.connectionOf_eq
  returned_eq := h'.returned_eq.trans h.returned_eq

theorem coming_of_own (hown : ∀ byte ∈ s.readBuf, byte.2 = conn) : coming conn s =
    s.readBuf.map (fun byte => some byte.1) ++ (s.incoming conn).flatMap Receive.arrivals := by
  rw [coming, List.filter_eq_self.mpr fun byte hbyte => decide_eq_true (hown byte hbyte)]

theorem coming_of_other {other : ℕ} (hne : other ≠ conn)
    (hown : ∀ byte ∈ s.readBuf, byte.2 = conn) :
    coming other s = (s.incoming other).flatMap Receive.arrivals := by
  have hnone : s.readBuf.filter (·.2 = other) = [] := by
    rw [List.filter_eq_nil_iff]
    intro byte hbyte
    rw [hown byte hbyte, decide_eq_true_eq]
    exact hne.symm
  rw [coming, hnone, List.map_nil, List.nil_append]

/-- What the calls of `read` bring, and what the first of them that is not interrupted does. -/
theorem arrivals_readAgain (incoming : List Receive) :
    incoming.flatMap Receive.arrivals = match readAgain incoming with
      | (none, later) => none :: later.flatMap Receive.arrivals
      | (some bytes, later) => bytes.map some ++ later.flatMap Receive.arrivals := by
  induction incoming with
  | nil => rfl
  | cons receive later ih =>
    cases receive with
    | data bytes some_bytes fits => rfl
    | interrupted => exact ih
    | failed => rfl

theorem readAgain_end {incoming later : List Receive} (h : readAgain incoming = (some [], later)) :
    later = [] := by
  induction incoming with
  | nil => exact (Prod.mk.inj h).2.symm
  | cons receive rest ih =>
    cases receive with
    | data bytes some_bytes fits => exact absurd (Option.some.inj (Prod.mk.inj h).1) some_bytes
    | interrupted => exact ih h
    | failed => cases h

/-- A read from an empty buffer fills it from the connection. -/
theorem readTo_update (later : List Receive) {held : List Byte} (hbuf : s.readBuf = [])
    (hheld : ∀ byte ∈ held, byte.2 = conn) :
    ReadTo conn (held.map (fun byte => some byte.1) ++ later.flatMap Receive.arrivals) s
      { s with incoming := Function.update s.incoming conn later, readBuf := held } where
  coming_eq := by
    rw [coming_of_own hheld]
    simp only [Function.update_self]
  frame other hne := by
    rw [coming_of_other hne hheld,
      coming_of_other hne (by rw [hbuf]; exact List.forall_mem_nil _)]
    simp only [Function.update_of_ne hne]
  connectionOf_eq := rfl
  returned_eq := rfl

/-- What a read of one character from its own connection finds. -/
def foundNext (conn : ℕ) : Option (Option Char) → MyRead
  | none => .eof
  | some none => .error
  | some (some c) => .char (c, conn)

theorem socketMyRead_own (h : Own fd conn s) : ∃ s',
    socketMyRead fd s = (foundNext conn (coming conn s).head?, s') ∧ Own fd conn s' ∧
      ReadTo conn (coming conn s).tail s s' := by
  cases hbuf : s.readBuf with
  | cons byte rest =>
    have hbyte : byte = (byte.1, conn) :=
      Prod.ext rfl (h.held byte (by rw [hbuf]; exact List.mem_cons_self))
    have hrest : ∀ byte ∈ rest, byte.2 = conn := fun byte hmem =>
      h.held byte (by rw [hbuf]; exact List.mem_cons_of_mem _ hmem)
    have hcoming := coming_of_own h.held
    rw [hbuf, List.map_cons, List.cons_append] at hcoming
    refine ⟨{ s with readBuf := rest }, ?_, ⟨h.connected, hrest⟩, ?_, ?_, rfl, rfl⟩
    · rw [socketMyRead, hbuf, hcoming, List.head?_cons, foundNext, ← hbyte]
    · rw [hcoming, List.tail_cons]
      exact coming_of_own (s := { s with readBuf := rest }) hrest
    · intro other hne
      rw [coming_of_other hne h.held]
      exact coming_of_other (s := { s with readBuf := rest }) hne hrest
  | nil =>
    have hcoming := coming_of_own h.held
    rw [hbuf, List.map_nil, List.nil_append, arrivals_readAgain] at hcoming
    rw [socketMyRead, hbuf]
    simp only [h.connected]
    cases hread : readAgain (s.incoming conn) with
    | mk got later =>
      have hto : ∀ held : List Byte, (∀ byte ∈ held, byte.2 = conn) → _ := fun held hheld =>
        readTo_update later hbuf hheld
      rw [hread] at hcoming
      rw [hcoming]
      cases got with
      | none => exact ⟨_, rfl, ⟨h.connected, List.forall_mem_nil _⟩, hto [] (List.forall_mem_nil _)⟩
      | some bytes =>
        cases bytes with
        | nil =>
          obtain rfl := readAgain_end hread
          exact ⟨_, rfl, ⟨h.connected, List.forall_mem_nil _⟩, hto [] (List.forall_mem_nil _)⟩
        | cons c cs =>
          have hcs : ∀ byte ∈ cs.map (fun c => ((c, conn) : Byte)), byte.2 = conn := by
            intro byte hmem
            obtain ⟨c', -, rfl⟩ := List.mem_map.mp hmem
            rfl
          refine ⟨_, rfl, ⟨h.connected, hcs⟩, ?_⟩
          have hrest := hto _ hcs
          rwa [List.map_map] at hrest

/-- Characters that are no newline are stored one by one. -/
theorem readLineFrom_append {line : Text} (left : ℕ) (hline : '\n' ∉ line) :
    ∀ (str : List Byte) {rest : List (Option Char)} {s : SocketState}, Own fd conn s →
      coming conn s = line.map some ++ rest → ∃ s', Own fd conn s' ∧ ReadTo conn rest s s' ∧
        readLineFrom fd (line.length + left) str s =
          readLineFrom fd left (str ++ line.map (·, conn)) s' := by
  induction line with
  | nil =>
    intro str rest s hown hcoming
    refine ⟨s, hown, ?_, ?_⟩
    · rw [List.map_nil, List.nil_append] at hcoming
      rw [← hcoming]
      exact ReadTo.refl conn s
    · rw [List.length_nil, Nat.zero_add, List.map_nil, List.append_nil]
  | cons c cs ih =>
    intro str rest s hown hcoming
    rw [List.mem_cons, not_or] at hline
    obtain ⟨t, hread, hown', hto⟩ := socketMyRead_own hown
    rw [hcoming] at hread hto
    obtain ⟨s', hown'', hto', hfrom⟩ := ih hline.2 (str ++ [(c, conn)]) hown' hto.coming_eq
    refine ⟨s', hown'', hto.trans hto', ?_⟩
    rw [List.length_cons, Nat.add_right_comm, readLineFrom, hread]
    simp only [List.map_cons, List.cons_append, List.head?_cons, foundNext,
      if_neg (Ne.symm hline.1)]
    rwa [List.append_assoc, List.singleton_append] at hfrom

theorem blockreadFrom_append {block : Text} (left : ℕ) :
    ∀ (ptr : List Byte) {rest : List (Option Char)} {s : SocketState}, Own fd conn s →
      coming conn s = block.map some ++ rest → ∃ s', Own fd conn s' ∧ ReadTo conn rest s s' ∧
        blockreadFrom fd (block.length + left) ptr s =
          blockreadFrom fd left (ptr ++ block.map (·, conn)) s' := by
  induction block with
  | nil =>
    intro ptr rest s hown hcoming
    refine ⟨s, hown, ?_, ?_⟩
    · rw [List.map_nil, List.nil_append] at hcoming
      rw [← hcoming]
      exact ReadTo.refl conn s
    · rw [List.length_nil, Nat.zero_add, List.map_nil, List.append_nil]
  | cons c cs ih =>
    intro ptr rest s hown hcoming
    obtain ⟨t, hread, hown', hto⟩ := socketMyRead_own hown
    rw [hcoming] at hread hto
    obtain ⟨s', hown'', hto', hfrom⟩ := ih (ptr ++ [(c, conn)]) hown' hto.coming_eq
    refine ⟨s', hown'', hto.trans hto', ?_⟩
    rw [List.length_cons, Nat.add_right_comm, blockreadFrom, hread]
    simp only [List.map_cons, List.cons_append, List.head?_cons, foundNext]
    rwa [List.append_assoc, List.singleton_append] at hfrom

/-- The end of the stream leaves a block as it is. -/
theorem blockreadFrom_end (left : ℕ) (ptr : List Byte) : ∀ {s : SocketState}, Own fd conn s →
    coming conn s = [] → ∃ s', ReadTo conn [] s s' ∧ blockreadFrom fd left ptr s = (some ptr, s') := by
  induction left with
  | zero => exact fun {s} _ hcoming => ⟨s, hcoming ▸ ReadTo.refl conn s, rfl⟩
  | succ left ih =>
    intro s hown hcoming
    obtain ⟨t, hread, hown', hto⟩ := socketMyRead_own hown
    rw [hcoming] at hread hto
    obtain ⟨s', hto', hfrom⟩ := ih hown' hto.coming_eq
    refine ⟨s', hto.trans hto', ?_⟩
    rw [blockreadFrom, hread]
    exact hfrom

end Reading

section Pieces
variable {fd conn : ℕ} {s : SocketState}

theorem reduceOption_map_some (text : Text) : (text.map some).reduceOption = text := by
  rw [List.reduceOption, List.filterMap_map]
  exact List.filterMap_some

theorem eq_map_some_reduceOption {l : List (Option Char)} (h : none ∉ l) :
    l = l.reduceOption.map some := by
  induction l with
  | nil => rfl
  | cons o l ih =>
    rw [List.mem_cons, not_or] at h
    cases o with
    | none => exact absurd rfl h.1
    | some c => rw [List.reduceOption_cons_of_some, List.map_cons, ← ih h.2]

theorem no_newline {line : Text} (hline : '\n' ∉ line) :
    ∀ c ∈ line, decide (c ≠ '\n') = true := fun _ hc =>
  decide_eq_true fun heq => hline (heq ▸ hc)

theorem after_line {line : Text} (hline : '\n' ∉ line) (rest : Text) :
    Piece.after (line ++ '\n' :: rest) (.line line) = some rest := by
  rw [Piece.after, takeWhile_append_stop (no_newline hline) (by decide),
    dropWhile_append_stop (no_newline hline) (by decide),
    if_pos ⟨List.append_ne_nil_of_right_ne_nil _ (List.cons_ne_nil _ _), rfl⟩, List.tail_cons]

theorem after_lastLine {line : Text} (hline : '\n' ∉ line) (hne : line ≠ []) :
    Piece.after line (.line line) = some [] := by
  rw [Piece.after, List.takeWhile_eq_self_iff.mpr (no_newline hline),
    List.dropWhile_eq_nil_iff.mpr (no_newline hline), if_pos ⟨hne, rfl⟩, List.tail_nil]

theorem after_block (block rest : Text) : Piece.after (block ++ rest) (.block block) = some rest := by
  rw [Piece.after, if_pos (List.prefix_append block rest), List.drop_left]

/-- A line that was returned is the first one of the text it was taken from. -/
theorem textLines_of_after {text line rest : Text}
    (h : Piece.after text (.line line) = some rest) :
    textLines text = line :: textLines rest := by
  rw [Piece.after] at h
  split_ifs at h with htext
  obtain ⟨hne, rfl⟩ := htext
  obtain rfl := Option.some.inj h
  rcases stop_cases (fun c => decide (c ≠ '\n')) text with hplain | ⟨line, c, rest, rfl, hline, hc⟩
  · have hnone : '\n' ∉ text := fun hmem => absurd (hplain _ hmem) (by decide)
    rw [List.takeWhile_eq_self_iff.mpr hplain, List.dropWhile_eq_nil_iff.mpr hplain, textLines,
      List.splitOn_eq_singleton hnone, textLines, List.tail_nil, List.splitOn_nil]
    simp [hne]
  · obtain rfl : c = '\n' := by simpa using hc
    have hnone : '\n' ∉ line := fun hmem => absurd (hline _ hmem) (by decide)
    rw [takeWhile_append_stop hline hc, dropWhile_append_stop hline hc, List.tail_cons, textLines,
      splitOn_append_separator hnone, textLines,
      List.dropLast_cons_of_ne_nil (List.splitOn_ne_nil _ rest),
      List.getLast?_cons_of_ne_nil (List.splitOn_ne_nil _ rest), List.cons_append]

theorem textLines_of_foldlM {lines : List Text} {text rest : Text}
    (h : (lines.map Piece.line).foldlM Piece.after text = some rest) :
    textLines text = lines ++ textLines rest := by
  induction lines generalizing text with
  | nil =>
    obtain rfl := Option.some.inj h
    rfl
  | cons line lines ih =>
    rw [List.map_cons, List.foldlM_cons] at h
    obtain ⟨next, hline, hlines⟩ := Option.bind_eq_some_iff.mp h
    rw [textLines_of_after hline, ih hlines, List.cons_append]

/-- The line is taken from what is pending, or nothing is and the call says so. -/
theorem socketReadLine_own {maxlen : ℤ} (h : Own fd conn s)
    (hfits : NextFits maxlen (coming conn s)) : ∃ ret line later s',
    socketReadLine fd maxlen s = ((ret, line.map (·, conn)), s') ∧ ReadTo conn later s s' ∧
      (0 < ret ∧ Piece.after (pending conn s) (.line line) = some (pending conn s') ∨
        ¬ 0 < ret ∧ pending conn s' = pending conn s) := by
  obtain ⟨hmax, line, rest, hcoming, hline, hcases⟩ := hfits
  obtain ⟨left, hleft⟩ : ∃ left, (maxlen - 1).toNat = line.length + left := by
    have hroom : line.length < maxlen := by
      rcases hcases with ⟨-, hlen⟩ | ⟨-, hlen⟩ | ⟨-, rfl⟩
      · omega
      · exact hlen
      · simp only [List.length_nil]
        omega
    exact ⟨(maxlen - 1).toNat - line.length, by omega⟩
  obtain ⟨t, hown, hto, hfrom⟩ := readLineFrom_append left hline [] h hcoming
  rw [← hleft, List.nil_append] at hfrom
  have hpending : pending conn s = line ++ rest.reduceOption := by
    rw [pending, hcoming, List.reduceOption_append, reduceOption_map_some]
  have hlen : (line.map fun c => ((c, conn) : Byte)).length = line.length := List.length_map _
  obtain ⟨s', hread, -, hto'⟩ := socketMyRead_own hown
  rw [hto.coming_eq] at hread hto'
  rw [socketReadLine, hfrom, hpending]
  rcases hcases with ⟨hnewline, hlength⟩ | ⟨rfl, hlength⟩ | ⟨herror, rfl⟩
  · obtain ⟨more, rfl⟩ := List.head?_eq_some_iff.mp hnewline
    obtain ⟨left, rfl⟩ : ∃ k, left = k + 1 := ⟨left - 1, by omega⟩
    refine ⟨line.length + 1, line, more, s', ?_, hto.trans hto', .inl ⟨by omega, ?_⟩⟩
    · rw [readLineFrom, hread, hlen]
      rfl
    · rw [pending, hto'.coming_eq, List.reduceOption_cons_of_some]
      exact after_line hline _
  · cases left with
    | zero =>
      have hne : line ≠ [] := by
        rintro rfl
        rw [List.length_nil] at hleft
        omega
      refine ⟨line.length + 1, line, [], t, ?_, hto, .inl ⟨by omega, ?_⟩⟩
      · rw [readLineFrom, hlen]
      · rw [pending, hto.coming_eq, List.reduceOption_nil, List.append_nil]
        exact after_lastLine hline hne
    | succ left =>
      refine ⟨line.length, line, [], s', ?_, hto.trans hto', ?_⟩
      · rw [readLineFrom, hread, ← hlen]
        rfl
      · rw [pending, hto'.coming_eq, List.tail_nil, List.reduceOption_nil, List.append_nil]
        by_cases hne : line = []
        · rw [hne]
          exact .inr ⟨lt_irrefl 0, rfl⟩
        · have hpos := List.length_pos_iff.mpr hne
          exact .inl ⟨by omega, after_lastLine hline hne⟩
  · obtain ⟨more, rfl⟩ := List.head?_eq_some_iff.mp herror
    rw [List.length_nil] at hleft
    obtain ⟨left, rfl⟩ : ∃ k, left = k + 1 := ⟨left - 1, by omega⟩
    refine ⟨-1, [], more, s', ?_, hto.trans hto', .inr ⟨by decide, ?_⟩⟩
    · rw [readLineFrom, hread]
      rfl
    · rw [pending, hto'.coming_eq, List.tail_cons, List.reduceOption_cons_of_none, List.nil_append]

theorem socketBlockread_own {size : ℤ} (h : Own fd conn s)
    (hcomes : BlockComes size (coming conn s)) : ∃ later s', ReadTo conn later s s' ∧
      ((∃ block : Text, socketBlockread fd size s = (some (block.map (·, conn)), s') ∧
        Piece.after (pending conn s) (.block block) = some (pending conn s')) ∨
      socketBlockread fd size s = (none, s') ∧ pending conn s' = pending conn s) := by
  rw [socketBlockread]
  rcases hcomes with herror | hblock
  · obtain ⟨more, hcoming⟩ := List.head?_eq_some_iff.mp herror
    cases hsize : size.toNat with
    | zero =>
      refine ⟨_, s, ReadTo.refl conn s, .inl ⟨[], rfl, after_block [] _⟩⟩
    | succ left =>
      obtain ⟨s', hread, -, hto⟩ := socketMyRead_own h
      rw [hcoming] at hread hto
      refine ⟨more, s', hto, .inr ⟨?_, ?_⟩⟩
      · rw [blockreadFrom, hread]
        rfl
      · rw [pending, pending, hto.coming_eq, hcoming, List.tail_cons,
          List.reduceOption_cons_of_none]
  · have hcoming := List.take_append_drop size.toNat (coming conn s)
    have hlength : ((coming conn s).take size.toNat).length ≤ size.toNat := List.length_take_le _ _
    rw [eq_map_some_reduceOption hblock] at hcoming hlength
    generalize ((coming conn s).take size.toNat).reduceOption = block at hcoming hlength
    rw [List.length_map] at hlength
    obtain ⟨left, hleft⟩ := Nat.exists_eq_add_of_le hlength
    obtain ⟨t, hown, hto, hfrom⟩ := blockreadFrom_append left [] h hcoming.symm
    rw [List.nil_append] at hfrom
    have hafter : ∀ s', ReadTo conn ((coming conn s).drop size.toNat) s s' →
        Piece.after (pending conn s) (.block block) = some (pending conn s') := by
      intro s' hto
      rw [pending, pending, hto.coming_eq, ← hcoming, List.reduceOption_append,
        reduceOption_map_some, hcoming]
      exact after_block block _
    rw [hleft, hfrom]
    cases left with
    | zero => exact ⟨_, t, hto, .inl ⟨block, rfl, hafter t hto⟩⟩
    | succ left =>
      -- fewer bytes than asked for: the stream ends behind them
      have hend : (coming conn s).drop size.toNat = [] := by
        rw [List.drop_eq_nil_iff]
        have hlen := congrArg List.length hcoming
        rw [List.length_append, List.length_map, List.length_drop] at hlen
        omega
      obtain ⟨s', hto', hrest⟩ := blockreadFrom_end (left + 1)
        (block.map (·, conn)) hown (hto.coming_eq.trans hend)
      rw [hrest]
      have hread := hto.trans hto'
      exact ⟨_, s', hread, .inl ⟨block, rfl, hafter s' (hend ▸ hread)⟩⟩

end Pieces

section Runs
variable {stream : ℕ → Text} {s s' : SocketState} {fd conn : ℕ}

theorem mem_content_map {piece : Piece Char} {byte : Byte}
    (h : byte ∈ (piece.map fun c => ((c, conn) : Byte)).content) : byte.2 = conn := by
  cases piece with
  | line content | block content =>
    obtain ⟨c, -, rfl⟩ := List.mem_map.mp h
    rfl

theorem piecesOf_append (conn : ℕ) (returned : List (Option ℕ × Piece Byte))
    (read : Option ℕ × Piece Byte) : piecesOf conn (returned ++ [read]) =
      piecesOf conn returned ++ if read.1 = some conn then [read.2.map Prod.fst] else [] := by
  rw [piecesOf, piecesOf, List.filter_append, List.map_append]
  split_ifs with hread
  · rw [List.filter_singleton, decide_eq_true hread]
    rfl
  · rw [List.filter_singleton, decide_eq_false hread]
    rfl

theorem map_fst_tagged (piece : Piece Char) :
    (piece.map fun c => ((c, conn) : Byte)).map Prod.fst = piece := by
  have hback : ∀ content : List Char,
      (content.map fun c => ((c, conn) : Byte)).map Prod.fst = content := fun content => by
    rw [List.map_map]
    exact List.map_id content
  cases piece with
  | line content | block content => rw [Piece.map, Piece.map, hback]

/-- What is not about the lines of the peer follows from the pieces. -/
theorem LinesRight.of_pieces
    (hown : ∀ read ∈ s.returned, ∀ byte ∈ read.2.content, read.1 = some byte.2)
    (horder : ∀ conn,
      (piecesOf conn s.returned).foldlM Piece.after (stream conn) = some (pending conn s)) :
    LinesRight stream s where
  own := hown
  inOrder := horder
  linesOfPeer conn lines hlines := textLines_of_foldlM (by rw [← hlines]; exact horder conn)

/-- Nothing was returned, and nothing that is pending was lost. -/
theorem LinesRight.of_pending (h : LinesRight stream s) (hreturned : s'.returned = s.returned)
    (hpending : ∀ conn, pending conn s' = pending conn s) : LinesRight stream s' := by
  refine .of_pieces (by rw [hreturned]; exact h.own) fun conn => ?_
  rw [hreturned, hpending]
  exact h.inOrder conn

theorem LinesRight.of_readTo (h : LinesRight stream s) {later : List (Option Char)}
    (hto : ReadTo conn later s s') (hpending : pending conn s' = pending conn s) :
    LinesRight stream s' := by
  refine h.of_pending hto.returned_eq fun other => ?_
  by_cases hother : other = conn
  · rw [hother, hpending]
  · rw [pending, hto.frame other hother, pending]

/-- A piece was taken from what is pending, and is returned. -/
theorem LinesRight.note (h : LinesRight stream s) (hconn : s.connectionOf fd = some conn)
    {later : List (Option Char)} (hto : ReadTo conn later s s') {piece : Piece Char}
    (hafter : piece.after (pending conn s) = some (pending conn s')) :
    LinesRight stream (s'.note fd (piece.map (·, conn))) := by
  have hnoted : (s'.note fd (piece.map (·, conn))).returned =
      s.returned ++ [(some conn, piece.map (·, conn))] := by
    rw [SocketState.note, hto.returned_eq, hto.connectionOf_eq, hconn]
  refine .of_pieces ?_ fun other => ?_
  · rw [hnoted]
    intro read hread byte hbyte
    rcases List.mem_append.mp hread with hread | hread
    · exact h.own read hread byte hbyte
    · obtain rfl := List.mem_singleton.mp hread
      rw [mem_content_map hbyte]
  · rw [hnoted, piecesOf_append, List.foldlM_append, h.inOrder other]
    by_cases hother : other = conn
    · rw [hother, if_pos rfl, map_fst_tagged]
      change ([piece].foldlM Piece.after (pending conn s) : Option Text) = _
      rw [List.foldlM_cons, hafter]
      rfl
    · rw [if_neg fun heq => hother (Option.some.inj heq).symm]
      have hframe : pending other s' = pending other s := by
        rw [pending, pending, hto.frame other hother]
      rw [← hframe]
      rfl

theorem socketMyRead_closed (hclosed : s.connectionOf fd = none) (hbuf : s.readBuf = []) :
    socketMyRead fd s = (.error, s) := by
  rw [socketMyRead, hbuf]
  simp only [hclosed]

theorem linesRight_step {event : SocketEvent} (h : LinesRight stream s) (hcond : ReadsOwn s event)
    (hstep : socketStep s event = .ok s') : LinesRight stream s' := by
  cases event with
  | connect fd conn =>
    obtain rfl := Outcome.ok.inj hstep
    exact h.of_pending rfl fun _ => rfl
  | close fd =>
    obtain rfl := Outcome.ok.inj hstep
    exact h.of_pending rfl fun _ => rfl
  | readLine fd maxlen =>
    obtain rfl := Outcome.ok.inj hstep
    rw [ReadsOwn] at hcond
    cases hconn : s.connectionOf fd with
    | none =>
      simp only [hconn] at hcond
      obtain ⟨left, hleft⟩ : ∃ left, (maxlen - 1).toNat = left + 1 :=
        ⟨(maxlen - 2).toNat, by omega⟩
      have hread : socketReadLine fd maxlen s = ((-1, []), s) := by
        rw [socketReadLine, hleft, readLineFrom, socketMyRead_closed hconn hcond.1]
      rw [hread, if_neg (by simp)]
      exact h
    | some conn =>
      simp only [hconn] at hcond
      obtain ⟨ret, line, later, t, hread, hto, hcases⟩ :=
        socketReadLine_own ⟨hconn, hcond.1⟩ hcond.2
      rw [hread]
      rcases hcases with ⟨hret, hafter⟩ | ⟨hret, hpending⟩
      · rw [if_pos hret]
        exact h.note hconn hto hafter
      · rw [if_neg hret]
        exact h.of_readTo hto hpending
  | blockread fd size =>
    rw [ReadsOwn] at hcond
    rw [socketStep] at hstep
    cases hconn : s.connectionOf fd with
    | none =>
      simp only [hconn] at hcond
      cases hsize : size.toNat with
      | zero =>
        rw [socketBlockread, hsize, blockreadFrom] at hstep
        obtain rfl := Outcome.ok.inj hstep
        refine .of_pieces ?_ fun other => ?_
        · intro read hread byte hbyte
          rcases List.mem_append.mp hread with hread | hread
          · exact h.own read hread byte hbyte
          · obtain rfl := List.mem_singleton.mp hread
            exact absurd hbyte (List.not_mem_nil)
        · rw [SocketState.note, piecesOf_append, hconn, if_neg (by simp), List.append_nil]
          exact h.inOrder other
      | succ left =>
        rw [socketBlockread, hsize, blockreadFrom, socketMyRead_closed hconn hcond] at hstep
        obtain rfl := Outcome.ok.inj hstep
        exact h
    | some conn =>
      simp only [hconn] at hcond
      obtain ⟨later, t, hto, ⟨block, hread, hafter⟩ | ⟨hread, hpending⟩⟩ :=
        socketBlockread_own ⟨hconn, hcond.1⟩ hcond.2
      · rw [hread] at hstep
        obtain rfl := Outcome.ok.inj hstep
        exact h.note hconn hto hafter
      · rw [hread] at hstep
        obtain rfl := Outcome.ok.inj hstep
        exact h.of_readTo hto hpending

theorem linesRight_before (incoming : ℕ → List Receive) :
    LinesRight (sent incoming) (socketsBefore incoming) :=
  .of_pieces (List.forall_mem_nil _) fun _ => rfl

theorem socketStep_ok (s : SocketState) (event : SocketEvent) : ∃ s', socketStep s event = .ok s' := by
  cases event with
  | connect fd conn | close fd | readLine fd maxlen => exact ⟨_, rfl⟩
  | blockread fd size =>
    rw [socketStep]
    cases hread : socketBlockread fd size s with
    | mk got t =>
      cases got with
      | none => exact ⟨t, rfl⟩
      | some ptr => exact ⟨_, rfl⟩

/-- Reads that find nothing of another connection in the buffer return the lines of the peers. -/
theorem linesRight_of_readsOwn (incoming : ℕ → List Receive) (events : List SocketEvent)
    (hmeet : Outcome.StepsMeet ReadsOwn socketStep events (socketsBefore incoming)) :
    ∀ earlier, earlier <+: events → ∃ s, earlier.foldlM socketStep (socketsBefore incoming) = .ok s ∧
      LinesRight (sent incoming) s := by
  rintro earlier ⟨more, rfl⟩
  have hok : ∀ (events : List SocketEvent) (s : SocketState), ∃ s',
      events.foldlM socketStep s = .ok s' := by
    intro events
    induction events with
    | nil => exact fun s => ⟨s, rfl⟩
    | cons event events ih =>
      intro s
      obtain ⟨t, ht⟩ := socketStep_ok s event
      obtain ⟨s', hs'⟩ := ih t
      exact ⟨s', by rw [List.foldlM_cons, ht, Outcome.ok_bind, hs']⟩
  obtain ⟨s, hs⟩ := hok earlier (socketsBefore incoming)
  refine ⟨s, hs, ?_⟩
  exact Outcome.StepsMeet.invariant (LinesRight (sent incoming))
    (fun _ _ _ => linesRight_step) hmeet.append.1 (linesRight_before incoming) hs

/-- The first peer sends two lines at once, the second one line. -/
def twoPeers (conn : ℕ) : List Receive :=
  if conn = 0 then [.data ['a', '\n', 'b', '\n'] (by decide) (by decide)]
  else if conn = 1 then [.data ['x', '\n'] (by decide) (by decide)]
  else []

/-- The lines of one connection are read before it is closed and the next one opened. -/
theorem linesRight_of_readsOwn_twoPeers : ∃ s,
    [SocketEvent.connect 3 0, .readLine 3 512, .readLine 3 512, .close 3, .connect 3 1,
      .readLine 3 512].foldlM socketStep (socketsBefore twoPeers) = .ok s ∧
      LinesRight (sent twoPeers) s := by
  refine linesRight_of_readsOwn twoPeers [.connect 3 0, .readLine 3 512, .readLine 3 512,
    .close 3, .connect 3 1, .readLine 3 512] ⟨trivial, fun s hs => ?_⟩ _ List.prefix_rfl
  obtain rfl := Outcome.ok.inj hs
  refine ⟨⟨by decide, by decide, ['a'], _, rfl, by decide, .inl ⟨rfl, by decide⟩⟩, fun s hs => ?_⟩
  obtain rfl := Outcome.ok.inj hs
  refine ⟨⟨by decide, by decide, ['b'], _, rfl, by decide, .inl ⟨rfl, by decide⟩⟩, fun s hs => ?_⟩
  obtain rfl := Outcome.ok.inj hs
  refine ⟨trivial, fun s hs => ?_⟩
  obtain rfl := Outcome.ok.inj hs
  refine ⟨trivial, fun s hs => ?_⟩
  obtain rfl := Outcome.ok.inj hs
  refine ⟨⟨by decide, by decide, ['x'], _, rfl, by decide, .inl ⟨rfl, by decide⟩⟩, fun s hs => ?_⟩
  trivial

/-- The second line of the first peer is held when the other descriptor is read. -/
theorem not_linesRight : ¬ ∀ (incoming : ℕ → List Receive) (events : List SocketEvent) (s : SocketState),
    events.foldlM socketStep (socketsBefore incoming) = .ok s → LinesRight (sent incoming) s := by
  intro h
  have hright := h twoPeers [.connect 3 0, .connect 4 1, .readLine 3 512, .readLine 4 512] _ rfl
  have hown := hright.own (some 1, .line [('b', 0)]) (by decide) ('b', 0) (by decide)
  cases hown

end Runs

end ReadexPtf.Sockets
