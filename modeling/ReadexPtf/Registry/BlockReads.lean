import ReadexPtf.Lib.IntLoop
import ReadexPtf.Registry.Sockets

/-! Blocks that are read from one socket, also where `read` has no data for a while. -/
namespace ReadexPtf.Sockets

/-- What a call of `read` gives: no data may come before more data. -/
inductive ReadResult where
  | data (first : Char) (more : Text) (fits : more.length < sizeofReadBuf)
  | nothing
  | interrupted
  | failed

/-- Behind the results that are listed no more data comes. -/
structure Reader where
  readBuf : Text
  reads : List ReadResult

/-- What `socket_my_read` finds, with its results 1, 0 and -1. -/
inductive Arrival where
  | char (c : Char)
  | nothing
  | error
  deriving DecidableEq

def Arrival.stored : Arrival → Text
  | .char c => [c]
  | _ => []

def nextRead : List ReadResult → ReadResult × List ReadResult
  | [] => (.nothing, [])
  | .interrupted :: later => nextRead later
  | result :: later => (result, later)

namespace Reader

def myRead (s : Reader) : Arrival × Reader :=
  match s.readBuf with
  | c :: rest => (.char c, { s with readBuf := rest })
  | [] =>
    match nextRead s.reads with
    | (.data c rest _, later) => (.char c, ⟨rest, later⟩)
    | (.failed, later) => (.error, ⟨[], later⟩)
    | (_, later) => (.nothing, ⟨[], later⟩)

end Reader

structure BlockRead where
  ret : ℤ
  ptr : Text
  reader : Reader

namespace Reader

/-- The rounds that are left, from `n` on. A round that finds no data stores nothing, and is
counted all the same. -/
def blockreadFrom : ℕ → ℤ → Text → Reader → Outcome BlockRead
  | 0, n, ptr, s => .ok ⟨n - 1, ptr, s⟩
  | left + 1, n, ptr, s =>
    match s.myRead with
    | (.error, s) => .ok ⟨-1, ptr, s⟩
    | (arrival, s) =>
      if n < intMax then blockreadFrom left (n + 1) (ptr ++ arrival.stored) s else .undefined

/-- The size is an `int`. -/
def blockread (size : { size : ℤ // FitsInt size }) (s : Reader) : Outcome BlockRead :=
  s.blockreadFrom size.val.toNat 1 []

end Reader

def ReadResult.arrivals : ReadResult → List Arrival
  | .data c rest _ => .char c :: rest.map .char
  | .nothing => [.nothing]
  | .interrupted => []
  | .failed => [.error]

/-- What the rounds find one after the other. -/
def Reader.arrivals (s : Reader) : List Arrival :=
  s.readBuf.map .char ++ s.reads.flatMap ReadResult.arrivals

/-- The stream: what is held of it, and what is still to come. -/
def Reader.stream (s : Reader) : Text := s.arrivals.flatMap Arrival.stored

/-- The call returns, and gives the size only for a complete block. -/
def BlockDetected (size : { size : ℤ // FitsInt size }) (s : Reader) : Prop :=
  ∃ block, s.blockread size = .ok block ∧
    (block.ret = size.val → block.ptr.length = size.val ∧ block.ptr <+: s.stream)

/-- An error comes within the block, or all of its characters come without a break. A size of
the greatest `int` is one that the counter cannot pass. -/
def ArrivesWhole (size : { size : ℤ // FitsInt size }) (s : Reader) : Prop :=
  .error ∈ s.arrivals.take size.val.toNat ∨
  size.val < intMax ∧ ∃ block : Text, block.length = size.val.toNat ∧
    s.arrivals.take size.val.toNat = block.map .char

section Rounds
variable {s : Reader} {left : ℕ} {n : ℤ} {ptr : Text}

theorem nextRead_cases (reads : List ReadResult) : (nextRead reads).1 ≠ .interrupted ∧
    (reads.flatMap ReadResult.arrivals =
        (nextRead reads).1.arrivals ++ (nextRead reads).2.flatMap ReadResult.arrivals ∨
      nextRead reads = (.nothing, []) ∧ reads.flatMap ReadResult.arrivals = []) := by
  induction reads with
  | nil => exact ⟨ReadResult.noConfusion, .inr ⟨rfl, rfl⟩⟩
  | cons result later ih =>
    cases result with
    | interrupted => exact ih
    | data c rest fits => exact ⟨ReadResult.noConfusion, .inl rfl⟩
    | nothing => exact ⟨ReadResult.noConfusion, .inl rfl⟩
    | failed => exact ⟨ReadResult.noConfusion, .inl rfl⟩

theorem myRead_arrivals (s : Reader) :
    s.myRead.1 = s.arrivals.headD .nothing ∧ s.myRead.2.arrivals = s.arrivals.tail := by
  rw [Reader.myRead, Reader.arrivals]
  cases hbuf : s.readBuf with
  | cons c rest => exact ⟨rfl, rfl⟩
  | nil =>
    obtain ⟨hresult, hnext⟩ := nextRead_cases s.reads
    cases hread : nextRead s.reads with
    | mk result later =>
      rw [hread] at hresult hnext
      rw [List.map_nil, List.nil_append]
      rcases hnext with hnext | ⟨hnothing, hnone⟩
      · rw [hnext]
        cases result with
        | data c rest fits => exact ⟨rfl, rfl⟩
        | nothing => exact ⟨rfl, rfl⟩
        | interrupted => exact absurd rfl hresult
        | failed => exact ⟨rfl, rfl⟩
      · obtain ⟨rfl, rfl⟩ := Prod.mk.inj hnothing
        rw [hnone]
        exact ⟨rfl, rfl⟩

/-- The next round, by what it finds. -/
theorem blockreadFrom_succ (left : ℕ) (n : ℤ) (ptr : Text) (s : Reader) : ∃ s' : Reader,
    s'.arrivals = s.arrivals.tail ∧ s.blockreadFrom (left + 1) n ptr =
      if s.arrivals.headD .nothing = .error then .ok ⟨-1, ptr, s'⟩
      else if n < intMax then
        s'.blockreadFrom left (n + 1) (ptr ++ (s.arrivals.headD .nothing).stored)
      else .undefined := by
  obtain ⟨harrival, htail⟩ := myRead_arrivals s
  refine ⟨s.myRead.2, htail, ?_⟩
  rw [← harrival, Reader.blockreadFrom]
  cases hread : s.myRead with
  | mk arrival s' =>
    cases arrival with
    | char c => rfl
    | nothing => rfl
    | error => rfl

/-- What the rounds that are left find; behind the last arrival they find nothing. -/
theorem take_succ_arrivals (arrivals : List Arrival) (left : ℕ) :
    (arrivals.take (left + 1)).flatMap Arrival.stored =
        (arrivals.headD .nothing).stored ++ (arrivals.tail.take left).flatMap Arrival.stored ∧
      (.error ∈ arrivals.take (left + 1) ↔
        arrivals.headD .nothing = .error ∨ .error ∈ arrivals.tail.take left) := by
  cases arrivals with
  | nil => simp [Arrival.stored]
  | cons arrival later => simp [List.take_succ_cons, eq_comm]

theorem blockreadFrom_error (ptr : Text) (herror : .error ∈ s.arrivals.take left)
    (hfits : n + left ≤ intMax + 1) :
    ∃ block, s.blockreadFrom left n ptr = .ok block ∧ block.ret = -1 := by
  induction left generalizing s n ptr with
  | zero => cases herror
  | succ left ih =>
    obtain ⟨s', htail, hround⟩ := blockreadFrom_succ left n ptr s
    rw [hround]
    split_ifs with hhead hlt
    · exact ⟨_, rfl, rfl⟩
    · have hlater := ((take_succ_arrivals s.arrivals left).2.mp herror).resolve_left hhead
      refine ih _ (htail ▸ hlater) ?_
      push_cast at hfits
      omega
    · -- the error comes in a later round, so that the counter is not at its end yet
      have hlater := ((take_succ_arrivals s.arrivals left).2.mp herror).resolve_left hhead
      have hpos : 0 < left := by
        rcases Nat.eq_zero_or_pos left with rfl | hpos
        · cases hlater
        · exact hpos
      push_cast at hfits
      omega

theorem blockreadFrom_returns (ptr : Text) (hnone : .error ∉ s.arrivals.take left)
    (hfits : n + left ≤ intMax) :
    ∃ s', s.blockreadFrom left n ptr =
      .ok ⟨n + left - 1, ptr ++ (s.arrivals.take left).flatMap Arrival.stored, s'⟩ := by
  induction left generalizing s n ptr with
  | zero => exact ⟨s, by simp [Reader.blockreadFrom]⟩
  | succ left ih =>
    obtain ⟨s', htail, hround⟩ := blockreadFrom_succ left n ptr s
    obtain ⟨hstored, herror⟩ := take_succ_arrivals s.arrivals left
    rw [herror, not_or] at hnone
    push_cast at hfits
    obtain ⟨s'', hrest⟩ := ih (s := s') (n := n + 1)
      (ptr ++ (s.arrivals.headD .nothing).stored) (htail ▸ hnone.2) (by omega)
    refine ⟨s'', ?_⟩
    rw [hround, if_neg hnone.1, if_pos (by omega), hrest, hstored, htail, List.append_assoc]
    push_cast
    congr 2
    ring

theorem blockreadFrom_overflows (hnone : .error ∉ s.arrivals.take left) (hpos : 0 < left)
    (hfits : n + left = intMax + 1) : s.blockreadFrom left n ptr = .undefined := by
  induction left generalizing s n ptr with
  | zero => exact absurd hpos (lt_irrefl 0)
  | succ left ih =>
    obtain ⟨s', htail, hround⟩ := blockreadFrom_succ left n ptr s
    have herror := (take_succ_arrivals s.arrivals left).2
    rw [herror, not_or] at hnone
    push_cast at hfits
    rw [hround, if_neg hnone.1]
    split_ifs with hlt
    · exact ih (htail ▸ hnone.2) (by omega) (by omega)
    · rfl

theorem flatMap_map_char (block : Text) :
    (block.map Arrival.char).flatMap Arrival.stored = block := by
  rw [List.flatMap_map]
  exact List.flatMap_singleton' block

/-- As many characters as arrivals: all of these are characters. -/
theorem eq_map_char {arrivals : List Arrival}
    (h : arrivals.length ≤ (arrivals.flatMap Arrival.stored).length) :
    arrivals = (arrivals.flatMap Arrival.stored).map .char := by
  have hle : ∀ arrivals : List Arrival,
      (arrivals.flatMap Arrival.stored).length ≤ arrivals.length := by
    intro arrivals
    induction arrivals with
    | nil => exact le_rfl
    | cons arrival later ih =>
      rw [List.flatMap_cons, List.length_append, List.length_cons]
      cases arrival with
      | char c =>
        rw [Arrival.stored, List.length_singleton]
        omega
      | nothing | error =>
        rw [Arrival.stored, List.length_nil]
        · omega
        · intro c hc
          cases hc
  induction arrivals with
  | nil => rfl
  | cons arrival later ih =>
    rw [List.flatMap_cons, List.length_append, List.length_cons] at h
    have hlater := hle later
    cases arrival with
    | char c =>
      rw [Arrival.stored, List.length_singleton] at h
      rw [List.flatMap_cons, Arrival.stored, List.singleton_append, List.map_cons,
        ← ih (by omega)]
    | nothing | error =>
      simp only [Arrival.stored, List.length_nil] at h
      omega

end Rounds

/-- The size that is returned shows every block that is not complete just if the characters come
without a break, or an error comes instead. -/
theorem blockDetected_iff (size : { size : ℤ // FitsInt size }) (s : Reader) :
    BlockDetected size s ↔ ArrivesWhole size s := by
  obtain ⟨size, hsize⟩ := size
  have hwindow := List.take_append_drop size.toNat s.arrivals
  have hstart : (s.arrivals.take size.toNat).flatMap Arrival.stored <+: s.stream := by
    rw [Reader.stream]
    conv_rhs => rw [← hwindow, List.flatMap_append]
    exact List.prefix_append _ _
  have hmax := hsize.2
  rw [BlockDetected, ArrivesWhole, Reader.blockread]
  by_cases herror : .error ∈ s.arrivals.take size.toNat
  · obtain ⟨block, hrun, hret⟩ :=
      blockreadFrom_error (n := 1) [] herror (by rw [intMax] at *; omega)
    refine iff_of_true ⟨block, hrun, fun heq => ?_⟩ (.inl herror)
    have hnil : size.toNat = 0 := by
      rw [hret] at heq
      simp only at heq
      omega
    rw [hnil] at herror
    cases herror
  · rw [or_iff_right herror]
    simp only
    rcases lt_or_eq_of_le hmax with hlt | heq
    · obtain ⟨s', hrun⟩ := blockreadFrom_returns (n := 1) [] herror
        (by rw [intMax] at *; omega)
      rw [hrun, List.nil_append]
      constructor
      · rintro ⟨block, hblock, hdetected⟩
        obtain rfl := Outcome.ok.inj hblock
        have hlength :
            ((s.arrivals.take size.toNat).flatMap Arrival.stored).length = size.toNat := by
          rcases le_or_gt 0 size with hnonneg | hneg
          · have hcomplete := (hdetected (by simp only; omega)).1
            simp only at hcomplete
            omega
          · rw [Int.toNat_of_nonpos hneg.le, List.take_zero, List.flatMap_nil, List.length_nil]
        refine ⟨hlt, _, hlength, eq_map_char ?_⟩
        rw [hlength]
        exact List.length_take_le _ _
      · rintro ⟨-, block, hlength, hchars⟩
        refine ⟨_, rfl, fun hret => ⟨?_, hstart⟩⟩
        simp only at hret ⊢
        rw [hchars, flatMap_map_char, hlength]
        omega
    · rw [blockreadFrom_overflows (n := 1) herror (by rw [heq, intMax]; decide)
        (by rw [heq, intMax]; decide)]
      refine iff_of_false ?_ fun h => absurd h.1 (heq ▸ lt_irrefl _)
      rintro ⟨block, hblock, -⟩
      cases hblock

/-- The peer sends one character and closes the connection: a block of two is reported. -/
theorem not_blockDetected : ¬ ∀ size s, BlockDetected size s := by
  intro h
  obtain ⟨block, hrun, hdetected⟩ := h ⟨2, by decide⟩ ⟨[], [.data 'a' [] (by decide)]⟩
  obtain rfl := Outcome.ok.inj hrun
  exact absurd (hdetected rfl).1 (by decide)

section OneConnection
variable {fd conn : ℕ} {s : SocketState}

def Receive.toRead : Receive → ReadResult
  | .data [] some_bytes _ => absurd rfl some_bytes
  | .data (c :: cs) _ fits => .data c cs fits
  | .interrupted => .interrupted
  | .failed => .failed

/-- A connection whose characters are the only ones that are held. -/
def SocketState.reader (conn : ℕ) (s : SocketState) : Reader :=
  ⟨s.readBuf.map Prod.fst, (s.incoming conn).map Receive.toRead⟩

def Arrival.toMyRead (conn : ℕ) : Arrival → MyRead
  | .char c => .char (c, conn)
  | .nothing => .eof
  | .error => .error

/-- The result that `readAgain` gives as a text, or as none for an error. -/
def ReadsAs : Option Text → ReadResult → Prop
  | none, result => result = .failed
  | some [], result => result = .nothing
  | some (c :: cs), result => ∃ fits, result = .data c cs fits

theorem nextRead_map (incoming : List Receive) : ∃ result,
    nextRead (incoming.map Receive.toRead) =
        (result, (readAgain incoming).2.map Receive.toRead) ∧
      ReadsAs (readAgain incoming).1 result := by
  induction incoming with
  | nil => exact ⟨.nothing, rfl, rfl⟩
  | cons receive later ih =>
    cases receive with
    | interrupted => exact ih
    | failed => exact ⟨.failed, rfl, rfl⟩
    | data bytes some_bytes fits =>
      cases bytes with
      | nil => exact absurd rfl some_bytes
      | cons c cs => exact ⟨.data c cs fits, rfl, fits, rfl⟩

theorem myRead_reader (h : Own fd conn s) : ∃ s',
    socketMyRead fd s = ((s.reader conn).myRead.1.toMyRead conn, s') ∧ Own fd conn s' ∧
      s'.reader conn = (s.reader conn).myRead.2 := by
  rw [socketMyRead, Reader.myRead, SocketState.reader]
  cases hbuf : s.readBuf with
  | cons byte rest =>
    have hheld : ∀ byte ∈ rest, byte.2 = conn := fun byte hmem =>
      h.held byte (by rw [hbuf]; exact List.mem_cons_of_mem _ hmem)
    have hbyte : byte.2 = conn := h.held byte (by rw [hbuf]; exact List.mem_cons_self)
    exact ⟨{ s with readBuf := rest }, by rw [← hbyte]; rfl, ⟨h.connected, hheld⟩, rfl⟩
  | nil =>
    obtain ⟨result, hnext, hreads⟩ := nextRead_map (s.incoming conn)
    simp only [h.connected, List.map_nil, hnext]
    cases hread : readAgain (s.incoming conn) with
    | mk got later =>
      rw [hread] at hreads
      have hlater : ∀ held : List Byte, (∀ byte ∈ held, byte.2 = conn) →
          Own fd conn { s with incoming := Function.update s.incoming conn later, readBuf := held } ∧
          SocketState.reader conn
            { s with incoming := Function.update s.incoming conn later, readBuf := held } =
              ⟨held.map Prod.fst, later.map Receive.toRead⟩ := by
        intro held hheld
        refine ⟨⟨h.connected, hheld⟩, ?_⟩
        simp only [SocketState.reader, Function.update_self]
      have hnone := hlater [] (List.forall_mem_nil _)
      rcases got with - | (- | ⟨c, cs⟩)
      · obtain rfl := hreads
        exact ⟨_, rfl, hnone.1, hnone.2⟩
      · obtain rfl := hreads
        exact ⟨_, rfl, hnone.1, hnone.2⟩
      · obtain ⟨fits, rfl⟩ := hreads
        have hcs := hlater (cs.map (·, conn)) fun byte hbyte => by
          obtain ⟨c', -, rfl⟩ := List.mem_map.mp hbyte
          rfl
        refine ⟨_, rfl, hcs.1, ?_⟩
        rw [hcs.2, List.map_map]
        congr 1
        exact List.map_id cs

/-- A block is read from a socket as from its connection alone, where nothing is held of
another one. -/
theorem blockreadFrom_reader {left : ℕ} : ∀ {n : ℤ} (ptr : Text) {s : SocketState},
    Own fd conn s → 1 ≤ n → n + left ≤ intMax → ∃ block,
      (s.reader conn).blockreadFrom left n ptr = .ok block ∧
      (blockreadFrom fd left (ptr.map (·, conn)) s).1 =
        (if block.ret = -1 then none else some (block.ptr.map (·, conn))) ∧
      (blockreadFrom fd left (ptr.map (·, conn)) s).2.reader conn = block.reader := by
  induction left with
  | zero =>
    intro n ptr s h hn hfits
    refine ⟨_, rfl, ?_, rfl⟩
    rw [if_neg (by simp only; omega)]
    rfl
  | succ left ih =>
    intro n ptr s h hn hfits
    obtain ⟨s', hread, hown, hreader⟩ := myRead_reader h
    push_cast at hfits
    rw [Reader.blockreadFrom, blockreadFrom, hread]
    cases hmy : (s.reader conn).myRead with
    | mk arrival r =>
      obtain rfl : s'.reader conn = r := by rw [hreader, hmy]
      cases arrival with
      | error => exact ⟨_, rfl, rfl, rfl⟩
      | nothing =>
        simp only [Arrival.toMyRead, if_pos (show n < intMax by omega), Arrival.stored,
          List.append_nil]
        exact ih _ hown (by omega) (by omega)
      | char c =>
        simp only [Arrival.toMyRead, if_pos (show n < intMax by omega), Arrival.stored]
        have hrest := ih (n := n + 1) (ptr ++ [c]) hown (by omega) (by omega)
        rwa [List.map_append] at hrest

/-- One character is held, and the connection is closed after the next one. -/
theorem blockreadFrom_reader_two :
    (blockreadFrom 3 3 [] ⟨fun _ => some 7, fun _ => [.data ['b'] (by simp) (by decide)],
      [('a', 7)], []⟩).1 = some [('a', 7), ('b', 7)] := by
  have hown : Own 3 7 ⟨fun _ => some 7, fun _ => [.data ['b'] (by simp) (by decide)],
      [('a', 7)], []⟩ := ⟨rfl, by simp⟩
  obtain ⟨block, hblock, hread, -⟩ :=
    blockreadFrom_reader [] hown le_rfl (by decide : (1 : ℤ) + (3 : ℕ) ≤ intMax)
  obtain rfl := Outcome.ok.inj hblock
  exact hread

end OneConnection

end ReadexPtf.Sockets
