import Iostreams.Serial.Operators
import Iostreams.Serial.StreamMode

/-!
# Replaying partial input

`readBytesWithBuffer` first takes bytes from the replay buffer, a `Serial` over
a string stream, and then the missing ones from the main stream; what the main
stream delivers is appended to the buffer, so that the next attempt can replay
it.

`Holding buffer content position` describes the buffer between two transfers
and `Supplying main good bytes` the main stream.  The three lemmas at the end
cover a request the buffer satisfies alone, a request that reaches a good main
stream, and a request after the main stream has run dry.
-/

namespace Iostreams

open Foundation

namespace Serial

variable {β : Type}

/-- More input arrives on the stream behind a `Serial`. -/
def arrive [ArrivalSource β] (s : Serial β) (bytes : List UInt8) : Serial β :=
  { s with stream := s.stream.map fun io =>
    { io with rdbuf := ArrivalSource.arrive io.rdbuf bytes } }

/-! ## The replay buffer -/

/-- A replay buffer in the middle of a transfer: its stream may have failed. -/
structure Replaying (s : Serial Stringbuf) (io : IOStream Stringbuf) (content : List UInt8)
    (position : Nat) : Prop where
  mode : s.StreamMode io
  writable : s.writeStreamPointer = true
  content_eq : io.rdbuf.content = content
  position_eq : io.rdbuf.getPos = position
  atEnd : io.rdbuf.putPos = content.length
  noOffset : s.nextReadOffset = 0
  noMismatch : s.lastSizeMismatchFlag = false
  notPushed : s.pushedReadBuffer = false

/-- A replay buffer that stores `content`, of which the first `position` bytes
were replayed. -/
def Holding (s : Serial Stringbuf) (content : List UInt8) (position : Nat) : Prop :=
  ∃ io, Replaying s io content position ∧ io.good = true

theorem Holding.getReadPosition {s : Serial Stringbuf} {content : List UInt8} {position : Nat}
    (hholding : Holding s content position) : s.getReadPosition = ((position : Int), s) := by
  obtain ⟨io, hreplaying, hgood⟩ := hholding
  rw [getReadPosition_stream hreplaying.mode hgood, ← hreplaying.position_eq]
  rfl

/-- A transfer takes bytes from the read position on. -/
theorem Holding.transfer {s : Serial Stringbuf} {content : List UInt8} {position size : Nat}
    (hholding : Holding s content position) (hsize : size < 2 ^ 63) (depth : Nat)
    (dest : List UInt8) :
    let bytes := (content.drop position).take size
    ∃ s' io', readBytes (depth + 1) s dest size =
        .ok ((bytes.length : Int), overwrite dest 0 bytes, s') ∧
      Replaying s' io' content (position + bytes.length) ∧
      (bytes.length = size → io'.good = true) ∧
      (0 < size → bytes.length = size → s'.readEmpty = false ∧ s'.readEof = false) ∧
      (bytes.length = 0 ∨ bytes.length ≠ size → content.length ≤ position + bytes.length →
        s'.readEmpty = true) := by
  obtain ⟨io, hreplaying, hgood⟩ := hholding
  intro bytes
  have hshort : bytes.length ≤ size := by
    rw [List.length_take]
    omega
  have hunread : io.rdbuf.unread = content.drop position := by
    rw [Stringbuf.unread, hreplaying.content_eq, hreplaying.position_eq]
  have hget : Streambuf.sgetn io.rdbuf ((size - 0 : Nat) : Int) =
      (bytes, (io.rdbuf.xsgetn size).2) := by
    simp only [Streambuf.sgetn, Stringbuf.xsgetn, hunread, Nat.sub_zero, Int.toNat_natCast]
    rfl
  have hread := readBytes_good hreplaying.mode hgood hreplaying.noOffset
    (Nat.zero_le size) hsize hget (by omega) depth dest
  rw [toInt64_natCast (by omega), Nat.sub_zero] at hread
  have hrest : (io.rdbuf.xsgetn size).2.unread.length = content.length - (position + size) := by
    rw [Stringbuf.unread_xsgetn, hunread, List.drop_drop, List.length_drop]
  refine ⟨_, io.afterRead (io.rdbuf.xsgetn size).2 bytes size, hread, ?_, ?_, ?_, ?_⟩
  · -- the content stays, and the position moves over what was delivered
    refine ⟨hreplaying.mode.received _ _ _ _, hreplaying.writable, ?_, ?_, ?_, rfl,
      hreplaying.noMismatch, hreplaying.notPushed⟩
    · rw [IOStream.rdbuf_afterRead, ← hreplaying.content_eq]
      rfl
    · rw [IOStream.rdbuf_afterRead, ← hreplaying.position_eq]
      simp only [Stringbuf.xsgetn, hunread]
      rfl
    · rw [IOStream.rdbuf_afterRead, ← hreplaying.atEnd]
      rfl
  · intro hfull
    rw [IOStream.good_afterRead hgood, hfull]
    simp
  · intro hpos hfull
    exact flags_received_full s _ _ _ _ hfull (by omega)
  · intro hnone hend
    apply readEmpty_received s _ _ _ _ hnone
    rw [IOStream.rdbuf_afterRead]
    show ((io.rdbuf.xsgetn size).2.unread.length : Int) = 0
    rw [hrest]
    omega

theorem Replaying.clearRead {s : Serial Stringbuf} {io : IOStream Stringbuf}
    {content : List UInt8} {position : Nat} (hreplaying : Replaying s io content position) :
    Replaying s.clearRead io.clear content position := by
  have hmode := hreplaying.mode.clearRead
  rw [clearRead_stream hreplaying.mode] at hmode ⊢
  exact ⟨hmode, hreplaying.writable, hreplaying.content_eq, hreplaying.position_eq,
    hreplaying.atEnd, hreplaying.noOffset, rfl, hreplaying.notPushed⟩

@[simp] theorem readEmpty_clearRead (s : Serial β) : s.clearRead.readEmpty = s.readEmpty := by
  unfold clearRead
  split <;> rfl

/-- Writing appends to the stored content. -/
theorem Replaying.putBytes {s : Serial Stringbuf} {io : IOStream Stringbuf}
    {content : List UInt8} {position : Nat} (hreplaying : Replaying s io content position)
    (hgood : io.good = true) (bytes : List UInt8) (depth : Nat) :
    ∃ io', putBytes (depth + 1) bytes s = .ok (s.setStream io') ∧ io'.good = true ∧
      Replaying (s.setStream io') io' (content ++ bytes) position := by
  have hwrite := IOStream.write_stringbuf hgood bytes
  refine ⟨io.write bytes, ?_, ?_, hreplaying.mode.setStream _, hreplaying.writable, ?_, ?_, ?_,
    hreplaying.noOffset, hreplaying.noMismatch, hreplaying.notPushed⟩
  · rw [Serial.putBytes, writeBytes_stream hreplaying.mode hreplaying.writable, ok_bind]
  · rw [hwrite]
    exact hgood
  · have hput := hreplaying.atEnd
    rw [← hreplaying.content_eq] at hput ⊢
    rw [hwrite]
    exact Stringbuf.content_xsputn hput bytes
  · rw [hwrite, ← hreplaying.position_eq]
    rfl
  · rw [hwrite, List.length_append, ← hreplaying.atEnd]
    rfl

theorem Replaying.setReadPosition {s : Serial Stringbuf} {io : IOStream Stringbuf}
    {content : List UInt8} {position : Nat} (hreplaying : Replaying s io content position)
    (hgood : io.good = true) {index : Nat} (hindex : index ≤ content.length)
    (hsize : index < 2 ^ 63) : Holding (s.setReadPosition index) content index := by
  obtain ⟨hgood', hseek⟩ := IOStream.seekg_stringbuf hgood
    (show index ≤ io.rdbuf.content.length by rw [hreplaying.content_eq]; exact hindex)
  rw [setReadPosition_stream hreplaying.mode, toInt64_natCast hsize]
  exact ⟨_, ⟨hreplaying.mode.setStream _, hreplaying.writable, by rw [hseek]; exact
    hreplaying.content_eq, by rw [hseek], by rw [hseek]; exact hreplaying.atEnd,
    hreplaying.noOffset, hreplaying.noMismatch, hreplaying.notPushed⟩, hgood'⟩

/-- After an exhausted replay the new bytes are appended, and the read position
is behind them. -/
theorem Replaying.keepReplay {s : Serial Stringbuf} {io : IOStream Stringbuf}
    {content : List UInt8} (hreplaying : Replaying s io content content.length)
    (popped : List UInt8) (hsize : content.length + popped.length < 2 ^ 63) (depth : Nat) :
    ∃ s', keepReplay (depth + 1) s popped
        (toSizeT ((content.length : Int) + popped.length)) = .ok s' ∧
      Holding s' (content ++ popped) (content ++ popped).length ∧
      s'.readEmpty = s.readEmpty := by
  have hindex : toSizeT ((content.length : Int) + popped.length) = (content ++ popped).length := by
    rw [← Int.natCast_add, toSizeT_natCast (by omega), List.length_append]
  have hlength : (content ++ popped).length < 2 ^ 63 := by
    rw [List.length_append]
    omega
  rw [Serial.keepReplay, hindex]
  by_cases hnone : popped = []
  · -- nothing was popped, and only the position is set
    subst hnone
    refine ⟨s.clearRead.setReadPosition (content ++ []).length, by simp, ?_, ?_⟩
    · rw [List.append_nil] at hlength ⊢
      exact hreplaying.clearRead.setReadPosition (IOStream.good_clear io) (Nat.le_refl _) hlength
    · rw [setReadPosition_stream hreplaying.clearRead.mode]
      exact readEmpty_clearRead s
  · obtain ⟨io', hput, hgood', hreplaying'⟩ :=
      hreplaying.clearRead.putBytes (IOStream.good_clear io) popped depth
    refine ⟨_, by simp only [ne_eq, hnone, not_false_eq_true, if_true, hput, ok_bind]; rfl, ?_, ?_⟩
    · exact hreplaying'.setReadPosition hgood' (Nat.le_refl _) hlength
    · rw [setReadPosition_stream hreplaying'.mode]
      exact readEmpty_clearRead s

/-! ## The main stream -/

/-- A main stream between two transfers, with `bytes` left to read. -/
def Supplying [CharSource β] (s : Serial β) (good : Bool) (bytes : List UInt8) : Prop :=
  ∃ io, s.StreamMode io ∧ io.good = good ∧ CharSource.pending io.rdbuf = bytes ∧
    s.nextReadOffset = 0 ∧ s.lastSizeMismatchFlag = false

theorem Supplying.arrive [ArrivalSource β] {s : Serial β} {good : Bool} {bytes : List UInt8}
    (hsupplying : Supplying s good bytes) (more : List UInt8) :
    Supplying (s.arrive more) good (bytes ++ more) := by
  obtain ⟨io, hmode, hgood, hpending, hoffset, hmismatch⟩ := hsupplying
  have harrive : s.arrive more =
      s.setStream { io with rdbuf := ArrivalSource.arrive io.rdbuf more } := by
    rw [Serial.arrive, hmode.stream]
    rfl
  rw [harrive]
  exact ⟨_, hmode.setStream _, hgood, by rw [ArrivalSource.pending_arrive, hpending], hoffset,
    hmismatch⟩

theorem Supplying.clearRead [CharSource β] {s : Serial β} {good : Bool} {bytes : List UInt8}
    (hsupplying : Supplying s good bytes) : Supplying s.clearRead true bytes := by
  obtain ⟨io, hmode, _, hpending, hoffset, _⟩ := hsupplying
  have hcleared := hmode.clearRead
  rw [clearRead_stream hmode] at hcleared ⊢
  exact ⟨io.clear, hcleared, rfl, hpending, hoffset, rfl⟩

/-- A request that was prepared to start behind `offset` replayed bytes. -/
structure Prepared [CharSource β] (s : Serial β) (io : IOStream β) (offset : Nat) : Prop where
  mode : s.StreamMode io
  offset_eq : s.nextReadOffset = offset
  noMismatch : s.lastSizeMismatchFlag = false
  pushed : s.pushedReadBuffer = true
  empty : s.currentReadBuffer = []

theorem prepared_startAfter [CharSource β] {s : Serial β} {io : IOStream β}
    (hmode : s.StreamMode io) (hoffset : s.nextReadOffset = 0)
    (hmismatch : s.lastSizeMismatchFlag = false) {offset : Nat}
    (hgood : io.good = true ∨ offset = 0) :
    Prepared (s.startAfter offset).pushByteReadBuffer io offset := by
  by_cases hzero : offset = 0
  · subst hzero
    have hsame : s.startAfter (0 : Nat) = s := if_neg (by simp)
    obtain ⟨hcount, hbuffer, hpassthrough, hplain, hconnected, hstream⟩ := hmode
    rw [hsame]
    exact ⟨⟨hcount, hbuffer, hpassthrough, hplain, hconnected, hstream⟩, hoffset, hmismatch, rfl,
      rfl⟩
  · have hstart : s.startAfter offset = { s with
        nextReadOffset := offset
        startReadOffsetPosition := Streambuf.tellIn io.rdbuf } := by
      rw [startAfter, if_pos (by omega),
        getReadPosition_stream hmode (hgood.resolve_right hzero)]
    obtain ⟨hcount, hbuffer, hpassthrough, hplain, hconnected, hstream⟩ := hmode
    rw [hstart]
    exact ⟨⟨hcount, hbuffer, hpassthrough, hplain, hconnected, hstream⟩, rfl, hmismatch, rfl, rfl⟩

/-- What a transfer from the main stream leaves behind for `readBytesWithBuffer`. -/
structure Transferred [CharSource β] (s : Serial β) (good : Bool) (taken rest : List UInt8) :
    Prop where
  peek : s.peekByteReadBuffer = .ok taken
  supplying : Supplying s.popByteReadBuffer good rest

theorem transferred_received [CharSource β] {s : Serial β} {io : IOStream β} {offset : Nat}
    (hprepared : Prepared s io offset) (io' : IOStream β) (taken : List UInt8)
    (bytesRead readingBytes : Nat) :
    Transferred (s.received io' taken bytesRead readingBytes) io'.good taken
      (CharSource.pending io'.rdbuf) := by
  have hpushed : (s.received io' taken bytesRead readingBytes).pushedReadBuffer = true :=
    hprepared.pushed
  have hmode := hprepared.mode.received taken bytesRead readingBytes io'
  constructor
  · rw [peekByteReadBuffer, if_pos hpushed, currentReadBuffer_received _ _ _ _ _ hprepared.pushed,
      hprepared.empty, List.nil_append]
  · rw [popByteReadBuffer, if_pos hpushed]
    obtain ⟨hcount, hbuffer, hpassthrough, hplain, hconnected, hstream⟩ := hmode
    exact ⟨io', ⟨hcount, hbuffer, hpassthrough, hplain, hconnected, hstream⟩, rfl, rfl, rfl,
      hprepared.noMismatch⟩

@[simp] theorem readEmpty_popByteReadBuffer (s : Serial β) :
    s.popByteReadBuffer.readEmpty = s.readEmpty := by
  unfold popByteReadBuffer
  split <;> rfl

@[simp] theorem readEof_popByteReadBuffer (s : Serial β) :
    s.popByteReadBuffer.readEof = s.readEof := by
  unfold popByteReadBuffer
  split <;> rfl

/-- A good main stream delivers what has arrived, behind the replayed part. -/
theorem Prepared.transfer [ArrivalSource β] {s : Serial β} {io : IOStream β} {offset : Nat}
    (hprepared : Prepared s io offset) (hgood : io.good = true) {size : Nat}
    (hle : offset ≤ size) (hsize : size < 2 ^ 63) (depth : Nat) (dest : List UInt8) :
    let bytes := CharSource.pending io.rdbuf
    let taken := bytes.take (size - offset)
    ∃ s', readBytes (depth + 1) s dest size =
        .ok ((taken.length : Int), overwrite dest offset taken, s') ∧
      Transferred s' (decide (taken.length = size - offset)) taken (bytes.drop (size - offset)) ∧
      (taken.length = size - offset → 0 < taken.length ∨ bytes ≠ [] →
        s'.readEmpty = false ∧ s'.readEof = false) ∧
      (taken.length ≠ size - offset ∨ bytes = [] → s'.readEmpty = true) := by
  intro bytes taken
  have hget : Streambuf.sgetn io.rdbuf ((size - offset : Nat) : Int) =
      (taken, (Streambuf.sgetn io.rdbuf ((size - offset : Nat) : Int)).2) :=
    Prod.ext (ArrivalSource.get_arrived io.rdbuf (size - offset)) rfl
  have htaken : taken.length ≤ size - offset := by
    rw [List.length_take]
    omega
  have hread := readBytes_good hprepared.mode hgood hprepared.offset_eq hle hsize hget
    (by omega) depth dest
  rw [toInt64_natCast (by omega)] at hread
  have hrest : CharSource.pending (Streambuf.sgetn io.rdbuf ((size - offset : Nat) : Int)).2 =
      bytes.drop (size - offset) := ArrivalSource.pending_arrived io.rdbuf (size - offset)
  -- the state after the call is the one `received` builds; what is left is its flags
  have htransferred := transferred_received hprepared (io.afterRead
    (Streambuf.sgetn io.rdbuf ((size - offset : Nat) : Int)).2 taken (size - offset : Nat))
    taken taken.length (size - offset)
  rw [IOStream.good_afterRead hgood, IOStream.rdbuf_afterRead, hrest] at htransferred
  refine ⟨_, hread, ?_, ?_, ?_⟩
  · simpa only [Int.natCast_inj] using htransferred
  · intro hfull hsome
    apply flags_received_full _ _ _ _ _ hfull
    by_cases hpos : 0 < taken.length
    · exact Or.inl hpos
    · right
      rw [IOStream.rdbuf_afterRead, ArrivalSource.avail, hrest, List.length_drop]
      have hbytes := List.length_pos_iff.mpr (hsome.resolve_left hpos)
      omega
  · intro hnone
    -- either nothing was taken, or less than was asked for: `readEmpty` is set in both
    have hleft : taken.length = 0 ∨ taken.length ≠ size - offset := by
      rcases hnone with hshort | hempty
      · exact Or.inr hshort
      · left
        simp [taken, hempty]
    apply readEmpty_received _ _ _ _ _ hleft
    rw [IOStream.rdbuf_afterRead, ArrivalSource.avail, hrest, List.length_drop]
    have hlength : taken.length = min (size - offset) bytes.length := List.length_take
    rcases hnone with hshort | hempty
    · omega
    · rw [hempty]
      simp

/-- A main stream that ran dry delivers nothing. -/
theorem Prepared.transfer_dry [ArrivalSource β] {s : Serial β} {io : IOStream β}
    {offset : Nat} (hprepared : Prepared s io offset) (hgood : io.good = false)
    (hdry : CharSource.pending io.rdbuf = []) (depth : Nat) (dest : List UInt8) (size : Nat) :
    ∃ s', readBytes (depth + 1) s dest size = .ok (0, dest, s') ∧
      Transferred s' false [] [] ∧ s'.readEmpty = true := by
  have htransferred := transferred_received hprepared
    { io with gcount := 0, failbit := true } [] 0
    (toSizeT (size - s.nextReadOffset))
  have hbad : IOStream.good { io with gcount := 0, failbit := true } = false := by
    simp [IOStream.good]
  rw [hbad, hdry] at htransferred
  refine ⟨_, readBytes_not_good hprepared.mode hgood depth dest size, htransferred, ?_⟩
  apply readEmpty_received _ _ _ _ _ (Or.inl rfl)
  rw [ArrivalSource.avail, hdry]
  rfl

/-! ## A request through both -/

section Requests

variable {main : Serial β} {buffer : Serial Stringbuf} {content : List UInt8}
  {position size : Nat}

/-- What the replay buffer delivers decides how a request goes on. -/
theorem readBytesWithBuffer_eq [Streambuf β] {beginPos count : Int} {dest dest' : List UInt8}
    {buffer' : Serial Stringbuf} {depth : Nat}
    (hposition : buffer.getReadPosition = (beginPos, buffer))
    (hread : readBytes depth buffer dest size = .ok (count, dest', buffer')) :
    readBytesWithBuffer depth main buffer dest size =
      readBytesAfterReplay depth main buffer' dest' size beginPos
        (toInt64 (toInt64 (beginPos + count) - beginPos)) := by
  simp only [readBytesWithBuffer, hposition, hread, ok_bind]

theorem replayedCount_eq {count : Nat} (hsize : position + count < 2 ^ 63) :
    toInt64 (toInt64 ((position : Int) + count) - position) = count := by
  have hend : toInt64 ((position : Int) + count) = (position : Int) + count :=
    toInt64_of_bounds (by omega) (by omega)
  have hcount : (position : Int) + count - position = count := by omega
  rw [hend, hcount]
  exact toInt64_natCast (by omega)

/-- The buffer alone satisfies the request. -/
theorem readBytesWithBuffer_replayed [Streambuf β] (main : Serial β)
    (hholding : Holding buffer content position)
    (hpos : 0 < size) (hfits : position + size ≤ content.length)
    (hcontent : content.length < 2 ^ 63) (depth : Nat) {dest : List UInt8}
    (hdest : dest.length = size) :
    ∃ buffer', readBytesWithBuffer (depth + 1) main buffer dest size =
        .ok ((size : Int), (content.drop position).take size,
          { main with sizeMismatchFlag := false }, buffer') ∧
      Holding buffer' content (position + size) := by
  obtain ⟨buffer', io', hread, hreplaying, hgood, _, _⟩ :=
    hholding.transfer (show size < 2 ^ 63 by omega) depth dest
  have hlength : ((content.drop position).take size).length = size := by
    rw [List.length_take, List.length_drop]
    omega
  rw [hlength] at hread hreplaying hgood
  have hwhole : (size : Int) ≠ 0 ∧ toSizeT (size : Int) = size :=
    ⟨by omega, toSizeT_natCast (by omega)⟩
  refine ⟨buffer', ?_, io', hreplaying, hgood rfl⟩
  rw [readBytesWithBuffer_eq hholding.getReadPosition hread,
      replayedCount_eq (by omega), readBytesAfterReplay, if_pos hwhole,
    overwrite_all (hlength.trans hdest.symm)]

/-- The buffer is exhausted and the main stream delivers the rest, or the part
of it that has arrived. -/
theorem readBytesWithBuffer_continued [ArrivalSource β] {bytes : List UInt8}
    (hholding : Holding buffer content position) (hsupplying : Supplying main true bytes)
    (hposition : position ≤ content.length) (hmore : content.length < position + size ∨ size = 0)
    (hle : content.length ≤ position + size) (hsize : position + size < 2 ^ 63) (depth : Nat)
    {dest : List UInt8} (hdest : dest.length = size) :
    let missing := position + size - content.length
    let taken := bytes.take missing
    ∃ ret dest' main' buffer', readBytesWithBuffer (depth + 1) main buffer dest size =
        .ok (ret, dest', main', buffer') ∧
      dest' = overwrite dest 0 (content.drop position ++ taken) ∧
      Supplying main' (decide (taken.length = missing)) (bytes.drop missing) ∧
      Holding buffer' (content ++ taken) (content ++ taken).length ∧
      buffer'.readEmpty = true ∧
      (taken.length = missing → 0 < taken.length ∨ bytes ≠ [] →
        main'.readEmpty = false ∧ main'.readEof = false) ∧
      (taken.length ≠ missing ∨ bytes = [] → main'.readEmpty = true) := by
  intro missing taken
  have hsizeLt : size < 2 ^ 63 := by omega
  have hreplayedLe : content.length - position ≤ size := by omega
  have hreplayedLt : content.length - position < 2 ^ 64 := by omega
  have hreplayedEnd : position + (content.length - position) = content.length := by omega
  have hindex : (position : Int) + (content.length - position : Nat) = content.length := by omega
  have hmissing : size - (content.length - position) = missing := by omega
  have htaken : taken.length ≤ missing := by
    rw [List.length_take]
    omega
  have hkept : content.length + taken.length < 2 ^ 63 := by omega
  -- the replayed part is not all that was asked for, so the main stream is read as well
  have hpartial : ¬(((content.length - position : Nat) : Int) ≠ 0 ∧
      toSizeT ((content.length - position : Nat) : Int) = size) := by
    rw [toSizeT_natCast hreplayedLt]
    omega
  have hshorter : content.length - position = 0 ∨ content.length - position ≠ size := by omega
  obtain ⟨buffer₁, io₁, hread, hreplaying, _, _, hempty⟩ := hholding.transfer hsizeLt depth dest
  have hreplay : (content.drop position).take size = content.drop position := by
    apply List.take_of_length_le
    rw [List.length_drop]
    omega
  have hlength : (content.drop position).length = content.length - position := List.length_drop
  have hroom : content.length - position + taken.length ≤ dest.length := by
    rw [hdest]
    omega
  rw [hreplay, hlength] at hread hreplaying hempty
  rw [hreplayedEnd] at hreplaying hempty
  obtain ⟨io, hmode, hgood, hpending, hoffset, hmismatch⟩ := hsupplying
  have hprepared : Prepared (main.startAfter (content.length - position : Nat)).pushByteReadBuffer
      io (content.length - position) :=
    prepared_startAfter hmode hoffset hmismatch (Or.inl hgood)
  obtain ⟨main₁, hmain, ⟨hpeek, hsupplied⟩, hfull, hshort⟩ :=
    hprepared.transfer hgood hreplayedLe hsizeLt depth (overwrite dest 0 (content.drop position))
  rw [hpending, hmissing] at hmain hpeek hsupplied hfull hshort
  -- what the main stream delivered is kept behind the replayed content
  obtain ⟨buffer', hkeep, hholding', hreadEmpty⟩ := hreplaying.keepReplay taken hkept depth
  refine ⟨toInt64 ((content.length - position : Nat) + taken.length),
    overwrite (overwrite dest 0 (content.drop position)) (content.length - position) taken,
    main₁.popByteReadBuffer, buffer', ?_, ?_, hsupplied, hholding', ?_, ?_, ?_⟩
  · rw [readBytesWithBuffer_eq hholding.getReadPosition hread,
      replayedCount_eq (by omega), readBytesAfterReplay, if_neg hpartial]
    simp only [hmain, ok_bind, hpeek, hindex]
    rw [hkeep]
    rfl
  · exact overwrite_parts hlength hroom
  · rw [hreadEmpty]
    exact hempty hshorter (Nat.le_refl _)
  · intro hwhole hsome
    rw [readEmpty_popByteReadBuffer, readEof_popByteReadBuffer]
    exact hfull hwhole hsome
  · intro hnone
    rw [readEmpty_popByteReadBuffer]
    exact hshort hnone

/-- Both are exhausted, and the main stream has failed already. -/
theorem readBytesWithBuffer_dry [ArrivalSource β] (hholding : Holding buffer content content.length)
    (hsupplying : Supplying main false []) (hcontent : content.length < 2 ^ 63)
    (hsize : size < 2 ^ 63) (depth : Nat) (dest : List UInt8) :
    ∃ ret dest' main' buffer', readBytesWithBuffer (depth + 1) main buffer dest size =
        .ok (ret, dest', main', buffer') ∧
      Supplying main' false [] ∧ Holding buffer' content content.length ∧
      buffer'.readEmpty = true ∧ main'.readEmpty = true := by
  obtain ⟨buffer₁, io₁, hread, hreplaying, _, _, hempty⟩ := hholding.transfer hsize depth dest
  rw [List.drop_length, List.take_nil, List.length_nil] at hread hreplaying hempty
  rw [overwrite_nil] at hread
  rw [Nat.add_zero] at hreplaying hempty
  have hpartial : ¬(((0 : Nat) : Int) ≠ 0 ∧ toSizeT ((0 : Nat) : Int) = size) := by omega
  obtain ⟨io, hmode, hgood, hpending, hoffset, hmismatch⟩ := hsupplying
  have hprepared := prepared_startAfter hmode hoffset hmismatch (Or.inr rfl)
  obtain ⟨main₁, hmain, ⟨hpeek, hsupplied⟩, hmainEmpty⟩ :=
    hprepared.transfer_dry hgood hpending depth dest size
  obtain ⟨buffer', hkeep, hholding', hreadEmpty⟩ := hreplaying.keepReplay [] (by simpa) depth
  have hindex : (content.length : Int) + (0 : Nat) = content.length := by omega
  rw [List.append_nil] at hholding'
  refine ⟨toInt64 ((0 : Nat) + 0), dest, main₁.popByteReadBuffer, buffer', ?_, hsupplied,
    hholding', ?_, ?_⟩
  · rw [readBytesWithBuffer_eq hholding.getReadPosition hread,
      replayedCount_eq (by omega), readBytesAfterReplay, if_neg hpartial]
    simp only [hmain, ok_bind, hpeek, hindex]
    rw [hkeep]
    rfl
  · rw [hreadEmpty]
    exact hempty (Or.inl rfl) (Nat.le_refl _)
  · rw [readEmpty_popByteReadBuffer]
    exact hmainEmpty

end Requests

end Serial
end Iostreams
