import Iostreams.Serial.Replay

/-!
# Replay and live data in one read

`readBytesWithBuffer` takes what the replay buffer has and the rest from the main stream.  The
result starts with the bytes of the buffer, the bytes of the main stream follow at the offset that
the buffer left, and the same bytes are appended to the buffer, whose read position moves over all
of them.  This holds for every split of the request, the empty ones included.
-/

namespace Iostreams

open Foundation

namespace Serial

variable {β : Type}

/-- A `Serial` over a good stream, with no offset left for it. -/
structure Ready (s : Serial β) (io : IOStream β) : Prop where
  mode : s.StreamMode io
  good : io.good = true
  noOffset : s.nextReadOffset = 0

/-- A replay buffer: a string that is written at its end. -/
structure Replayable (s : Serial Stringbuf) (io : IOStream Stringbuf) : Prop extends
    Ready s io where
  writable : s.writeStreamPointer = true
  atEnd : io.rdbuf.putPos = io.rdbuf.content.length

/-- The replay buffer after its part of the read; its stream may have failed. -/
structure Replayed (s : Serial Stringbuf) (io : IOStream Stringbuf) (content : List UInt8)
    (position : Nat) : Prop where
  mode : s.StreamMode io
  noOffset : s.nextReadOffset = 0
  writable : s.writeStreamPointer = true
  content_eq : io.rdbuf.content = content
  position_eq : io.rdbuf.getPos = position
  atEnd : io.rdbuf.putPos = io.rdbuf.content.length

/-! ## The replay buffer -/

theorem Replayable.readBytes {s : Serial Stringbuf} {io : IOStream Stringbuf}
    (hreplayable : Replayable s io) {size : Nat} (hsize : size < 2 ^ 63) (depth : Nat)
    (dest : List UInt8) :
    ∃ s' io', readBytes (depth + 1) s dest size =
        .ok (((io.rdbuf.unread.take size).length : Int),
          overwrite dest 0 (io.rdbuf.unread.take size), s') ∧
      Replayed s' io' io.rdbuf.content
        (io.rdbuf.getPos + (io.rdbuf.unread.take size).length) ∧
      ((io.rdbuf.unread.take size).length = size → io'.good = true) := by
  have hlength : (io.rdbuf.unread.take size).length ≤ size := List.length_take_le _ _
  have hoffset : s.nextReadOffset = (0 : Nat) := hreplayable.noOffset
  have hget : Streambuf.sgetn io.rdbuf ((size - 0 : Nat) : Int) =
      (io.rdbuf.unread.take size, (io.rdbuf.xsgetn size).2) := rfl
  have hread := readBytes_good hreplayable.mode hreplayable.good hoffset (Nat.zero_le size) hsize
    hget (by omega) depth dest
  rw [toInt64_natCast (by omega), Nat.sub_zero] at hread
  refine ⟨_, io.afterRead (io.rdbuf.xsgetn size).2 (io.rdbuf.unread.take size) size, hread, ?_,
    fun hfull => ?_⟩
  · refine ⟨hreplayable.mode.received _ _ _ _, rfl, hreplayable.writable, ?_, ?_, ?_⟩
    · rw [IOStream.rdbuf_afterRead]
      rfl
    · rw [IOStream.rdbuf_afterRead]
      rfl
    · rw [IOStream.rdbuf_afterRead]
      exact hreplayable.atEnd
  · rw [IOStream.good_afterRead hreplayable.good, hfull]
    simp

theorem Replayed.clearRead {s : Serial Stringbuf} {io : IOStream Stringbuf}
    {content : List UInt8} {position : Nat} (hreplayed : Replayed s io content position) :
    Replayed s.clearRead io.clear content position := by
  have hmode := hreplayed.mode.clearRead
  rw [clearRead_stream hreplayed.mode] at hmode ⊢
  exact ⟨hmode, hreplayed.noOffset, hreplayed.writable, hreplayed.content_eq,
    hreplayed.position_eq, hreplayed.atEnd⟩

theorem Replayed.putBytes {s : Serial Stringbuf} {io : IOStream Stringbuf}
    {content : List UInt8} {position : Nat} (hreplayed : Replayed s io content position)
    (hgood : io.good = true) (bytes : List UInt8) (depth : Nat) :
    putBytes (depth + 1) bytes s = .ok (s.setStream (io.write bytes)) ∧
      Replayed (s.setStream (io.write bytes)) (io.write bytes) (content ++ bytes) position ∧
      (io.write bytes).good = true := by
  have happend := Stringbuf.content_xsputn hreplayed.atEnd bytes
  refine ⟨?_, ?_, ?_⟩
  · rw [Serial.putBytes, writeBytes_stream hreplayed.mode hreplayed.writable, ok_bind]
  · rw [IOStream.write_stringbuf hgood]
    refine ⟨hreplayed.mode.setStream _, hreplayed.noOffset, hreplayed.writable, ?_,
      hreplayed.position_eq, ?_⟩
    · rw [← hreplayed.content_eq]
      exact happend
    · show io.rdbuf.putPos + bytes.length = (io.rdbuf.xsputn bytes).2.content.length
      rw [happend, List.length_append, hreplayed.atEnd]
  · rw [IOStream.write_stringbuf hgood]
    exact hgood

theorem Replayed.setReadPosition {s : Serial Stringbuf} {io : IOStream Stringbuf}
    {content : List UInt8} {position : Nat} (hreplayed : Replayed s io content position)
    (hgood : io.good = true) {index : Nat} (hindex : index ≤ content.length)
    (hsize : index < 2 ^ 63) :
    Replayed (s.setReadPosition index) (io.seekg index) content index ∧
      (io.seekg index).good = true := by
  rw [← hreplayed.content_eq] at hindex
  obtain ⟨hgood', hseek⟩ := IOStream.seekg_stringbuf hgood hindex
  rw [setReadPosition_stream hreplayed.mode, toInt64_natCast hsize]
  refine ⟨⟨hreplayed.mode.setStream _, hreplayed.noOffset, hreplayed.writable, ?_, ?_, ?_⟩, hgood'⟩
  · rw [hseek]
    exact hreplayed.content_eq
  · rw [hseek]
  · rw [hseek]
    exact hreplayed.atEnd

/-- What the main stream delivered is appended, and the position set. -/
theorem Replayed.keepReplay {s : Serial Stringbuf} {io : IOStream Stringbuf}
    {content : List UInt8} {position : Nat} (hreplayed : Replayed s io content position)
    (taken : List UInt8) {index : Nat} (hindex : index ≤ (content ++ taken).length)
    (hsize : index < 2 ^ 63) (depth : Nat) :
    ∃ s' io', keepReplay (depth + 1) s taken index = .ok s' ∧
      Replayed s' io' (content ++ taken) index ∧ io'.good = true := by
  have hcleared := hreplayed.clearRead
  have hclear := IOStream.good_clear io
  rw [Serial.keepReplay]
  by_cases hnone : taken = []
  · subst hnone
    rw [List.append_nil] at hindex ⊢
    obtain ⟨hseeked, hgood⟩ := hcleared.setReadPosition hclear hindex hsize
    exact ⟨_, _, by simp, hseeked, hgood⟩
  · obtain ⟨hput, happended, hgood⟩ := hcleared.putBytes hclear taken depth
    obtain ⟨hseeked, hgood'⟩ := happended.setReadPosition hgood hindex hsize
    refine ⟨_, _, ?_, hseeked, hgood'⟩
    simp only [ne_eq, hnone, not_false_eq_true, if_true, hput, ok_bind]

/-! ## The main stream -/

/-- The main stream with its temporary push buffer, behind `offset` bytes of the destination. -/
structure Continuing (s : Serial β) (io : IOStream β) (offset : Nat) : Prop where
  mode : s.StreamMode io
  offset_eq : s.nextReadOffset = offset
  pushed : s.pushedReadBuffer = true
  empty : s.currentReadBuffer = []

/-- Nothing is left of the request: no offset, and no push buffer. -/
structure PushIdle (s : Serial β) : Prop where
  noOffset : s.nextReadOffset = 0
  notPushed : s.pushedReadBuffer = false
  empty : s.currentReadBuffer = []

section Main

variable [ArrivalSource β]

theorem Ready.startAfter {s : Serial β} {io : IOStream β} (hready : s.Ready io) (offset : Nat) :
    Continuing (s.startAfter offset).pushByteReadBuffer io offset := by
  obtain ⟨hcount, hbuffer, hpassthrough, hplain, hconnected, hstream⟩ := hready.mode
  unfold Serial.startAfter
  by_cases hzero : offset = 0
  · rw [if_neg (by omega)]
    exact ⟨⟨hcount, hbuffer, hpassthrough, hplain, hconnected, hstream⟩,
      by rw [hzero]; exact hready.noOffset, rfl, rfl⟩
  · rw [if_pos (by omega), getReadPosition_stream hready.mode hready.good]
    exact ⟨⟨hcount, hbuffer, hpassthrough, hplain, hconnected, hstream⟩, rfl, rfl, rfl⟩

/-- The rest of the request: the bytes are in the push buffer, which is given up afterwards. -/
theorem Continuing.readBytes {s : Serial β} {io : IOStream β} {offset size : Nat}
    (hcontinuing : Continuing s io offset) (hgood : io.good = true) (hle : offset ≤ size)
    (hsize : size < 2 ^ 63) (depth : Nat) (dest : List UInt8) :
    let taken := (CharSource.pending io.rdbuf).take (size - offset)
    ∃ s' io', readBytes (depth + 1) s dest size =
        .ok ((taken.length : Int), overwrite dest offset taken, s') ∧
      s'.peekByteReadBuffer = .ok taken ∧ s'.popByteReadBuffer.PushIdle ∧
      s'.popByteReadBuffer.stream = some io' ∧
      CharSource.pending io'.rdbuf = (CharSource.pending io.rdbuf).drop taken.length := by
  intro taken
  have hlength : taken.length ≤ size - offset := List.length_take_le _ _
  have hget : Streambuf.sgetn io.rdbuf ((size - offset : Nat) : Int) =
      (taken, (Streambuf.sgetn io.rdbuf ((size - offset : Nat) : Int)).2) :=
    Prod.ext (ArrivalSource.get_arrived _ _) rfl
  have hread := readBytes_good hcontinuing.mode hgood hcontinuing.offset_eq hle hsize hget
    (by omega) depth dest
  rw [toInt64_natCast (by omega)] at hread
  let io' := io.afterRead (Streambuf.sgetn io.rdbuf ((size - offset : Nat) : Int)).2 taken
    ((size - offset : Nat) : Int)
  have hpushed : (s.received io' taken taken.length (size - offset)).pushedReadBuffer = true :=
    hcontinuing.pushed
  refine ⟨_, io', hread, ?_, ?_, ?_, ?_⟩
  · rw [peekByteReadBuffer, if_pos hpushed, currentReadBuffer_received _ _ _ _ _ hcontinuing.pushed,
      hcontinuing.empty, List.nil_append]
  · rw [popByteReadBuffer, if_pos hpushed]
    exact ⟨rfl, rfl, rfl⟩
  · rw [popByteReadBuffer, if_pos hpushed]
    rfl
  · rw [IOStream.rdbuf_afterRead, ArrivalSource.pending_arrived, List.drop_eq_drop_iff,
      List.length_take]
    omega

end Main

/-! ## A request through both -/

/-- What the replay buffer did not have is read from the main stream and appended to the buffer. -/
theorem Replayed.readBytesAfterReplay [ArrivalSource β] {main : Serial β} {mainIo : IOStream β}
    (hmain : main.Ready mainIo) {buffer : Serial Stringbuf} {io : IOStream Stringbuf}
    {content : List UInt8} {position k size : Nat}
    (hreplayed : Replayed buffer io content (position + k))
    (hposition : position + k ≤ content.length) (hle : k ≤ size) (hsize : size < 2 ^ 63)
    (hunserved : ¬((k : Int) ≠ 0 ∧ toSizeT (k : Int) = size)) {taken : List UInt8}
    (htaken : (CharSource.pending mainIo.rdbuf).take (size - k) = taken)
    (hroom : content.length + taken.length < 2 ^ 63) (depth : Nat) (dest : List UInt8) :
    ∃ main' mainIo' buffer' bufferIo',
      readBytesAfterReplay (depth + 1) main buffer dest size position k =
        .ok (((k + taken.length : Nat) : Int), overwrite dest k taken, main', buffer') ∧
      main'.stream = some mainIo' ∧
      CharSource.pending mainIo'.rdbuf = (CharSource.pending mainIo.rdbuf).drop taken.length ∧
      main'.PushIdle ∧
      Replayed buffer' bufferIo' (content ++ taken) (position + k + taken.length) ∧
      bufferIo'.good = true := by
  have hlength : taken.length ≤ size - k := by
    rw [← htaken]
    exact List.length_take_le _ _
  obtain ⟨main', mainIo', hread, hpeek, hidle, hstream, hpending⟩ :=
    (hmain.startAfter k).readBytes hmain.good hle hsize depth dest
  rw [htaken] at hread hpeek hpending
  have hend : position + k + taken.length ≤ (content ++ taken).length := by
    rw [List.length_append]
    omega
  obtain ⟨buffer', bufferIo', hkeep, hkept, hgood⟩ :=
    hreplayed.keepReplay taken hend (by omega) depth
  -- the position to put at and the returned count do not wrap
  have hindex : toSizeT ((position : Int) + k + taken.length) = position + k + taken.length := by
    rw [← Int.natCast_add, ← Int.natCast_add]
    exact toSizeT_natCast (by omega)
  have hreturned : toInt64 ((k : Int) + taken.length) = ((k + taken.length : Nat) : Int) := by
    rw [← Int.natCast_add]
    exact toInt64_natCast (by omega)
  refine ⟨_, mainIo', buffer', bufferIo', ?_, hstream, hpending, hidle, hkept, hgood⟩
  rw [Serial.readBytesAfterReplay, if_neg hunserved]
  simp only [hread, ok_bind, hpeek]
  rw [hindex, hkeep]
  simp only [ok_bind]
  rw [hreturned]

/-- **Replay and live data.**  A request of `size` bytes takes `k` bytes from the replay buffer
and `m` from the main stream, in this order.  The string of the replay buffer, with the `m` bytes
behind it, is one that a `std::string` can hold. -/
theorem readBytesWithBuffer_splices [ArrivalSource β] (depth : Nat) {main : Serial β}
    {mainIo : IOStream β} (hmain : main.Ready mainIo) (hidle : main.PushIdle)
    {buffer : Serial Stringbuf} {bufferIo : IOStream Stringbuf}
    (hbuffer : Replayable buffer bufferIo) (dest : Object) {size : Nat}
    (hdest : size ≤ dest.val.length) :
    let k := min size bufferIo.rdbuf.unread.length
    let m := min (size - k) (CharSource.pending mainIo.rdbuf).length
    bufferIo.rdbuf.content.length + m < 2 ^ 63 →
    ∃ main' mainIo' buffer' bufferIo',
      readBytesWithBuffer (depth + 1) main buffer dest.val size =
        .ok (((k + m : Nat) : Int),
          overwrite dest.val 0
            (bufferIo.rdbuf.unread.take k ++ (CharSource.pending mainIo.rdbuf).take m),
          main', buffer') ∧
      main'.stream = some mainIo' ∧
      CharSource.pending mainIo'.rdbuf = (CharSource.pending mainIo.rdbuf).drop m ∧
      main'.PushIdle ∧
      buffer'.Ready bufferIo' ∧
      bufferIo'.rdbuf.content =
        bufferIo.rdbuf.content ++ (CharSource.pending mainIo.rdbuf).take m ∧
      bufferIo'.rdbuf.getPos = bufferIo.rdbuf.getPos + k + m := by
  intro k m hroom
  have hsize : size < 2 ^ 63 := Nat.lt_of_le_of_lt hdest dest.property
  have hstart := bufferIo.rdbuf.getPos_le
  have hunread : bufferIo.rdbuf.unread.length =
      bufferIo.rdbuf.content.length - bufferIo.rdbuf.getPos := List.length_drop
  have hfront : bufferIo.rdbuf.unread.take size = bufferIo.rdbuf.unread.take k :=
    List.take_eq_take_min
  have hback : (CharSource.pending mainIo.rdbuf).take (size - k) =
      (CharSource.pending mainIo.rdbuf).take m := List.take_eq_take_min
  have hfrontLength : (bufferIo.rdbuf.unread.take k).length = k := by
    rw [List.length_take]
    omega
  have hbackLength : ((CharSource.pending mainIo.rdbuf).take m).length = m := by
    rw [List.length_take]
    omega
  have hposition := getReadPosition_stream hbuffer.mode hbuffer.good
  obtain ⟨buffer₁, io₁, hread, hreplayed, hwhole⟩ := hbuffer.readBytes hsize depth dest.val
  rw [hfront, hfrontLength] at hread hreplayed hwhole
  rw [readBytesWithBuffer_eq hposition hread]
  rw [show Streambuf.tellIn bufferIo.rdbuf = (bufferIo.rdbuf.getPos : Int) from rfl,
    replayedCount_eq (by omega)]
  by_cases hfull : (k : Int) ≠ 0 ∧ toSizeT (k : Int) = size
  · -- the buffer has everything, and the main stream is not asked
    have hk : k = size := by
      have hcount := hfull.2
      rwa [toSizeT_natCast (by omega)] at hcount
    have hm : m = 0 := by omega
    rw [readBytesAfterReplay, if_pos hfull, hm, List.take_zero, List.append_nil, List.append_nil]
    exact ⟨_, mainIo, buffer₁, io₁, rfl, hmain.mode.stream, rfl,
      ⟨hidle.noOffset, hidle.notPushed, hidle.empty⟩,
      ⟨hreplayed.mode, hwhole hk, hreplayed.noOffset⟩, hreplayed.content_eq,
      hreplayed.position_eq⟩
  · obtain ⟨main', mainIo', buffer', bufferIo', hafter, hstream, hpending, hpushIdle, hkept,
      hgood⟩ := hreplayed.readBytesAfterReplay hmain (by omega) (Nat.min_le_left _ _) hsize hfull
        hback (by rw [hbackLength]; exact hroom) depth
        (overwrite dest.val 0 (bufferIo.rdbuf.unread.take k))
    rw [overwrite_parts hfrontLength (by rw [hbackLength]; omega), hbackLength] at hafter
    rw [hbackLength] at hpending hkept
    exact ⟨main', mainIo', buffer', bufferIo', hafter, hstream, hpending, hpushIdle,
      ⟨hkept.mode, hgood, hkept.noOffset⟩, hkept.content_eq, hkept.position_eq⟩

/-- Two bytes are replayed, and the third comes from the main stream. -/
theorem readBytesWithBuffer_splices_sample :
    ∃ (main' : Serial Stringbuf) (mainIo' : IOStream Stringbuf) (buffer' : Serial Stringbuf)
      (bufferIo' : IOStream Stringbuf),
      readBytesWithBuffer 1
          (ofStream { rdbuf := Stringbuf.ofString [3, 4, 5] } false : Serial Stringbuf)
          (ofStream { rdbuf := Stringbuf.mk [1, 2] 0 2 (by decide) (by decide) } false)
          [0, 0, 0] 3 =
        .ok (3, [1, 2, 3], main', buffer') ∧
      main'.stream = some mainIo' ∧ CharSource.pending mainIo'.rdbuf = [4, 5] ∧
      main'.PushIdle ∧ buffer'.Ready bufferIo' ∧ bufferIo'.rdbuf.content = [1, 2, 3] ∧
      bufferIo'.rdbuf.getPos = 3 :=
  @readBytesWithBuffer_splices _ _ 0 _ { rdbuf := Stringbuf.ofString [3, 4, 5] }
    ⟨streamMode_ofStream _, rfl, rfl⟩ ⟨rfl, rfl, rfl⟩ _
    { rdbuf := Stringbuf.mk [1, 2] 0 2 (by decide) (by decide) }
    ⟨⟨streamMode_ofStream _, rfl, rfl⟩, rfl, rfl⟩ ⟨[0, 0, 0], by decide⟩ 3 (by decide)
    (by decide)

end Serial
end Iostreams
