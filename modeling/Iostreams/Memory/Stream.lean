import Iostreams.Foundation.Pipe
import Iostreams.Memory.Streambuf

/-!
# A block of memory under a stream

A `memory_streambuf` whose read cursor is not in front of its write cursor is a pipe: the bytes
between the cursors are left to read, and what lies behind the write cursor is room that reading
does not make larger.
-/

namespace Iostreams

open Foundation

namespace MemoryStreambuf

def sgetn (b : MemoryStreambuf) (n : Int) : List UInt8 × MemoryStreambuf :=
  let ((_, bytes), b) := b.xsgetn n
  (bytes, b)

/-- `in_avail` and `sync` are those of the base class. -/
instance : Streambuf MemoryStreambuf where
  sgetn := sgetn
  inAvail b := if b.gptr < b.egptr then b.egptr - b.gptr else 0
  sputn := xsputn
  tellIn b := (b.seekoff 0 .cur ⟨true, false⟩).1
  seekIn b position := b.seekpos position ⟨true, false⟩
  tellOut b := (b.seekoff 0 .cur ⟨false, true⟩).1
  seekOut b position := b.seekpos position ⟨false, true⟩
  sync b := some b

/-- The block has the two cursors in this order, and an `int` reaches its end. -/
structure Between (b : MemoryStreambuf) (a : CursorBlock) : Prop where
  represents : b.Represents a
  readPos_le : a.readPos ≤ a.writePos
  size_lt : a.bytes.length < 2 ^ 31

/-- The bytes between the cursors. -/
def written (a : CursorBlock) : List UInt8 := (a.bytes.take a.writePos).drop a.readPos

variable {b : MemoryStreambuf} {a : CursorBlock}

theorem written_length (a : CursorBlock) :
    (written a).length = a.writePos - a.readPos := by
  have hle := a.writePos_le
  rw [written, List.length_drop, List.length_take, Nat.min_eq_left hle]

/-- They are the first of those behind the read cursor. -/
theorem written_eq_take (a : CursorBlock) :
    written a = a.unread.take (a.writePos - a.readPos) := by
  rw [written, CursorBlock.unread, List.drop_take]

theorem Between.put (hbetween : b.Between a) {src : List UInt8} (hroom : src.length ≤ a.space) :
    ∃ next, b.xsputn src = ((src.length : Int), next) ∧ next.Between (a.put src) ∧
      written (a.put src) = written a ++ src ∧ (a.put src).space = a.space - src.length := by
  have hle := a.writePos_le
  have hspace : a.space = a.bytes.length - a.writePos := rfl
  have hlength := hbetween.size_lt
  have htake : src.take a.space = src := List.take_of_length_le hroom
  have hnext := (hbetween.represents.put_iff src).mpr (by omega)
  have hput := hbetween.represents.xsputn_eq src
  have hbytes : (a.put src).bytes = overwrite a.bytes a.writePos src := by
    show overwrite a.bytes a.writePos (src.take a.space) = _
    rw [htake]
  have hwrite : (a.put src).writePos = a.writePos + src.length := by
    show a.writePos + min src.length a.space = _
    rw [Nat.min_eq_left hroom]
  have hread : (a.put src).readPos = a.readPos := rfl
  rw [Nat.min_eq_left hroom] at hput hnext
  refine ⟨_, hput, ⟨hnext, ?_, ?_⟩, ?_, ?_⟩
  · have hcursors := hbetween.readPos_le
    omega
  · rw [hbytes, overwrite_length]
    exact hlength
  · -- what is written goes behind the bytes in front of the write cursor
    have hfront : (a.bytes.take a.writePos).length = a.writePos := by
      rw [List.length_take]
      omega
    rw [written, hbytes, hwrite, hread, overwrite_eq (by omega),
      List.take_left' (by rw [List.length_append, hfront]),
      List.drop_append_of_le_length (by rw [hfront]; exact hbetween.readPos_le), written]
  · rw [CursorBlock.space, hbytes, hwrite, overwrite_length]
    omega

theorem Between.get (hbetween : b.Between a) {front back : List UInt8}
    (hwritten : written a = front ++ back) :
    ∃ next, b.sgetn front.length = (front, next) ∧ next.Between (a.skip front.length) ∧
      written (a.skip front.length) = back := by
  have hle := a.writePos_le
  have hunread : a.unread.length = a.bytes.length - a.readPos := List.length_drop
  have hlength := hbetween.size_lt
  have htotal := written_length a
  rw [hwritten, List.length_append] at htotal
  -- the read cursor does not pass the write cursor
  have hmin : min front.length a.unread.length = front.length := by
    have hcursors := hbetween.readPos_le
    omega
  have hskip : (a.skip front.length).readPos = a.readPos + front.length := by
    show a.readPos + min front.length a.unread.length = _
    rw [hmin]
  have hnext : (b.gbump front.length).Represents (a.skip front.length) :=
    (hbetween.represents.gbump_iff hskip rfl rfl).mpr (by omega)
  refine ⟨_, ?_, ⟨hnext, ?_, hlength⟩, ?_⟩
  · have htake : a.unread.take front.length = front := by
      rw [written_eq_take] at hwritten
      have hfirst := congrArg (List.take front.length) hwritten
      rw [List.take_take, Nat.min_eq_left (by omega), List.take_left] at hfirst
      exact hfirst
    simp only [sgetn, hbetween.represents.xsgetn_eq, hmin, htake]
  · rw [hskip]
    have hcursors := hbetween.readPos_le
    show a.readPos + front.length ≤ a.writePos
    omega
  · rw [written, hskip, ← List.drop_drop]
    show (written a).drop front.length = back
    rw [hwritten, List.drop_left]

instance : Pipe MemoryStreambuf where
  Holding b bytes room := ∃ a, b.Between a ∧ written a = bytes ∧ a.space = room
  reuses := false
  size_lt := by
    rintro b bytes room ⟨a, hbetween, rfl, rfl⟩
    have hle := a.writePos_le
    have hlength := hbetween.size_lt
    rw [written_length a, CursorBlock.space]
    omega
  put := by
    rintro b bytes room src ⟨a, hbetween, rfl, rfl⟩ hroom
    obtain ⟨next, hput, hnext, hwritten, hspace⟩ := hbetween.put hroom
    exact ⟨next, hput, a.put src, hnext, hwritten, hspace⟩
  get := by
    rintro b front back room ⟨a, hbetween, hwritten, rfl⟩
    obtain ⟨next, hget, hnext, hleft⟩ := hbetween.get hwritten
    exact ⟨next, hget, a.skip front.length, hnext, hleft, rfl⟩

/-- A fresh buffer has room for its whole block. -/
theorem holding_memoryStreambuf {data : Object} (hsize : data.val.length < 2 ^ 31) :
    Pipe.Holding (memoryStreambuf data) [] data.val.length :=
  ⟨.ofBytes data.val, ⟨memoryStreambuf_represents data, Nat.le_refl _, hsize⟩, by
    simp [written, CursorBlock.ofBytes], by simp [CursorBlock.space, CursorBlock.ofBytes]⟩

end MemoryStreambuf
end Iostreams
