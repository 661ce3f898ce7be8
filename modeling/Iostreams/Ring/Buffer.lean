import Iostreams.Foundation.CircularBuffer
import Iostreams.Foundation.MachineInt

/-!
# The ring buffer

`Ringbuf` has the shared counters and the cells of `ringbuf`.  One cell always
stays free, so that equal counters mean an empty buffer.  The pieces of
`write_internal` and `read_internal` (the computation of the available space,
the copy of one chunk in two parts, the advance of a counter) are definitions of
their own, on the values of `head` and `tail` that the code has loaded.

`Holds` says which bytes a buffer holds: `start` counts the bytes that ever left
it, and the bytes inside lie in the window that starts there.
-/

namespace Iostreams

open Foundation

/-- `sizeof(ring_header)`: two atomic `size_t`. -/
def ringHeaderSize : Nat := 16

/-- The memory a ring buffer is given.  An object takes at most half of the address
space. -/
structure Region where
  totalSize : Nat
  bytes : Nat → UInt8
  size_le : totalSize ≤ 2 ^ 63

structure Ringbuf where
  ringbufferSize : Nat
  ringbuffer : Nat → UInt8
  head : Nat
  tail : Nat
  nonBlocking : Bool

/-- The constructor. -/
def ringbuf (mem : Region) (nonBlocking : Bool) : Ringbuf where
  ringbufferSize := if ringHeaderSize < mem.totalSize then mem.totalSize - ringHeaderSize else 1
  ringbuffer := fun cell => mem.bytes (ringHeaderSize + cell)
  head := 0
  tail := 0
  nonBlocking := nonBlocking

namespace Ringbuf

/-- `available_read` for the counters `h` and `t`. -/
def availableReadAt (r : Ringbuf) (h t : Nat) : Nat :=
  toSizeT (h + r.ringbufferSize - t) % r.ringbufferSize

def availableRead (r : Ringbuf) : Nat := r.availableReadAt r.head r.tail

/-- `available_write` for the counters `h` and `t`. -/
def availableWriteAt (r : Ringbuf) (h t : Nat) : Nat :=
  toSizeT (r.ringbufferSize - 1 + t - h) % r.ringbufferSize

def availableWrite (r : Ringbuf) : Nat := r.availableWriteAt r.head r.tail

/-- `(pos + chunk) % ringbuffer_size` -/
def advance (r : Ringbuf) (pos chunk : Nat) : Nat :=
  toSizeT (pos + chunk) % r.ringbufferSize

/-- The two `memcpy` that store a chunk from cell `h` on. -/
def copyIn (r : Ringbuf) (h : Nat) (chunk : List UInt8) : Ringbuf :=
  { r with ringbuffer := storeWrapped r.ringbufferSize r.ringbuffer h chunk }

/-- The two `memcpy` that load a chunk from cell `t` on. -/
def copyOut (r : Ringbuf) (t chunk : Nat) : List UInt8 :=
  loadWrapped r.ringbufferSize r.ringbuffer t chunk

def setHead (r : Ringbuf) (head : Nat) : Ringbuf := { r with head := head }

def setTail (r : Ringbuf) (tail : Nat) : Ringbuf := { r with tail := tail }

@[simp] theorem copyIn_ringbufferSize (r : Ringbuf) (h : Nat) (chunk : List UInt8) :
    (r.copyIn h chunk).ringbufferSize = r.ringbufferSize := rfl

@[simp] theorem copyIn_head (r : Ringbuf) (h : Nat) (chunk : List UInt8) :
    (r.copyIn h chunk).head = r.head := rfl

@[simp] theorem copyIn_tail (r : Ringbuf) (h : Nat) (chunk : List UInt8) :
    (r.copyIn h chunk).tail = r.tail := rfl

@[simp] theorem copyIn_nonBlocking (r : Ringbuf) (h : Nat) (chunk : List UInt8) :
    (r.copyIn h chunk).nonBlocking = r.nonBlocking := rfl

@[simp] theorem copyIn_advance (r : Ringbuf) (h : Nat) (chunk : List UInt8) (pos count : Nat) :
    (r.copyIn h chunk).advance pos count = r.advance pos count := rfl

@[simp] theorem setHead_ringbufferSize (r : Ringbuf) (head : Nat) :
    (r.setHead head).ringbufferSize = r.ringbufferSize := rfl

@[simp] theorem setHead_nonBlocking (r : Ringbuf) (head : Nat) :
    (r.setHead head).nonBlocking = r.nonBlocking := rfl

@[simp] theorem setTail_ringbufferSize (r : Ringbuf) (tail : Nat) :
    (r.setTail tail).ringbufferSize = r.ringbufferSize := rfl

@[simp] theorem setTail_nonBlocking (r : Ringbuf) (tail : Nat) :
    (r.setTail tail).nonBlocking = r.nonBlocking := rfl

/-- `write_internal(s, n)` with `written` bytes of `s` stored; `none` when the loop is
still running after `fuel` rounds. -/
def writeInternal : Nat → Ringbuf → List UInt8 → Nat → Nat → Option (Nat × Ringbuf)
  | 0, _, _, _, _ => none
  | fuel + 1, r, s, written, fullSpins =>
      if written < s.length then
        let avail := r.availableWrite
        if avail = 0 then
          if r.nonBlocking then
            if 0 < written ∨ 100 < fullSpins then some (written, r)
            else writeInternal fuel r s written (fullSpins + 1)
          else writeInternal fuel r s written fullSpins
        else
          let chunk := min avail (s.length - written)
          let h := r.head
          let r := r.copyIn h ((s.drop written).take chunk)
          writeInternal fuel (r.setHead (r.advance h chunk)) s (written + chunk) fullSpins
      else some (written, r)

/-- `read_internal(s, n)` with `bytes` in the destination; `none` when the loop is
still running after `fuel` rounds. -/
def readInternal : Nat → Ringbuf → Nat → List UInt8 → Nat → Option (List UInt8 × Ringbuf)
  | 0, _, _, _, _ => none
  | fuel + 1, r, n, bytes, emptySpins =>
      if bytes.length < n then
        let avail := r.availableRead
        if avail = 0 then
          if r.nonBlocking then
            if 0 < bytes.length ∨ 1000000 < emptySpins then some (bytes, r)
            else readInternal fuel r n bytes (emptySpins + 1)
          else readInternal fuel r n bytes emptySpins
        else
          let chunk := min avail (n - bytes.length)
          let t := r.tail
          readInternal fuel (r.setTail (r.advance t chunk)) n (bytes ++ r.copyOut t chunk)
            emptySpins
      else some (bytes, r)

/-- `xsputn(s, n)` for the `n` bytes `s`. -/
def xsputn (fuel : Nat) (r : Ringbuf) (s : List UInt8) : Option (Int × Ringbuf) := do
  let (written, r) ← writeInternal fuel r s 0 0
  return (toInt64 written, r)

/-- `xsgetn(s, n)`: the count it returns and the bytes it leaves in `s`. -/
def xsgetn (fuel : Nat) (r : Ringbuf) (n : Int) : Option ((Int × List UInt8) × Ringbuf) := do
  let (bytes, r) ← readInternal fuel r (toSizeT n) [] 0
  return ((toInt64 bytes.length, bytes), r)

/-! ## The bytes in the buffer -/

/-- After `start` bytes have left the buffer it holds `items`. -/
structure Holds (r : Ringbuf) (start : Nat) (items : List UInt8) : Prop where
  size_le : r.ringbufferSize ≤ 2 ^ 63
  length_lt : items.length < r.ringbufferSize
  tail_eq : r.tail = start % r.ringbufferSize
  head_eq : r.head = (start + items.length) % r.ringbufferSize
  window_eq : window r.ringbufferSize r.ringbuffer start items.length = items

theorem ringbuf_holds (mem : Region) (nonBlocking : Bool) :
    (ringbuf mem nonBlocking).Holds 0 [] where
  size_le := by
    have hle := mem.size_le
    simp only [ringbuf]
    split <;> omega
  length_lt := by
    simp only [ringbuf, List.length_nil]
    split <;> omega
  tail_eq := by simp [ringbuf]
  head_eq := by simp [ringbuf]
  window_eq := rfl

variable {r : Ringbuf} {start : Nat} {items : List UInt8}

/-- Counters that are `count` apart, taken modulo the size. -/
theorem availableReadAt_cells (hsize : r.ringbufferSize ≤ 2 ^ 63) {count : Nat}
    (hcount : count < r.ringbufferSize) :
    r.availableReadAt ((start + count) % r.ringbufferSize) (start % r.ringbufferSize) = count := by
  have hhead : (start + count) % r.ringbufferSize < r.ringbufferSize := Nat.mod_lt _ (by omega)
  have htail : start % r.ringbufferSize < r.ringbufferSize := Nat.mod_lt _ (by omega)
  rw [availableReadAt, show ((((start + count) % r.ringbufferSize : Nat) : Int) + r.ringbufferSize -
      (start % r.ringbufferSize : Nat)) = (((start + count) % r.ringbufferSize + r.ringbufferSize -
      start % r.ringbufferSize : Nat) : Int) by omega, toSizeT_natCast (by omega)]
  exact cell_distance hcount

theorem availableWriteAt_cells (hsize : r.ringbufferSize ≤ 2 ^ 63) {count : Nat}
    (hcount : count < r.ringbufferSize) :
    r.availableWriteAt ((start + count) % r.ringbufferSize) (start % r.ringbufferSize) =
      r.ringbufferSize - 1 - count := by
  have hhead : (start + count) % r.ringbufferSize < r.ringbufferSize := Nat.mod_lt _ (by omega)
  have htail : start % r.ringbufferSize < r.ringbufferSize := Nat.mod_lt _ (by omega)
  rw [availableWriteAt, show ((r.ringbufferSize : Int) - 1 + (start % r.ringbufferSize : Nat) -
      ((start + count) % r.ringbufferSize : Nat)) = ((r.ringbufferSize - 1 +
      start % r.ringbufferSize - (start + count) % r.ringbufferSize : Nat) : Int) by omega,
    toSizeT_natCast (by omega)]
  exact cell_remaining hcount

theorem advance_cell (hsize : r.ringbufferSize ≤ 2 ^ 63) (counter : Nat) {chunk : Nat}
    (hchunk : chunk < r.ringbufferSize) :
    r.advance (counter % r.ringbufferSize) chunk = (counter + chunk) % r.ringbufferSize := by
  have hcell : counter % r.ringbufferSize < r.ringbufferSize := Nat.mod_lt _ (by omega)
  rw [advance, ← Nat.cast_add, toSizeT_natCast (by omega), Nat.mod_add_mod]

namespace Holds

theorem availableRead (hholds : r.Holds start items) : r.availableRead = items.length := by
  rw [Ringbuf.availableRead, hholds.head_eq, hholds.tail_eq]
  exact availableReadAt_cells hholds.size_le hholds.length_lt

theorem availableWrite (hholds : r.Holds start items) :
    r.availableWrite = r.ringbufferSize - 1 - items.length := by
  rw [Ringbuf.availableWrite, hholds.head_eq, hholds.tail_eq]
  exact availableWriteAt_cells hholds.size_le hholds.length_lt

/-- A chunk that fits is copied into free cells. -/
theorem copyIn (hholds : r.Holds start items) {chunk : List UInt8}
    (hfits : items.length + chunk.length < r.ringbufferSize) :
    (r.copyIn r.head chunk).Holds start items where
  size_le := hholds.size_le
  length_lt := hholds.length_lt
  tail_eq := hholds.tail_eq
  head_eq := hholds.head_eq
  window_eq := by
    refine Eq.trans ?_ hholds.window_eq
    simp only [Ringbuf.copyIn, hholds.head_eq]
    exact window_storeWrapped_before _ (Nat.le_refl _) (by omega) (by omega)

/-- The copied chunk lies behind the bytes of the buffer. -/
theorem window_copyIn (hholds : r.Holds start items) {chunk : List UInt8}
    (hfits : items.length + chunk.length < r.ringbufferSize) :
    window r.ringbufferSize (r.copyIn r.head chunk).ringbuffer (start + items.length)
      chunk.length = chunk := by
  simp only [Ringbuf.copyIn, hholds.head_eq]
  exact window_storeWrapped _ _ (by omega) (by omega)

/-- Moving the head publishes the chunk behind the bytes of the buffer. -/
theorem setHead (hholds : r.Holds start items) {chunk : List UInt8}
    (hfits : items.length + chunk.length < r.ringbufferSize)
    (hchunk : window r.ringbufferSize r.ringbuffer (start + items.length) chunk.length = chunk) :
    (r.setHead (r.advance r.head chunk.length)).Holds start (items ++ chunk) where
  size_le := hholds.size_le
  length_lt := by
    rw [List.length_append]
    exact hfits
  tail_eq := hholds.tail_eq
  head_eq := by
    rw [Ringbuf.setHead, hholds.head_eq, advance_cell hholds.size_le _ (by omega),
      List.length_append, Nat.add_assoc]
  window_eq := by
    rw [List.length_append, window_append]
    exact congrArg₂ _ hholds.window_eq hchunk

/-- A chunk of the oldest bytes is copied out. -/
theorem copyOut (hholds : r.Holds start items) {chunk : Nat} (hchunk : chunk ≤ items.length) :
    r.copyOut r.tail chunk = items.take chunk := by
  have hlt := hholds.length_lt
  have htail : start % r.ringbufferSize < r.ringbufferSize := Nat.mod_lt _ (by omega)
  have hcells : window r.ringbufferSize r.ringbuffer (start % r.ringbufferSize) chunk =
      window r.ringbufferSize r.ringbuffer start chunk := by
    apply List.map_congr_left
    intro i _
    rw [Nat.mod_add_mod]
  rw [Ringbuf.copyOut, hholds.tail_eq, loadWrapped_eq htail _ (by omega), hcells,
    ← window_take hchunk, hholds.window_eq]

/-- Moving the tail gives up a chunk of the oldest bytes. -/
theorem setTail (hholds : r.Holds start items) {chunk : Nat} (hchunk : chunk ≤ items.length) :
    (r.setTail (r.advance r.tail chunk)).Holds (start + chunk) (items.drop chunk) where
  size_le := hholds.size_le
  length_lt := by
    have hlt := hholds.length_lt
    rw [List.length_drop]
    exact Nat.lt_of_le_of_lt (Nat.sub_le _ _) hlt
  tail_eq := by
    have hlt := hholds.length_lt
    rw [Ringbuf.setTail, hholds.tail_eq, advance_cell hholds.size_le _ (by omega)]
  head_eq := by
    rw [List.length_drop, show start + chunk + (items.length - chunk) = start + items.length by
      omega]
    exact hholds.head_eq
  window_eq := by
    rw [List.length_drop]
    apply (window_drop hchunk).symm.trans
    exact congrArg (List.drop chunk) hholds.window_eq

end Holds
end Ringbuf
end Iostreams
