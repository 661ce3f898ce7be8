import Iostreams.Foundation.Pipe
import Iostreams.Ring.Seeking

/-!
# A ring buffer under a stream

A non-blocking ring buffer whose counters name cells returns from every call and stays so
(`NonBlockingRing`), so that it is a stream buffer, and a pipe with one byte less than it has cells.
The functions that `ringbuf` does not override are those of the base class.
-/

namespace Iostreams

open Foundation

structure NonBlockingRing where
  ring : Ringbuf
  nonBlocking : ring.nonBlocking = true
  inRange : ring.InRange

namespace NonBlockingRing

/-- The ring buffer over a block of memory. -/
def ofRegion (mem : Region) : NonBlockingRing :=
  ⟨ringbuf mem true, rfl, (Ringbuf.ringbuf_holds mem true).inRange⟩

/-- A call of `xsputn` returns, and keeps what makes the next call return. -/
theorem xsputn_eq (r : NonBlockingRing) {start : Nat} {items : List UInt8}
    (hholds : r.ring.Holds start items) (s : List UInt8) :
    ∃ next, r.ring.xsputn waitingRounds s =
        some (toInt64 (min r.ring.availableWrite s.length : Nat), next) ∧
      next.Holds start (items ++ s.take r.ring.availableWrite) ∧
      next.ringbufferSize = r.ring.ringbufferSize ∧ next.nonBlocking = true := by
  obtain ⟨next, hwrite, hnext⟩ :=
    hholds.writeInternal r.nonBlocking rfl s (Nat.le_refl waitingRounds)
  refine ⟨next, ?_, hnext⟩
  rw [Ringbuf.xsputn, hwrite]
  rfl

theorem xsgetn_eq (r : NonBlockingRing) {start : Nat} {items : List UInt8}
    (hholds : r.ring.Holds start items) (n : Int) :
    ∃ next, r.ring.xsgetn waitingRounds n = some ((toInt64 (items.take (toSizeT n)).length,
        items.take (toSizeT n)), next) ∧
      next.Holds (start + min items.length (toSizeT n)) (items.drop (toSizeT n)) ∧
      next.ringbufferSize = r.ring.ringbufferSize ∧ next.nonBlocking = true := by
  obtain ⟨next, hread, hnext⟩ :=
    hholds.readInternal r.nonBlocking (toSizeT n) (Nat.le_refl waitingRounds)
  refine ⟨next, ?_, hnext⟩
  rw [Ringbuf.xsgetn, hread]
  rfl

theorem xsputn_keeps (r : NonBlockingRing) (s : List UInt8) :
    ∃ result, r.ring.xsputn waitingRounds s = some result ∧ result.2.nonBlocking = true ∧
      result.2.InRange := by
  obtain ⟨next, hwrite, hholds, -, hmode⟩ := r.xsputn_eq r.inRange.holds s
  exact ⟨_, hwrite, hmode, hholds.inRange⟩

theorem xsgetn_keeps (r : NonBlockingRing) (n : Int) :
    ∃ result, r.ring.xsgetn waitingRounds n = some result ∧ result.2.nonBlocking = true ∧
      result.2.InRange := by
  obtain ⟨next, hread, hholds, -, hmode⟩ := r.xsgetn_eq r.inRange.holds n
  exact ⟨_, hread, hmode, hholds.inRange⟩

/-- The result of a call that returns and keeps the invariant. -/
def returned {α : Type} (call : Option (α × Ringbuf)) (hcall : ∃ result, call = some result ∧
    result.2.nonBlocking = true ∧ result.2.InRange) : α × NonBlockingRing :=
  match call with
  | some (answer, next) => (answer, ⟨next, by
      obtain ⟨result, heq, hmode, -⟩ := hcall
      cases heq
      exact hmode, by
      obtain ⟨result, heq, -, hrange⟩ := hcall
      cases heq
      exact hrange⟩)
  | none => absurd hcall (by simp)

theorem returned_some {α : Type} {call : Option (α × Ringbuf)} {answer : α} {next : Ringbuf}
    (hcall : call = some (answer, next)) (hmode : next.nonBlocking = true)
    (hrange : next.InRange) (hreturns : ∃ result, call = some result ∧
      result.2.nonBlocking = true ∧ result.2.InRange) :
    returned call hreturns = (answer, ⟨next, hmode, hrange⟩) := by
  subst hcall
  rfl

/-! ## The stream buffer -/

def sputn (r : NonBlockingRing) (s : List UInt8) : Int × NonBlockingRing :=
  returned _ (r.xsputn_keeps s)

def sgetn (r : NonBlockingRing) (n : Int) : List UInt8 × NonBlockingRing :=
  let ((_, bytes), next) := returned _ (r.xsgetn_keeps n)
  (bytes, next)

def seekoff (r : NonBlockingRing) (off : Int) (way : Seekdir) (which : Openmode) :
    Int × NonBlockingRing :=
  ((r.ring.seekoff off way which).1, ⟨(r.ring.seekoff off way which).2, by
    rw [(r.inRange.seekoff off way which).2.2]
    exact r.nonBlocking, (r.inRange.seekoff off way which).1⟩)

instance : Streambuf NonBlockingRing where
  sgetn := sgetn
  inAvail _ := 0
  sputn := sputn
  tellIn r := (r.seekoff 0 .cur ⟨true, false⟩).1
  seekIn r position := r.seekoff position .beg ⟨true, false⟩
  tellOut r := (r.seekoff 0 .cur ⟨false, true⟩).1
  seekOut r position := r.seekoff position .beg ⟨false, true⟩
  sync r := some r

/-- The bytes between the counters, and the cells that are free. -/
instance : Pipe NonBlockingRing where
  Holding r bytes room :=
    ∃ start, r.ring.Holds start bytes ∧ bytes.length + room + 1 = r.ring.ringbufferSize
  reuses := true
  size_lt := by
    rintro r bytes room ⟨start, hholds, hsize⟩
    have hle := hholds.size_le
    omega
  put := by
    rintro r bytes room src ⟨start, hholds, hsize⟩ hroom
    -- the room is what `write_internal` sees
    have hspace : r.ring.availableWrite = room := by
      rw [hholds.availableWrite]
      omega
    have hle := hholds.size_le
    obtain ⟨next, hwrite, hnext, hnextSize, hmode⟩ := r.xsputn_eq hholds src
    rw [hspace, Nat.min_eq_right hroom, toInt64_natCast (by omega)] at hwrite
    rw [hspace, List.take_of_length_le hroom] at hnext
    refine ⟨⟨next, hmode, hnext.inRange⟩, returned_some hwrite hmode hnext.inRange _, start, hnext,
      ?_⟩
    rw [List.length_append, hnextSize]
    omega
  get := by
    rintro r front back room ⟨start, hholds, hsize⟩
    rw [List.length_append] at hsize
    have hle := hholds.size_le
    have hn : toSizeT front.length = front.length := toSizeT_natCast (by omega)
    obtain ⟨next, hread, hnext, hnextSize, hmode⟩ := r.xsgetn_eq hholds front.length
    rw [hn, List.take_left] at hread
    rw [hn, List.drop_left] at hnext
    refine ⟨⟨next, hmode, hnext.inRange⟩, ?_, _, hnext, ?_⟩
    · simp only [Streambuf.sgetn, sgetn, returned_some hread hmode hnext.inRange]
    · rw [hnextSize, if_pos rfl]
      omega

/-- An empty ring buffer has room for one byte less than it has cells. -/
theorem holding_ofRegion {mem : Region} (hmem : ringHeaderSize < mem.totalSize) :
    Pipe.Holding (ofRegion mem) [] (mem.totalSize - ringHeaderSize - 1) := by
  have hsize : (ringbuf mem true).ringbufferSize = mem.totalSize - ringHeaderSize := if_pos hmem
  refine ⟨0, Ringbuf.ringbuf_holds mem true, ?_⟩
  show ([] : List UInt8).length + _ + 1 = (ringbuf mem true).ringbufferSize
  rw [hsize, List.length_nil]
  omega

end NonBlockingRing
end Iostreams
