import Iostreams.Foundation.Run
import Iostreams.Foundation.Seeking
import Iostreams.Foundation.MachineInt

/-!
# The counting buffer

`counting_streambuf` is laid over a block of memory.  Bulk output is counted and
thrown away, bulk input is copied out of the block and counted.  The pointers of
the get and the put area are kept as offsets from the start of the block.

The constructor hands the whole block to the base class as put area.  So `sputc`
stores its character without a call of `overflow` until the area is full, and
the counters do not see it: `bytes_written()` is the number of bytes put exactly
if no character is put alone or the block is empty (`bytesWritten_iff`).
-/

namespace Iostreams

open Foundation

structure CountingStreambuf where
  buffer : Option (List UInt8) := none
  bufferSize : Nat := 0
  writePos : Int := 0
  readPos : Int := 0
  length : Int := 0
  totalBytesWritten : Int := 0
  totalBytesRead : Int := 0
  pptr : Int := 0
  epptr : Int := 0
  gptr : Int := 0
  egptr : Int := 0
  deriving DecidableEq, Repr

/-- The constructor over a buffer; the default constructor leaves the defaults. -/
def countingStreambuf (buf : Object) : CountingStreambuf where
  buffer := some buf.val
  bufferSize := buf.val.length
  epptr := buf.val.length
  egptr := buf.val.length

namespace CountingStreambuf

def bytesWritten (b : CountingStreambuf) : Int := b.totalBytesWritten

def bytesRead (b : CountingStreambuf) : Int := b.totalBytesRead

/-- Set `write_pos`; `if (write_pos > length) length = write_pos`. -/
def setWritePos (b : CountingStreambuf) (writePos : Int) : CountingStreambuf :=
  { b with writePos := writePos, length := if b.length < writePos then writePos else b.length }

/-- The bytes themselves are not looked at. -/
def xsputn (b : CountingStreambuf) (n : Int) : Int × CountingStreambuf :=
  (n, { b with totalBytesWritten := toInt64 (b.totalBytesWritten + n) }.setWritePos
    (toInt64 (b.writePos + n)))

/-- `overflow(ch)` for a character. -/
def overflow (b : CountingStreambuf) (ch : UInt8) : Int × CountingStreambuf :=
  (ch.toNat, { b with totalBytesWritten := toInt64 (b.totalBytesWritten + 1) }.setWritePos
    (toInt64 (b.writePos + 1)))

/-- `*pptr() = ch` and `pbump(1)` -/
def storeChar (b : CountingStreambuf) (ch : UInt8) : CountingStreambuf :=
  { b with buffer := b.buffer.map (overwrite · b.pptr.toNat [ch]), pptr := b.pptr + 1 }

/-- `sputc(ch)` of the base class. -/
def sputc (b : CountingStreambuf) (ch : UInt8) : Int × CountingStreambuf :=
  if b.pptr < b.epptr then (ch.toNat, b.storeChar ch) else b.overflow ch

def seekoff (b : CountingStreambuf) (off : Int) (way : Seekdir) (which : Openmode) :
    Int × CountingStreambuf :=
  if which.output then
    let writePos := toInt64 (way.origin 0 b.writePos b.length + off)
    (writePos, b.setWritePos writePos)
  else if which.input then
    let readPos := toInt64 (way.origin 0 b.readPos b.length + off)
    (readPos, { b with readPos := readPos })
  else (-1, b)

def seekpos (b : CountingStreambuf) (sp : Int) (which : Openmode) : Int × CountingStreambuf :=
  b.seekoff sp .beg which

end CountingStreambuf

/-! ## Output -/

/-- A call that puts bytes or seeks. -/
inductive CountingPut where
  | sputn (n : Streamsize)
  | sputc (ch : UInt8)
  | seekoff (off : Int64) (way : Seekdir) (which : Openmode)
  | seekpos (sp : Int64) (which : Openmode)

namespace CountingPut

def perform (b : CountingStreambuf) : CountingPut → Int × CountingStreambuf
  | .sputn n => b.xsputn n.val
  | .sputc ch => b.sputc ch
  | .seekoff off way which => b.seekoff off.toInt way which
  | .seekpos sp which => b.seekpos sp.toInt which

/-- How many bytes the call accepted, by what it returned; `-1` is `eof`. -/
def accepted (result : Int) : CountingPut → Int
  | .sputn _ => result
  | .sputc _ => if result = -1 then 0 else 1
  | .seekoff _ _ _ => 0
  | .seekpos _ _ => 0

/-- The bytes the call is to put. -/
def size : CountingPut → Nat
  | .sputn n => n.val
  | .sputc _ => 1
  | .seekoff _ _ _ => 0
  | .seekpos _ _ => 0

/-- The characters that the call puts alone. -/
def characters : CountingPut → Nat
  | .sputn _ => 0
  | .sputc _ => 1
  | .seekoff _ _ _ => 0
  | .seekpos _ _ => 0

end CountingPut

/-- A run beside which the accepted bytes are counted and the largest `write_pos` is kept. -/
structure CountedOutput where
  streambuf : CountingStreambuf
  accepted : Int := 0
  largestWritePos : Int := 0

def CountedOutput.perform (counted : CountedOutput) (call : CountingPut) : CountedOutput :=
  let (result, b) := call.perform counted.streambuf
  ⟨b, counted.accepted + call.accepted result, max counted.largestWritePos b.writePos⟩

/-- After `put` bytes, `characters` of them alone, on a block of `size` bytes: those that went
into the put area are not counted. -/
structure CountedOutput.Reaches (counted : CountedOutput) (size put characters : Nat) : Prop where
  accepted_eq : counted.accepted = put
  total_eq : counted.streambuf.totalBytesWritten = toInt64 (put - min characters size)
  pptr_eq : counted.streambuf.pptr = min characters size
  epptr_eq : counted.streambuf.epptr = size
  length_eq : counted.streambuf.length = counted.largestWritePos
  writePos_le : counted.streambuf.writePos ≤ counted.largestWritePos

namespace CountedOutput

variable {counted : CountedOutput} {size put characters : Nat}

/-- A sum of two whose first was taken modulo `2 ^ 64` before. -/
theorem toInt64_toInt64_add (x y : Int) : toInt64 (toInt64 x + y) = toInt64 (x + y) :=
  Int.bmod_add_bmod

namespace Reaches

/-- `length` is kept with `write_pos`. -/
theorem setWritePos (hreaches : counted.Reaches size put characters) (writePos : Int) :
    (counted.streambuf.setWritePos writePos).length = max counted.largestWritePos writePos ∧
      (counted.streambuf.setWritePos writePos).writePos ≤ max counted.largestWritePos writePos := by
  have hlength := hreaches.length_eq
  constructor
  · show (if counted.streambuf.length < writePos then writePos else counted.streambuf.length) = _
    rw [hlength]
    split <;> omega
  · show writePos ≤ _
    omega

/-- Where `xsputn` or `overflow` counts, all is counted. -/
theorem count (hreaches : counted.Reaches size put characters) (n : Nat) {chars : Nat}
    (hfull : min (characters + chars) size = min characters size) :
    let b : CountingStreambuf := { counted.streambuf with
      totalBytesWritten := toInt64 (counted.streambuf.totalBytesWritten + n) }.setWritePos
        (toInt64 (counted.streambuf.writePos + n))
    Reaches ⟨b, counted.accepted + n, max counted.largestWritePos b.writePos⟩ size (put + n)
      (characters + chars) := by
  rcases hreaches.setWritePos (toInt64 (counted.streambuf.writePos + n)) with ⟨hlength, hwritePos⟩
  have htotal : toInt64 (counted.streambuf.totalBytesWritten + n) =
      toInt64 ((put + n : Nat) - min (characters + chars) size) := by
    rw [hreaches.total_eq, toInt64_toInt64_add]
    congr 1
    omega
  have hpptr := hreaches.pptr_eq
  refine ⟨?_, htotal, ?_, hreaches.epptr_eq, hlength, hwritePos⟩
  · show counted.accepted + n = (put + n : Nat)
    rw [hreaches.accepted_eq, Int.natCast_add]
  · show counted.streambuf.pptr = _
    omega

theorem sputc (hreaches : counted.Reaches size put characters) (ch : UInt8) :
    (counted.perform (.sputc ch)).Reaches size (put + 1) (characters + 1) := by
  have hpptr := hreaches.pptr_eq
  have hepptr := hreaches.epptr_eq
  have hwritePos := hreaches.writePos_le
  have haccepted : (CountingPut.sputc ch).accepted (ch.toNat : Int) = 1 := by
    have heof : ¬(ch.toNat : Int) = -1 := by omega
    rw [CountingPut.accepted, if_neg heof]
  by_cases hroom : characters < size
  · -- stored in the put area behind the back of the counters
    have harea : counted.streambuf.pptr < counted.streambuf.epptr := by omega
    have hsputc : counted.streambuf.sputc ch =
        ((ch.toNat : Int), counted.streambuf.storeChar ch) := if_pos harea
    simp only [CountedOutput.perform, CountingPut.perform, hsputc, haccepted]
    refine ⟨?_, ?_, ?_, hepptr, ?_, ?_⟩
    · show counted.accepted + 1 = (put + 1 : Nat)
      rw [hreaches.accepted_eq, Int.natCast_add]
      rfl
    · show counted.streambuf.totalBytesWritten = _
      rw [hreaches.total_eq]
      congr 1
      omega
    · show counted.streambuf.pptr + 1 = _
      omega
    · show counted.streambuf.length = max counted.largestWritePos counted.streambuf.writePos
      rw [hreaches.length_eq]
      omega
    · show counted.streambuf.writePos ≤ max counted.largestWritePos counted.streambuf.writePos
      omega
  · have harea : ¬counted.streambuf.pptr < counted.streambuf.epptr := by omega
    have hsputc : counted.streambuf.sputc ch = counted.streambuf.overflow ch := if_neg harea
    have hfull : min (characters + 1) size = min characters size := by omega
    simp only [CountedOutput.perform, CountingPut.perform, hsputc, CountingStreambuf.overflow,
      haccepted]
    exact hreaches.count 1 hfull

theorem seekoff (hreaches : counted.Reaches size put characters) (off : Int) (way : Seekdir)
    (which : Openmode) :
    let b := (counted.streambuf.seekoff off way which).2
    Reaches ⟨b, counted.accepted + 0, max counted.largestWritePos b.writePos⟩ size put
      characters := by
  have hwritePos := hreaches.writePos_le
  have hstay : max counted.largestWritePos counted.streambuf.writePos =
      counted.largestWritePos := by omega
  have haccepted : counted.accepted + 0 = put := by rw [Int.add_zero, hreaches.accepted_eq]
  have hkept : Reaches ⟨counted.streambuf, counted.accepted + 0,
      max counted.largestWritePos counted.streambuf.writePos⟩ size put characters := by
    rw [hstay]
    exact ⟨haccepted, hreaches.total_eq, hreaches.pptr_eq, hreaches.epptr_eq,
      hreaches.length_eq, hwritePos⟩
  unfold CountingStreambuf.seekoff
  split
  · -- `write_pos` may go anywhere, and `length` follows it upwards
    obtain ⟨hlength, hsought⟩ := hreaches.setWritePos
      (toInt64 (way.origin 0 counted.streambuf.writePos counted.streambuf.length + off))
    exact ⟨haccepted, hreaches.total_eq, hreaches.pptr_eq, hreaches.epptr_eq, hlength, hsought⟩
  · split
    · exact ⟨haccepted, hkept.total_eq, hkept.pptr_eq, hkept.epptr_eq, hkept.length_eq,
        hkept.writePos_le⟩
    · exact hkept

theorem perform (hreaches : counted.Reaches size put characters) (call : CountingPut) :
    (counted.perform call).Reaches size (put + call.size) (characters + call.characters) := by
  cases call with
  | sputn n => exact hreaches.count n.val rfl
  | sputc ch => exact hreaches.sputc ch
  | seekoff off way which => exact hreaches.seekoff off.toInt way which
  | seekpos sp which => exact hreaches.seekoff sp.toInt .beg which

theorem foldl (calls : List CountingPut) {counted : CountedOutput} {put characters : Nat}
    (hreaches : counted.Reaches size put characters) :
    (calls.foldl CountedOutput.perform counted).Reaches size
      (put + (calls.map CountingPut.size).sum)
      (characters + (calls.map CountingPut.characters).sum) := by
  induction calls generalizing counted put characters with
  | nil => exact hreaches
  | cons call calls ih =>
      have hrest := ih (hreaches.perform call)
      simpa only [List.foldl_cons, List.map_cons, List.sum_cons, Nat.add_assoc] using hrest

end Reaches

theorem sum_characters_eq_zero {calls : List CountingPut} :
    (calls.map CountingPut.characters).sum = 0 ↔ ∀ ch, CountingPut.sputc ch ∉ calls := by
  induction calls with
  | nil => simp
  | cons call calls ih =>
      rw [List.map_cons, List.sum_cons, Nat.add_eq_zero_iff, ih]
      cases call with
      | sputc ch =>
          apply iff_of_false
          · rintro ⟨hone, -⟩
            exact Nat.one_ne_zero hone
          · intro hnone
            exact hnone ch List.mem_cons_self
      | sputn n => simp [CountingPut.characters]
      | seekoff off way which => simp [CountingPut.characters]
      | seekpos sp which => simp [CountingPut.characters]

/-- What is counted is what was put exactly if nothing went past the counters and none of them
has wrapped. -/
theorem total_eq_iff {put uncounted : Nat} (huncounted : uncounted < 2 ^ 63) :
    toInt64 (put - uncounted) = put ↔ uncounted = 0 ∧ put < 2 ^ 63 := by
  rw [toInt64, Int.bmod_def]
  omega

/-- **Counting output.**  After a run of puts and seeks `bytes_written()` is the number of bytes
accepted, and `length` the largest write position, exactly if no character was put alone unless
the block is empty, and fewer than `2 ^ 63` bytes were put. -/
theorem bytesWritten_iff (buf : Object) (calls : List CountingPut) :
    let counted := calls.foldl perform ⟨countingStreambuf buf, 0, 0⟩
    (counted.streambuf.bytesWritten = counted.accepted ∧
        counted.streambuf.length = counted.largestWritePos) ↔
      ((∀ ch, CountingPut.sputc ch ∉ calls) ∨ buf.val = []) ∧
        (calls.map CountingPut.size).sum < 2 ^ 63 := by
  have hsize := buf.property
  have hstart : Reaches ⟨countingStreambuf buf, 0, 0⟩ buf.val.length 0 0 :=
    ⟨rfl, by simp [countingStreambuf], by simp [countingStreambuf], rfl, rfl, Int.le_refl 0⟩
  have hrun := hstart.foldl calls
  rw [Nat.zero_add, Nat.zero_add] at hrun
  have hbound : min (calls.map CountingPut.characters).sum buf.val.length < 2 ^ 63 := by omega
  have htotal := @total_eq_iff (calls.map CountingPut.size).sum _ hbound
  have hempty : min (calls.map CountingPut.characters).sum buf.val.length = 0 ↔
      (∀ ch, CountingPut.sputc ch ∉ calls) ∨ buf.val = [] := by
    rw [← sum_characters_eq_zero, ← List.length_eq_zero_iff]
    omega
  rw [hempty] at htotal
  intro counted
  constructor
  · rintro ⟨hcounted, -⟩
    apply htotal.mp
    rw [CountingStreambuf.bytesWritten, hrun.total_eq, hrun.accepted_eq] at hcounted
    simpa using hcounted
  · intro hcondition
    refine ⟨?_, hrun.length_eq⟩
    rw [CountingStreambuf.bytesWritten, hrun.total_eq, hrun.accepted_eq]
    simpa using htotal.mpr hcondition

/-- A character that is put alone is not counted. -/
theorem not_bytesWritten :
    let counted := perform ⟨countingStreambuf ⟨[0], by decide⟩, 0, 0⟩ (.sputc 97)
    counted.accepted = 1 ∧ counted.streambuf.buffer = some [97] ∧
      counted.streambuf.bytesWritten = 0 := by
  decide

end CountedOutput
end Iostreams
