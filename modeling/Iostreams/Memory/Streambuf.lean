import Iostreams.Foundation.Run
import Iostreams.Foundation.Seeking
import Iostreams.Foundation.MachineInt

/-!
# The buffer over a block of memory

`memory_streambuf` keeps its get and put area over the same block.  Pointers are
offsets from the start of the block: `eback()` and `pbase()` are 0, `egptr()`
and `epptr()` the size.  An offset in 64 bits cannot carry a pointer around the
address space and back into the block, so that `newpos` is a plain sum.

The pointers are moved by `gbump` and `pbump`, which take an `int`.  So the buffer
is the block with two cursors (`CursorBlock`) as long as no transfer is of
`2 ^ 31` bytes or more and the put pointer is not set as far as that.
-/

namespace Iostreams

open Foundation

structure MemoryStreambuf where
  memory : List UInt8
  gptr : Int
  pptr : Int

/-- The constructor. -/
def memoryStreambuf (data : Object) : MemoryStreambuf := ⟨data.val, 0, 0⟩

namespace MemoryStreambuf

def egptr (b : MemoryStreambuf) : Int := b.memory.length

def epptr (b : MemoryStreambuf) : Int := b.memory.length

/-- `pbump(static_cast<int>(n))` -/
def pbump (b : MemoryStreambuf) (n : Int) : MemoryStreambuf :=
  { b with pptr := b.pptr + toInt32 n }

/-- `gbump(static_cast<int>(n))` -/
def gbump (b : MemoryStreambuf) (n : Int) : MemoryStreambuf :=
  { b with gptr := b.gptr + toInt32 n }

@[simp] theorem pbump_pptr (b : MemoryStreambuf) (n : Int) :
    (b.pbump n).pptr = b.pptr + toInt32 n := rfl

@[simp] theorem gbump_gptr (b : MemoryStreambuf) (n : Int) :
    (b.gbump n).gptr = b.gptr + toInt32 n := rfl

/-- `memcpy(pptr(), src, src.length)` -/
def storeAtPptr (b : MemoryStreambuf) (src : List UInt8) : MemoryStreambuf :=
  { b with memory := overwrite b.memory b.pptr.toNat src }

/-- `*gptr()` -/
def charAtGptr (b : MemoryStreambuf) : UInt8 := b.memory.getD b.gptr.toNat 0

def xsputn (b : MemoryStreambuf) (s : List UInt8) : Int × MemoryStreambuf :=
  let avail := b.epptr - b.pptr
  let n := if avail < s.length then avail else s.length
  (n, (b.storeAtPptr (s.take n.toNat)).pbump n)

/-- The count and the bytes that are copied out. -/
def xsgetn (b : MemoryStreambuf) (n : Int) : (Int × List UInt8) × MemoryStreambuf :=
  let avail := b.egptr - b.gptr
  let n := if avail < n then avail else n
  ((n, slice b.memory b.gptr.toNat n.toNat), b.gbump n)

/-- `overflow(ch)` for a character; `-1` is `eof`. -/
def overflow (b : MemoryStreambuf) (ch : UInt8) : Int × MemoryStreambuf :=
  if b.pptr < b.epptr then (ch.toNat, (b.storeAtPptr [ch]).pbump 1) else (-1, b)

def underflow (b : MemoryStreambuf) : Int :=
  if b.gptr < b.egptr then b.charAtGptr.toNat else -1

/-- `sputc(ch)` of the base class. -/
def sputc (b : MemoryStreambuf) (ch : UInt8) : Int × MemoryStreambuf :=
  if b.pptr < b.epptr then (ch.toNat, (b.storeAtPptr [ch]).pbump 1) else b.overflow ch

/-- `sbumpc()` of the base class, with its `uflow()`. -/
def sbumpc (b : MemoryStreambuf) : Int × MemoryStreambuf :=
  if b.gptr < b.egptr then (b.charAtGptr.toNat, b.gbump 1)
  else if b.underflow = -1 then (-1, b)
  else (b.charAtGptr.toNat, b.gbump 1)

def seekoff (b : MemoryStreambuf) (off : Int) (way : Seekdir) (which : Openmode) :
    Int × MemoryStreambuf :=
  if which.input then
    let newpos := way.origin 0 b.gptr b.egptr + off
    if newpos < 0 ∨ b.egptr < newpos then (-1, b) else (newpos, { b with gptr := newpos })
  else if which.output then
    let newpos := way.origin 0 b.pptr b.epptr + off
    if newpos < 0 ∨ b.epptr < newpos then (-1, b) else (newpos, { b with pptr := 0 }.pbump newpos)
  else (-1, b)

def seekpos (b : MemoryStreambuf) (sp : Int) (which : Openmode) : Int × MemoryStreambuf :=
  b.seekoff sp .beg which

end MemoryStreambuf

/-! ## Calls -/

inductive MemoryCall where
  | sputn (s : Object)
  | sgetn (n : Streamsize)
  | sputc (ch : UInt8)
  | sbumpc
  | seekoff (off : Int64) (way : Seekdir) (which : Openmode)
  | seekpos (sp : Int64) (which : Openmode)

/-- What a call returns, and the bytes it copies out. -/
structure MemoryAnswer where
  result : Int
  bytes : List UInt8
  deriving DecidableEq, Repr

namespace MemoryStreambuf

def perform (b : MemoryStreambuf) : MemoryCall → MemoryAnswer × MemoryStreambuf
  | .sputn s =>
      let (n, b) := b.xsputn s.val
      (⟨n, []⟩, b)
  | .sgetn n =>
      let ((n, bytes), b) := b.xsgetn n.val
      (⟨n, bytes⟩, b)
  | .sputc ch =>
      let (result, b) := b.sputc ch
      (⟨result, []⟩, b)
  | .sbumpc =>
      let (result, b) := b.sbumpc
      (⟨result, []⟩, b)
  | .seekoff off way which =>
      let (result, b) := b.seekoff off.toInt way which
      (⟨result, []⟩, b)
  | .seekpos sp which =>
      let (result, b) := b.seekpos sp.toInt which
      (⟨result, []⟩, b)

end MemoryStreambuf

namespace Foundation.CursorBlock

/-- Where a seek of the read cursor leads. -/
def readTarget (a : CursorBlock) (off : Int) (way : Seekdir) : Int :=
  way.origin 0 a.readPos a.bytes.length + off

/-- Where a seek of the write cursor leads. -/
def writeTarget (a : CursorBlock) (off : Int) (way : Seekdir) : Int :=
  way.origin 0 a.writePos a.bytes.length + off

/-- The answer to a seek: the target, or `-1` where there is none. -/
def sought (a : CursorBlock) (target : Int) (moved : Option CursorBlock) :
    MemoryAnswer × CursorBlock :=
  match moved with
  | some a => (⟨target, []⟩, a)
  | none => (⟨-1, []⟩, a)

/-- The input bit selects the read cursor, also where both are set. -/
def seek (a : CursorBlock) (off : Int) (way : Seekdir) (which : Openmode) :
    MemoryAnswer × CursorBlock :=
  if which.input then a.sought (a.readTarget off way) (a.seekRead (a.readTarget off way))
  else if which.output then
    a.sought (a.writeTarget off way) (a.seekWrite (a.writeTarget off way))
  else (⟨-1, []⟩, a)

/-- What an array with two cursors answers. -/
def perform (a : CursorBlock) : MemoryCall → MemoryAnswer × CursorBlock
  | .sputn s => (⟨min s.val.length a.space, []⟩, a.put s.val)
  | .sgetn n => (⟨min n.val a.unread.length, a.unread.take n.val⟩, a.skip n.val)
  | .sputc ch => if 0 < a.space then (⟨ch.toNat, []⟩, a.put [ch]) else (⟨-1, []⟩, a)
  | .sbumpc =>
      match a.unread with
      | ch :: _ => (⟨ch.toNat, []⟩, a.skip 1)
      | [] => (⟨-1, []⟩, a)
  | .seekoff off way which => a.seek off.toInt way which
  | .seekpos sp which => a.seek sp.toInt .beg which

/-- A seek that moves the write cursor moves it to fewer than `2 ^ 31` bytes from the start. -/
def ShortSeek (a : CursorBlock) (off : Int) (way : Seekdir) (which : Openmode) : Prop :=
  which.input = false → which.output = true → a.writeTarget off way ≤ a.bytes.length →
    a.writeTarget off way < 2 ^ 31

/-- No transfer of `2 ^ 31` bytes or more, and no put position as far as that. -/
def Short (a : CursorBlock) : MemoryCall → Prop
  | .sputn s => min s.val.length a.space < 2 ^ 31
  | .sgetn n => min n.val a.unread.length < 2 ^ 31
  | .sputc _ => True
  | .sbumpc => True
  | .seekoff off way which => a.ShortSeek off.toInt way which
  | .seekpos sp which => a.ShortSeek sp.toInt .beg which

end Foundation.CursorBlock

namespace MemoryStreambuf

/-- The buffer is over the block, and its pointers are the cursors. -/
structure Represents (b : MemoryStreambuf) (a : CursorBlock) : Prop where
  memory_eq : b.memory = a.bytes
  gptr_eq : b.gptr = a.readPos
  pptr_eq : b.pptr = a.writePos
  size_lt : a.bytes.length < 2 ^ 63

variable {b : MemoryStreambuf} {a : CursorBlock}

theorem memoryStreambuf_represents (data : Object) :
    (memoryStreambuf data).Represents (.ofBytes data.val) :=
  ⟨rfl, rfl, rfl, data.property⟩

namespace Represents

/-- The put pointer follows the cursor over `count` bytes exactly if an `int` holds the count. -/
theorem pbump_iff (hrepresents : b.Represents a) {a' : CursorBlock} {count : Nat}
    (hread : a'.readPos = a.readPos) (hwrite : a'.writePos = a.writePos + count)
    (hsize : a'.bytes.length = a.bytes.length) {b' : MemoryStreambuf}
    (hmemory : b'.memory = a'.bytes) (hgptr : b'.gptr = b.gptr) (hpptr : b'.pptr = b.pptr) :
    (b'.pbump count).Represents a' ↔ count < 2 ^ 31 := by
  rw [← toInt32_natCast_iff]
  have hstart := hrepresents.pptr_eq
  constructor
  · intro hnext
    have hpbump := hnext.pptr_eq
    rw [pbump_pptr, hpptr, hstart, hwrite, Int.natCast_add] at hpbump
    exact Int.add_left_cancel hpbump
  · intro hexact
    apply Represents.mk
    · show b'.memory = a'.bytes
      exact hmemory
    · show b'.gptr = a'.readPos
      rw [hgptr, hread, hrepresents.gptr_eq]
    · rw [pbump_pptr, hexact, hpptr, hstart, hwrite, Int.natCast_add]
    · rw [hsize]
      exact hrepresents.size_lt

theorem gbump_iff (hrepresents : b.Represents a) {a' : CursorBlock} {count : Nat}
    (hread : a'.readPos = a.readPos + count) (hwrite : a'.writePos = a.writePos)
    (hbytes : a'.bytes = a.bytes) : (b.gbump count).Represents a' ↔ count < 2 ^ 31 := by
  rw [← toInt32_natCast_iff]
  have hstart := hrepresents.gptr_eq
  constructor
  · intro hnext
    have hgbump := hnext.gptr_eq
    rw [gbump_gptr, hstart, hread, Int.natCast_add] at hgbump
    exact Int.add_left_cancel hgbump
  · intro hexact
    apply Represents.mk
    · show b.memory = a'.bytes
      rw [hbytes, hrepresents.memory_eq]
    · rw [gbump_gptr, hexact, hstart, hread, Int.natCast_add]
    · show b.pptr = a'.writePos
      rw [hwrite, hrepresents.pptr_eq]
    · rw [hbytes]
      exact hrepresents.size_lt

/-! ## Transfers -/

/-- What is put: as much as there is between the cursor and the end. -/
theorem xsputn_eq (hrepresents : b.Represents a) (s : List UInt8) :
    b.xsputn s = (((min s.length a.space : Nat) : Int),
      (b.storeAtPptr (s.take a.space)).pbump (min s.length a.space : Nat)) := by
  have hle := a.writePos_le
  have havail : b.epptr - b.pptr = (a.space : Nat) := by
    rw [epptr, hrepresents.memory_eq, hrepresents.pptr_eq, CursorBlock.space]
    omega
  have hcount : (if ((a.space : Nat) : Int) < s.length then ((a.space : Nat) : Int)
      else s.length) = (min s.length a.space : Nat) := by
    split <;> omega
  have htake : s.take (min s.length a.space) = s.take a.space := by
    rw [Nat.min_comm, ← List.take_eq_take_min]
  simp only [xsputn, havail, hcount, Int.toNat_natCast, htake]

theorem xsgetn_eq (hrepresents : b.Represents a) (n : Nat) :
    b.xsgetn n = ((((min n a.unread.length : Nat) : Int), a.unread.take n),
      b.gbump (min n a.unread.length : Nat)) := by
  have hle := a.readPos_le
  have hlength : a.unread.length = a.bytes.length - a.readPos := List.length_drop
  have havail : b.egptr - b.gptr = (a.unread.length : Nat) := by
    rw [egptr, hrepresents.memory_eq, hrepresents.gptr_eq, hlength]
    omega
  have hcount : (if ((a.unread.length : Nat) : Int) < n then ((a.unread.length : Nat) : Int)
      else n) = (min n a.unread.length : Nat) := by
    split <;> omega
  have hslice : slice b.memory b.gptr.toNat (min n a.unread.length) = a.unread.take n := by
    rw [hrepresents.memory_eq, hrepresents.gptr_eq, Int.toNat_natCast, slice]
    exact List.take_eq_take_min.symm
  simp only [xsgetn, havail, hcount, Int.toNat_natCast, hslice]

theorem put_iff (hrepresents : b.Represents a) (s : List UInt8) :
    ((b.storeAtPptr (s.take a.space)).pbump (min s.length a.space : Nat)).Represents (a.put s) ↔
      min s.length a.space < 2 ^ 31 := by
  have hmemory : (b.storeAtPptr (s.take a.space)).memory = (a.put s).bytes := by
    show overwrite b.memory b.pptr.toNat _ = overwrite a.bytes a.writePos _
    rw [hrepresents.memory_eq, hrepresents.pptr_eq, Int.toNat_natCast]
  have hsize : (a.put s).bytes.length = a.bytes.length := overwrite_length _ _ _
  have hread : (a.put s).readPos = a.readPos := rfl
  exact hrepresents.pbump_iff hread rfl hsize hmemory rfl rfl

/-- One character is always within reach of an `int`. -/
theorem sputc (hrepresents : b.Represents a) (ch : UInt8) :
    (b.sputc ch).1 = (a.perform (.sputc ch)).1.result ∧
      (b.sputc ch).2.Represents (a.perform (.sputc ch)).2 := by
  have hle := a.writePos_le
  have hspace : b.pptr < b.epptr ↔ 0 < a.space := by
    rw [epptr, hrepresents.memory_eq, hrepresents.pptr_eq, CursorBlock.space]
    omega
  unfold MemoryStreambuf.sputc overflow CursorBlock.perform
  by_cases hroom : 0 < a.space
  · have hmin : min [ch].length a.space = 1 := by
      rw [List.length_singleton]
      omega
    have hput := hrepresents.put_iff [ch]
    rw [hmin, List.take_of_length_le (by rw [List.length_singleton]; omega)] at hput
    simp only [if_pos hroom, if_pos (hspace.mpr hroom)]
    exact ⟨trivial, hput.mpr (by decide)⟩
  · simp only [if_neg hroom, if_neg (mt hspace.mp hroom)]
    exact ⟨trivial, hrepresents⟩

theorem sbumpc (hrepresents : b.Represents a) :
    b.sbumpc.1 = (a.perform .sbumpc).1.result ∧
      b.sbumpc.2.Represents (a.perform .sbumpc).2 := by
  have hle := a.readPos_le
  have hlength : a.unread.length = a.bytes.length - a.readPos := List.length_drop
  have harea : b.gptr < b.egptr ↔ 0 < a.unread.length := by
    rw [egptr, hrepresents.memory_eq, hrepresents.gptr_eq, hlength]
    omega
  unfold MemoryStreambuf.sbumpc underflow CursorBlock.perform
  cases hunread : a.unread with
  | nil =>
      rw [hunread, List.length_nil] at harea
      simp only [if_neg (mt harea.mp (Nat.lt_irrefl 0)), if_true]
      exact ⟨trivial, hrepresents⟩
  | cons ch rest =>
      rw [hunread, List.length_cons] at harea
      have hchar : b.charAtGptr = ch := by
        rw [charAtGptr, hrepresents.memory_eq, hrepresents.gptr_eq, Int.toNat_natCast,
          List.getD_eq_getElem?_getD, ← List.head?_drop]
        show a.unread.head?.getD 0 = ch
        rw [hunread]
        rfl
      simp only [if_pos (harea.mpr (Nat.succ_pos _)), hchar]
      have hskip : (a.skip 1).readPos = a.readPos + 1 := by
        show a.readPos + min 1 a.unread.length = a.readPos + 1
        rw [hunread, List.length_cons]
        omega
      have hgbump : (b.gbump (1 : Nat)).Represents (a.skip 1) :=
        (hrepresents.gbump_iff hskip rfl rfl).mpr (by decide)
      exact ⟨trivial, hgbump⟩

/-! ## Seeks -/

/-- The read cursor is set to any target. -/
theorem seekoff_input (hrepresents : b.Represents a) {which : Openmode}
    (hinput : which.input = true) (off : Int) (way : Seekdir) :
    (⟨(b.seekoff off way which).1, []⟩ : MemoryAnswer) = (a.seek off way which).1 ∧
      (b.seekoff off way which).2.Represents (a.seek off way which).2 := by
  have htarget : way.origin 0 b.gptr b.egptr + off = a.readTarget off way := by
    rw [egptr, hrepresents.memory_eq, hrepresents.gptr_eq]
    rfl
  have hend : b.egptr = a.bytes.length := by rw [egptr, hrepresents.memory_eq]
  have habstract : a.seek off way which =
      a.sought (a.readTarget off way) (a.seekRead (a.readTarget off way)) := if_pos hinput
  rw [habstract, MemoryStreambuf.seekoff, if_pos hinput]
  simp only [htarget]
  rw [hend, CursorBlock.seekRead]
  by_cases hvalid : 0 ≤ a.readTarget off way ∧ a.readTarget off way ≤ a.bytes.length
  · -- `setg` takes the pointer itself
    rw [if_neg (by omega), dif_pos hvalid]
    refine ⟨rfl, hrepresents.memory_eq, ?_, hrepresents.pptr_eq, hrepresents.size_lt⟩
    exact (Int.toNat_of_nonneg hvalid.1).symm
  · rw [if_pos (by omega), dif_neg hvalid]
    exact ⟨rfl, hrepresents⟩

/-- The write cursor is set to a target exactly if an `int` holds it. -/
theorem seekoff_output (hrepresents : b.Represents a) {which : Openmode}
    (hinput : which.input = false) (houtput : which.output = true) (off : Int) (way : Seekdir) :
    (⟨(b.seekoff off way which).1, []⟩ : MemoryAnswer) = (a.seek off way which).1 ∧
      ((b.seekoff off way which).2.Represents (a.seek off way which).2 ↔
        (a.writeTarget off way ≤ a.bytes.length → a.writeTarget off way < 2 ^ 31)) := by
  have hclear : ¬which.input = true := by simp [hinput]
  have htarget : way.origin 0 b.pptr b.epptr + off = a.writeTarget off way := by
    rw [epptr, hrepresents.memory_eq, hrepresents.pptr_eq]
    rfl
  have hend : b.epptr = a.bytes.length := by rw [epptr, hrepresents.memory_eq]
  have habstract : a.seek off way which =
      a.sought (a.writeTarget off way) (a.seekWrite (a.writeTarget off way)) := by
    rw [CursorBlock.seek, if_neg hclear, if_pos houtput]
  rw [habstract, MemoryStreambuf.seekoff, if_neg hclear, if_pos houtput]
  simp only [htarget]
  rw [hend, CursorBlock.seekWrite]
  by_cases hvalid : 0 ≤ a.writeTarget off way ∧ a.writeTarget off way ≤ a.bytes.length
  · -- `pbump` takes the distance from the start, as an `int`
    have hint := toInt32_eq_iff hvalid.1
    have hnonneg := Int.toNat_of_nonneg hvalid.1
    rw [if_neg (by omega), dif_pos hvalid]
    refine ⟨rfl, ?_⟩
    constructor
    · intro hnext _
      have hnextPptr : 0 + toInt32 (a.writeTarget off way) =
          ((a.writeTarget off way).toNat : Int) := hnext.pptr_eq
      omega
    · intro hshort
      have hexact := hint.mpr (hshort hvalid.2)
      refine ⟨hrepresents.memory_eq, hrepresents.gptr_eq, ?_, hrepresents.size_lt⟩
      show 0 + toInt32 (a.writeTarget off way) = ((a.writeTarget off way).toNat : Int)
      omega
  · rw [if_pos (by omega), dif_neg hvalid]
    refine ⟨rfl, iff_of_true hrepresents fun hle => ?_⟩
    omega

/-- A seek is answered as the block answers it. -/
theorem seekoff_iff (hrepresents : b.Represents a) (off : Int) (way : Seekdir)
    (which : Openmode) :
    (⟨(b.seekoff off way which).1, []⟩ : MemoryAnswer) = (a.seek off way which).1 ∧
      ((b.seekoff off way which).2.Represents (a.seek off way which).2 ↔
        a.ShortSeek off way which) := by
  unfold CursorBlock.ShortSeek
  cases hinput : which.input with
  | true =>
      rcases hrepresents.seekoff_input hinput off way with ⟨hanswer, hnext⟩
      exact ⟨hanswer, iff_of_true hnext fun hclear => nomatch hclear⟩
  | false =>
      cases houtput : which.output with
      | true =>
          rcases hrepresents.seekoff_output hinput houtput off way with ⟨hanswer, hnext⟩
          exact ⟨hanswer, hnext.trans ⟨fun hshort _ _ => hshort, fun hshort => hshort rfl rfl⟩⟩
      | false =>
          have hneither : b.seekoff off way which = (-1, b) := by
            simp [MemoryStreambuf.seekoff, hinput, houtput]
          have habstract : a.seek off way which = (⟨-1, []⟩, a) := by
            simp [CursorBlock.seek, hinput, houtput]
          rw [hneither, habstract]
          exact ⟨rfl, iff_of_true hrepresents fun _ hset => nomatch hset⟩

/-! ## Runs -/

theorem perform_iff (hrepresents : b.Represents a) (call : MemoryCall) :
    ((b.perform call).1 = (a.perform call).1 ∧
      (b.perform call).2.Represents (a.perform call).2) ↔ a.Short call := by
  cases call with
  | sputn s =>
      have hput := hrepresents.put_iff s.val
      have hcount : ((min s.val.length a.space : Nat) : Int) =
          min (s.val.length : Int) a.space := by omega
      simp only [MemoryStreambuf.perform, CursorBlock.perform, hrepresents.xsputn_eq]
      constructor
      · rintro ⟨-, hnext⟩
        exact hput.mp hnext
      · intro hshort
        exact ⟨by rw [hcount], hput.mpr hshort⟩
  | sgetn n =>
      have hskip : (b.gbump (min n.val a.unread.length : Nat)).Represents (a.skip n.val) ↔
          min n.val a.unread.length < 2 ^ 31 := hrepresents.gbump_iff rfl rfl rfl
      have hcount : ((min n.val a.unread.length : Nat) : Int) =
          min (n.val : Int) a.unread.length := by omega
      simp only [MemoryStreambuf.perform, CursorBlock.perform, hrepresents.xsgetn_eq]
      constructor
      · rintro ⟨-, hnext⟩
        exact hskip.mp hnext
      · intro hshort
        exact ⟨by rw [hcount], hskip.mpr hshort⟩
  | sputc ch =>
      rcases hrepresents.sputc ch with ⟨hresult, hnext⟩
      refine iff_of_true ⟨?_, hnext⟩ trivial
      show (⟨(b.sputc ch).1, []⟩ : MemoryAnswer) = (a.perform (.sputc ch)).1
      rw [hresult]
      unfold CursorBlock.perform
      simp only
      split <;> rfl
  | sbumpc =>
      rcases hrepresents.sbumpc with ⟨hresult, hnext⟩
      refine iff_of_true ⟨?_, hnext⟩ trivial
      show (⟨b.sbumpc.1, []⟩ : MemoryAnswer) = (a.perform .sbumpc).1
      rw [hresult]
      unfold CursorBlock.perform
      simp only
      split <;> rfl
  | seekoff off way which =>
      rcases hrepresents.seekoff_iff off.toInt way which with ⟨hanswer, hnext⟩
      exact (and_iff_right hanswer).trans hnext
  | seekpos sp which =>
      rcases hrepresents.seekoff_iff sp.toInt .beg which with ⟨hanswer, hnext⟩
      exact (and_iff_right hanswer).trans hnext

end Represents

/-- **Two cursors.**  A run on a block of memory is the run of an array with two cursors exactly
if no transfer is of `2 ^ 31` bytes or more and no put position as far from the start. -/
theorem memory_refines_iff (data : Object) (calls : List MemoryCall) :
    RefinesThroughout perform CursorBlock.perform Represents (memoryStreambuf data)
        (.ofBytes data.val) calls ↔
      EachAllowed (fun a call => (a.perform call).2) CursorBlock.Short (.ofBytes data.val)
        calls :=
  refinesThroughout_iff (fun _ _ call hrepresents => hrepresents.perform_iff call)
    (memoryStreambuf_represents data)

/-- The put pointer is set through an `int`. -/
theorem perform_seekpos_output (b : MemoryStreambuf) {sp : Int64} (hlow : 0 ≤ sp.toInt)
    (hhigh : sp.toInt ≤ b.epptr) :
    b.perform (.seekpos sp ⟨false, true⟩) =
      (⟨sp.toInt, []⟩, { b with pptr := toInt32 sp.toInt }) := by
  have hinside : ¬(sp.toInt < 0 ∨ b.epptr < sp.toInt) := by omega
  simp only [perform, seekpos, seekoff, Seekdir.origin, if_neg hinside, Bool.false_eq_true,
    if_false, if_true, pbump, Int.zero_add]

/-- In a block of `2 ^ 31` bytes the put pointer is set to the end, and lies before the start. -/
theorem not_memory_refines :
    ∃ data : Object, data.val.length = 2 ^ 31 ∧
      let sought := (memoryStreambuf data).perform (.seekpos (2 ^ 31) ⟨false, true⟩)
      sought.1.result = 2 ^ 31 ∧ sought.2.pptr = -2 ^ 31 ∧
      ¬RefinesThroughout perform CursorBlock.perform Represents (memoryStreambuf data)
        (.ofBytes data.val) [.seekpos (2 ^ 31) ⟨false, true⟩] := by
  obtain ⟨bytes, hlength⟩ : ∃ bytes : List UInt8, bytes.length = 2 ^ 31 :=
    ⟨List.replicate (2 ^ 31) 0, List.length_replicate⟩
  have hsize : bytes.length < 2 ^ 63 := by
    rw [hlength]
    decide
  have hend : (memoryStreambuf ⟨bytes, hsize⟩).epptr = 2 ^ 31 := by
    rw [epptr, memoryStreambuf, hlength]
    decide
  have htarget : (2 ^ 31 : Int64).toInt = 2 ^ 31 := by decide
  have hbump : toInt32 (2 ^ 31) = -2 ^ 31 := by decide
  have hsought := (memoryStreambuf ⟨bytes, hsize⟩).perform_seekpos_output
    (by rw [htarget]; decide) (by rw [htarget, hend])
  rw [htarget, hbump] at hsought
  refine ⟨⟨bytes, hsize⟩, hlength, ?_⟩
  rw [hsought]
  refine ⟨rfl, rfl, ?_⟩
  rintro ⟨-, -, hrest⟩
  rw [hsought] at hrest
  -- the cursor of the array is never before the start
  have hpptr : (-2 ^ 31 : Int) = _ := hrest.start.pptr_eq
  have hnegative : (-2 ^ 31 : Int) < 0 := by decide
  rw [hpptr] at hnegative
  exact absurd (Int.natCast_nonneg _) (Int.not_le.mpr hnegative)

end MemoryStreambuf
end Iostreams
