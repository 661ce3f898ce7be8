import Iostreams.Foundation.StandardStream

/-!
# The archive stream

`ArchiveStream` is an `archive_stream` opened for input.  What `libarchive`
finds in the file is the list of its entries.  The stream reads from a
`MemoryBuffer`, whose get area points into the storage of the vector `data`.
Clearing and refilling the vector does not touch the get area: the storage may
have been replaced meanwhile, and then the get area points into a block that
was given back.  What such a block holds, and what new storage holds, is
`junk`.
-/

namespace Iostreams

open Foundation

/-- The cells of `std::vector<char>`; a new allocation has a new number. -/
structure CharVector where
  allocation : Nat
  storage : List UInt8
  size : Nat
  size_le : size ≤ storage.length

namespace CharVector

/-- The elements. -/
def elements (v : CharVector) : List UInt8 := v.storage.take v.size

/-- `clear()` keeps the storage. -/
def clear (v : CharVector) : CharVector := { v with size := 0, size_le := Nat.zero_le _ }

/-- `resize(count)` fills with zeros; a larger storage is allocated where the elements
do not fit. -/
def resize (v : CharVector) (count : Nat) : CharVector :=
  let filled := v.elements ++ List.replicate (count - v.size) 0
  if hfits : count ≤ v.storage.length then
    { v with
      storage := overwrite v.storage 0 (filled.take count)
      size := count
      size_le := by rw [overwrite_length]; exact hfits }
  else
    { allocation := v.allocation + 1
      storage := filled
      size := count
      size_le := by
        have hsize := v.size_le
        simp only [filled, elements, List.length_append, List.length_take, List.length_replicate]
        omega }

/-- A copy to `data()`. -/
def copyFrom (v : CharVector) (bytes : List UInt8) : CharVector :=
  { v with
    storage := overwrite v.storage 0 bytes
    size_le := by rw [overwrite_length]; exact v.size_le }

/-- `push_back(c)` doubles the storage where it is full. -/
def pushBack (v : CharVector) (c : UInt8) : CharVector :=
  if hfits : v.size < v.storage.length then
    { v with
      storage := overwrite v.storage v.size [c]
      size := v.size + 1
      size_le := by rw [overwrite_length]; exact hfits }
  else
    { allocation := v.allocation + 1
      storage := v.elements ++ [c] ++ List.replicate (v.size - 1) 0
      size := v.size + 1
      size_le := by
        have hsize := v.size_le
        simp only [elements, List.length_append, List.length_take, List.length_singleton,
          List.length_replicate]
        omega }

end CharVector

/-- `gptr()` and `egptr()`, as offsets into an allocation. -/
structure GetArea where
  allocation : Nat
  gptr : Nat
  egptr : Nat

structure MemoryBuffer where
  data : CharVector
  getArea : Option GetArea := none
  pos : Nat := 0
  dirty : Bool := true
  /-- What memory holds that is not in use. -/
  junk : Nat → Nat → UInt8

namespace MemoryBuffer

/-- The constructor, with `data.reserve(4096)`. -/
def create (junk : Nat → Nat → UInt8) : MemoryBuffer where
  data := ⟨0, (List.range 4096).map (junk 0), 0, Nat.zero_le _⟩
  junk := junk

/-- The byte an offset into an allocation points to. -/
def byteAt (buf : MemoryBuffer) (allocation offset : Nat) : UInt8 :=
  if allocation = buf.data.allocation then
    buf.data.storage.getD offset (buf.junk allocation offset)
  else buf.junk allocation offset

def overflow (buf : MemoryBuffer) (ch : UInt8) : MemoryBuffer :=
  { buf with data := buf.data.pushBack ch }

def underflow (buf : MemoryBuffer) : Option UInt8 × MemoryBuffer :=
  if buf.getArea.isNone ∨ buf.dirty then
    if buf.data.size = 0 then (none, { buf with dirty := false })
    else
      let area := ⟨buf.data.allocation, 0, buf.data.size⟩
      (some (buf.byteAt area.allocation area.gptr),
        { buf with dirty := false, getArea := some area })
  else
    match buf.getArea with
    | some area =>
        if area.egptr ≤ area.gptr then (none, buf)
        else (some (buf.byteAt area.allocation area.gptr), buf)
    | none => (none, buf)

/-- The bytes left in the get area. -/
def available (buf : MemoryBuffer) : Nat :=
  match buf.getArea with
  | some area => area.egptr - area.gptr
  | none => 0

/-- `gbump(1)` -/
def bump (buf : MemoryBuffer) : MemoryBuffer :=
  { buf with getArea := buf.getArea.map fun area => { area with gptr := area.gptr + 1 } }

/-- `sgetc()` -/
def sgetc (buf : MemoryBuffer) : Option UInt8 × MemoryBuffer :=
  match buf.getArea with
  | some area =>
      if area.gptr < area.egptr then (some (buf.byteAt area.allocation area.gptr), buf)
      else buf.underflow
  | none => buf.underflow

/-- `sbumpc()`, with the default `uflow`. -/
def sbumpc (buf : MemoryBuffer) : Option UInt8 × MemoryBuffer :=
  match buf.sgetc with
  | (some c, buf) => (some c, buf.bump)
  | (none, buf) => (none, buf)

/-- `xsgetn`, as repeated calls of `sbumpc`. -/
def xsgetn : Nat → MemoryBuffer → List UInt8 × MemoryBuffer
  | 0, buf => ([], buf)
  | count + 1, buf =>
      match buf.sbumpc with
      | (none, buf) => ([], buf)
      | (some c, buf) =>
          let (bytes, buf) := xsgetn count buf
          (c :: bytes, buf)

/-- Output goes through `overflow`; `seekoff`, `seekpos` and `sync` are those of the
base class. -/
instance : Streambuf MemoryBuffer where
  sgetn buf count := buf.xsgetn count.toNat
  inAvail buf := buf.available
  sputn buf src := (src.length, src.foldl overflow buf)
  tellIn _ := -1
  seekIn buf _ := (-1, buf)
  tellOut _ := -1
  seekOut buf _ := (-1, buf)
  sync buf := some buf

end MemoryBuffer
end Iostreams
