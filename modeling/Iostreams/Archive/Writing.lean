import Iostreams.Archive.Stream

/-!
# Writing archive entries

`ArchiveWriter` is an `archive_stream` opened for output.  `set_entry` starts a
pending entry and an empty buffer, writes append to the buffer, and the entry is
handed to `libarchive` only once its size is known: by the next `set_entry`, or by
the destructor.  `libarchive` is the list of the calls it received.

`Pending a name content` says that the entry `name` is pending and `content` was
written to it so far.  It is what one write extends, what `set_entry` closes, and
what carries the induction over a sequence of calls.
-/

namespace Iostreams

open Foundation

/-! ## Characters as integers -/

/-- `EOF`, the value of `traits_type::eof()` -/
def eof : Int := -1

/-- `traits_type::to_int_type(c)`, which goes through `unsigned char` -/
def toIntType (c : UInt8) : Int := c.toNat

/-- `static_cast<char>(ch)` -/
def toCharType (ch : Int) : UInt8 := UInt8.ofNat (ch % 256).toNat

/-- No character is taken for the end of the input, not even `0xFF`. -/
theorem toIntType_ne_eof (c : UInt8) : toIntType c ≠ eof := by
  rw [toIntType, eof]
  omega

theorem toCharType_toIntType (c : UInt8) : toCharType (toIntType c) = c := by
  have hlt := c.toNat_lt
  have hmod : ((c.toNat : Int) % 256).toNat = c.toNat := by omega
  rw [toCharType, toIntType, hmod, UInt8.ofNat_toNat]

theorem CharVector.elements_clear (v : CharVector) : v.clear.elements = [] := List.take_zero

theorem CharVector.elements_pushBack (v : CharVector) (c : UInt8) :
    (v.pushBack c).elements = v.elements ++ [c] := by
  have hsize := v.size_le
  have hlength : v.elements.length = v.size := by
    rw [elements, List.length_take, Nat.min_eq_left hsize]
  unfold pushBack
  by_cases hfits : v.size < v.storage.length
  · rw [dif_pos hfits, elements]
    simp only
    rw [overwrite_eq (by rw [List.length_singleton]; omega)]
    have hfront : (v.storage.take v.size ++ [c]).length = v.size + 1 := by
      rw [List.length_append, List.length_take, List.length_singleton]
      omega
    rw [← hfront, List.take_left]
    rfl
  · -- a larger storage begins with the old elements
    rw [dif_neg hfits, elements]
    simp only
    have hfront : (v.elements ++ [c]).length = v.size + 1 := by
      rw [List.length_append, hlength, List.length_singleton]
    rw [← hfront, List.take_left]

namespace MemoryBuffer

/-- `overflow(ch)` -/
def overflowInt (buf : MemoryBuffer) (ch : Int) : Int × MemoryBuffer :=
  (ch, if ch ≠ eof then { buf with data := buf.data.pushBack (toCharType ch) } else buf)

/-- The default `xsputn` without a put area: each character goes through `overflow`, up to
the first one that is refused. -/
def xsputn : List UInt8 → MemoryBuffer → Nat × MemoryBuffer
  | [], buf => (0, buf)
  | c :: rest, buf =>
      -- `traits_type::to_int_type` keeps `0xFF` apart from `eof`
      let (result, buf) := buf.overflowInt (toIntType c)
      if result = eof then (0, buf)
      else
        let (count, buf) := xsputn rest buf
        (count + 1, buf)

theorem overflowInt_toIntType (buf : MemoryBuffer) (c : UInt8) :
    buf.overflowInt (toIntType c) = (toIntType c, buf.overflow c) := by
  rw [overflowInt, if_pos (toIntType_ne_eof c), toCharType_toIntType]
  rfl

/-- Every character is taken. -/
theorem sputn_eq_xsputn (buf : MemoryBuffer) (src : List UInt8) :
    Streambuf.sputn buf src = (((xsputn src buf).1 : Int), (xsputn src buf).2) := by
  have htaken : xsputn src buf = (src.length, src.foldl overflow buf) := by
    induction src generalizing buf with
    | nil => rfl
    | cons c rest ih =>
        rw [xsputn, overflowInt_toIntType]
        simp only [toIntType_ne_eof, if_false, ih]
        rfl
  rw [htaken]
  rfl

theorem elements_xsputn (src : List UInt8) (buf : MemoryBuffer) :
    (xsputn src buf).1 = src.length ∧
      (xsputn src buf).2.data.elements = buf.data.elements ++ src := by
  induction src generalizing buf with
  | nil => exact ⟨rfl, (List.append_nil _).symm⟩
  | cons c rest ih =>
      obtain ⟨hcount, helements⟩ := ih (buf.overflow c)
      rw [xsputn, overflowInt_toIntType]
      simp only [toIntType_ne_eof, if_false, hcount, helements, List.length_cons]
      refine ⟨trivial, ?_⟩
      rw [overflow, CharVector.elements_pushBack, List.append_assoc, List.singleton_append]

end MemoryBuffer

/-! ## The writer -/

/-- `AE_IFREG` -/
def aeIfreg : Nat := 0o100000

/-- An `archive_entry`, with the fields the stream sets. -/
structure ArchiveEntry where
  pathname : List UInt8 := []
  size : Nat := 0
  filetype : Nat := 0
  perm : Nat := 0
  deriving DecidableEq, Repr

/-- The calls `libarchive` receives on an archive that is written. -/
inductive LibarchiveCall where
  /-- `archive_write_header` -/
  | header (entry : ArchiveEntry)
  /-- `archive_write_data` -/
  | data (bytes : List UInt8)
  /-- `archive_write_close` -/
  | close
  /-- `archive_write_free` -/
  | free
  deriving DecidableEq, Repr

structure ArchiveWriter where
  archive : List LibarchiveCall := []
  entry : Option ArchiveEntry := none
  entryName : List UInt8 := []
  io : IOStream MemoryBuffer

/-- The string `c_str()` points to, for a reader that stops at the first zero. -/
def cString (str : List UInt8) : List UInt8 := str.takeWhile fun c => c != 0

namespace ArchiveWriter

/-- `archive_stream(archivePath, std::ios::out)` -/
def openArchive (junk : Nat → Nat → UInt8) : ArchiveWriter where
  io := { rdbuf := MemoryBuffer.create junk }

def flushWrite (a : ArchiveWriter) : ArchiveWriter :=
  match a.entry with
  | none => a
  | some entry =>
      let data := a.io.rdbuf.data
      let entry := { entry with size := data.size, filetype := aeIfreg, perm := 0o644 }
      { a with
        entry := some entry
        archive := a.archive ++ [.header entry, .data data.elements] }

def setEntry (a : ArchiveWriter) (name : List UInt8) : ArchiveWriter :=
  let a := if a.entry.isSome then { a.flushWrite with entry := none } else a
  let buffer := { a.io.rdbuf with data := a.io.rdbuf.data.clear, pos := 0, dirty := true }
  { a with
    io := { a.io with rdbuf := buffer }
    entryName := name
    entry := some { pathname := cString name } }

/-- `write(src, src.length)` -/
def write (a : ArchiveWriter) (src : List UInt8) : ArchiveWriter :=
  { a with io := a.io.write src }

/-- `~archive_stream()`: all calls `libarchive` received. -/
def destroy (a : ArchiveWriter) : List LibarchiveCall :=
  let a := if a.entry.isSome then a.flushWrite else a
  a.archive ++ [.close, .free]

end ArchiveWriter

/-- A call on a stream that writes an archive. -/
inductive ArchiveWrite where
  | setEntry (name : List UInt8)
  | write (src : List UInt8)
  deriving DecidableEq, Repr

namespace ArchiveWriter

def perform (a : ArchiveWriter) : ArchiveWrite → ArchiveWriter
  | .setEntry name => a.setEntry name
  | .write src => a.write src

/-- The calls in order, then the destructor. -/
def session (a : ArchiveWriter) (calls : List ArchiveWrite) : List LibarchiveCall :=
  (calls.foldl perform a).destroy

end ArchiveWriter

/-! ## What is recorded -/

namespace ArchiveWrite

/-- The bytes written before the next `set_entry`. -/
def leading : List ArchiveWrite → List UInt8
  | .write src :: rest => src ++ leading rest
  | _ => []

/-- The name of each `set_entry` with the bytes written between it and the next one. -/
def entries : List ArchiveWrite → List (List UInt8 × List UInt8)
  | [] => []
  | .setEntry name :: rest => (name, leading rest) :: entries rest
  | .write _ :: rest => entries rest

/-- The header and the data of an entry. -/
def record (entry : List UInt8 × List UInt8) : List LibarchiveCall :=
  let header := {
    pathname := cString entry.1
    size := entry.2.length
    filetype := aeIfreg
    perm := 0o644 }
  [.header header, .data entry.2]

end ArchiveWrite

namespace ArchiveWriter

open ArchiveWrite

variable {a : ArchiveWriter} {name content : List UInt8}

/-- The entry `name` is pending, and `content` was written to it. -/
structure Pending (a : ArchiveWriter) (name content : List UInt8) : Prop where
  entry : a.entry = some { pathname := cString name }
  elements : a.io.rdbuf.data.elements = content
  good : a.io.good = true

theorem Pending.size (hpending : a.Pending name content) :
    a.io.rdbuf.data.size = content.length := by
  have hsize := a.io.rdbuf.data.size_le
  rw [← hpending.elements, CharVector.elements, List.length_take, Nat.min_eq_left hsize]

theorem Pending.write (hpending : a.Pending name content) (src : List UInt8) :
    (a.write src).Pending name (content ++ src) := by
  obtain ⟨hcount, helements⟩ := MemoryBuffer.elements_xsputn src a.io.rdbuf
  have hgood := hpending.good
  have hwrite : a.io.write src =
      { a.io with rdbuf := (MemoryBuffer.xsputn src a.io.rdbuf).2 } := by
    rw [IOStream.write, if_pos hgood, MemoryBuffer.sputn_eq_xsputn]
    simp only [hcount, if_true]
  refine ⟨hpending.entry, ?_, ?_⟩
  · rw [ArchiveWriter.write, hwrite, ← hpending.elements]
    exact helements
  · rw [ArchiveWriter.write, hwrite]
    exact hgood

/-- Flushing hands over the pending entry with everything written to it. -/
theorem Pending.flushWrite (hpending : a.Pending name content) :
    a.flushWrite.archive = a.archive ++ record (name, content) ∧
      a.flushWrite.io = a.io := by
  simp only [ArchiveWriter.flushWrite, hpending.entry, hpending.size, hpending.elements, record]
  exact ⟨trivial, trivial⟩

theorem Pending.setEntry (hpending : a.Pending name content) (next : List UInt8) :
    (a.setEntry next).archive = a.archive ++ record (name, content) ∧
      (a.setEntry next).Pending next [] := by
  obtain ⟨harchive, hio⟩ := hpending.flushWrite
  have hsome : a.entry.isSome = true := by rw [hpending.entry]; rfl
  have hgood := hpending.good
  rw [← hio] at hgood
  rw [ArchiveWriter.setEntry, if_pos hsome]
  exact ⟨harchive, rfl, CharVector.elements_clear _, hgood⟩

theorem pending_openArchive (junk : Nat → Nat → UInt8) (name : List UInt8) :
    ((openArchive junk).setEntry name).Pending name [] :=
  ⟨rfl, CharVector.elements_clear _, rfl⟩

theorem Pending.destroy (hpending : a.Pending name content) :
    a.destroy = a.archive ++ record (name, content) ++ [.close, .free] := by
  have hsome : a.entry.isSome = true := by rw [hpending.entry]; rfl
  rw [ArchiveWriter.destroy, if_pos hsome, hpending.flushWrite.1]

/-- A session that starts with a pending entry records it, completed by the leading writes,
and then every entry that is still to come. -/
theorem Pending.session (hpending : a.Pending name content) (calls : List ArchiveWrite) :
    a.session calls = a.archive ++ record (name, content ++ leading calls) ++
      (entries calls).flatMap record ++ [.close, .free] := by
  induction calls generalizing a name content with
  | nil =>
      rw [ArchiveWriter.session, List.foldl_nil, hpending.destroy]
      simp [leading, entries]
  | cons call rest ih =>
      have hstep : a.session (call :: rest) = (a.perform call).session rest := rfl
      rw [hstep]
      cases call with
      | write src =>
          -- the pending entry grows, and is still the one that is recorded next
          have hrest := ih (hpending.write src)
          rw [List.append_assoc content] at hrest
          exact hrest
      | setEntry next =>
          -- the pending entry is recorded here, and the new one is pending
          obtain ⟨harchive, hnext⟩ := hpending.setEntry next
          have hrest := ih hnext
          rw [harchive] at hrest
          rw [perform, hrest]
          simp [leading, entries]

/-- **Every entry is recorded once.**  Whatever is written after a first `set_entry`,
`libarchive` receives the header and the data of each entry in the order of the `set_entry`
calls, the size and the data being the bytes written before the next one. -/
theorem session_records_entries (junk : Nat → Nat → UInt8) (name : List UInt8)
    (calls : List ArchiveWrite) :
    (openArchive junk).session (.setEntry name :: calls) =
      (entries (.setEntry name :: calls)).flatMap record ++ [.close, .free] := by
  have hsession := (pending_openArchive junk name).session calls
  exact hsession

/-- An entry with the bytes `0x00` and `0xFF` in two writes, and one without a write. -/
example : entries [.setEntry [97], .write [0, 255], .write [1], .setEntry [98]] =
    [([97], [0, 255, 1]), ([98], [])] := by
  decide

end ArchiveWriter
end Iostreams
