import Iostreams.Archive.Stream
import Iostreams.Foundation.Run
import Mathlib.Data.List.Nodup

/-!
# Reading archive entries

`set_entry` empties and refills the vector behind the stream and marks the
buffer as dirty, which makes the next `underflow` start over.  It neither
resets the get area nor clears the error state of the stream.  So what is left
of the get area is delivered before the entry, and a stream that is not good
delivers nothing at all; otherwise reading does not depend on the history.

`unread` is what the buffer delivers: the rest of the get area, then the data
that `underflow` will find.
-/

namespace Iostreams

open Foundation

namespace MemoryBuffer

/-- The rest of the get area. -/
def stale (buf : MemoryBuffer) : List UInt8 :=
  match buf.getArea with
  | some area => (List.range' area.gptr (area.egptr - area.gptr)).map (buf.byteAt area.allocation)
  | none => []

/-- What `underflow` makes available once the get area is used up. -/
def fresh (buf : MemoryBuffer) : List UInt8 :=
  if buf.getArea.isNone ∨ buf.dirty then buf.data.elements else []

def unread (buf : MemoryBuffer) : List UInt8 := buf.stale ++ buf.fresh

theorem available_some {buf : MemoryBuffer} {area : GetArea} (harea : buf.getArea = some area) :
    buf.available = area.egptr - area.gptr := by
  rw [available, harea]

theorem stale_length (buf : MemoryBuffer) : buf.stale.length = buf.available := by
  cases harea : buf.getArea with
  | none => simp [stale, available, harea]
  | some area => simp [stale, available, harea]

theorem stale_of_available {buf : MemoryBuffer} (hnone : buf.available = 0) : buf.stale = [] :=
  List.eq_nil_of_length_eq_zero (by rw [stale_length, hnone])

/-- The get area `underflow` sets up is the data. -/
theorem elements_eq (buf : MemoryBuffer) :
    buf.data.elements = (List.range' 0 buf.data.size).map (buf.byteAt buf.data.allocation) := by
  have hle := buf.data.size_le
  apply List.ext_getElem
  · rw [CharVector.elements, List.length_take, List.length_map, List.length_range']
    omega
  · intro i hleft hright
    have hi : i < buf.data.storage.length := by
      rw [List.length_map, List.length_range'] at hright
      omega
    simp [CharVector.elements, byteAt, hi]

/-! ## Single characters -/

/-- Without anything left in the get area, `underflow` decides. -/
theorem sbumpc_exhausted {buf : MemoryBuffer} (hnone : buf.available = 0) :
    buf.sbumpc.1 = buf.fresh.head? ∧ buf.sbumpc.2.unread = buf.fresh.tail := by
  have hsgetc : buf.sgetc = buf.underflow := by
    cases harea : buf.getArea with
    | none => rw [sgetc, harea]
    | some area =>
        rw [available_some harea] at hnone
        rw [sgetc, harea]
        exact if_neg (by omega)
  rw [sbumpc, hsgetc, underflow, fresh]
  -- `underflow` sets the get area anew over what was loaded, or leaves it used up
  by_cases hrefill : buf.getArea.isNone ∨ buf.dirty
  · rw [if_pos hrefill, if_pos hrefill]
    by_cases hsize : buf.data.size = 0
    · have helements : buf.data.elements = [] := by simp [CharVector.elements, hsize]
      have hstale : ({ buf with dirty := false } : MemoryBuffer).stale = [] :=
        stale_of_available hnone
      rw [if_pos hsize, helements]
      refine ⟨rfl, ?_⟩
      simp [unread, hstale, fresh, helements]
    · obtain ⟨size, hsucc⟩ := Nat.exists_eq_succ_of_ne_zero hsize
      rw [if_neg hsize, elements_eq, hsucc, List.range'_succ]
      refine ⟨rfl, ?_⟩
      simp [unread, stale, fresh, bump, byteAt]
  · rw [if_neg hrefill, if_neg hrefill]
    have hstale : buf.stale = [] := stale_of_available hnone
    cases harea : buf.getArea with
    | none => simp [harea] at hrefill
    | some area =>
        rw [available_some harea] at hnone
        have hle : area.egptr ≤ area.gptr := by omega
        simp only [hle, if_true]
        refine ⟨rfl, ?_⟩
        rw [unread, hstale, fresh, if_neg hrefill]
        rfl

/-- One character is the next one that is unread. -/
theorem sbumpc_eq (buf : MemoryBuffer) :
    buf.sbumpc.1 = buf.unread.head? ∧ buf.sbumpc.2.unread = buf.unread.tail := by
  by_cases hnone : buf.available = 0
  · rw [unread, stale_of_available hnone]
    exact sbumpc_exhausted hnone
  · cases harea : buf.getArea with
    | none => simp [available, harea] at hnone
    | some area =>
        obtain ⟨left, hleft⟩ := Nat.exists_eq_succ_of_ne_zero hnone
        rw [available_some harea] at hleft
        have hlt : area.gptr < area.egptr := by omega
        have hstale : buf.stale = buf.byteAt area.allocation area.gptr ::
            (List.range' (area.gptr + 1) left).map (buf.byteAt area.allocation) := by
          simp [stale, harea, hleft, List.range'_succ]
        have hrest : area.egptr - (area.gptr + 1) = left := by omega
        rw [sbumpc, sgetc, harea]
        simp only [hlt, if_true]
        have hbump : buf.bump.stale =
            (List.range' (area.gptr + 1) left).map (buf.byteAt area.allocation) := by
          simp only [stale, bump, harea, Option.map_some, hrest]
          rfl
        have hfresh : buf.bump.fresh = buf.fresh := by simp [fresh, bump, harea]
        exact ⟨by simp [unread, hstale], by simp [unread, hstale, hbump, hfresh]⟩

theorem sbumpc_some {buf next : MemoryBuffer} {c : UInt8} (hnext : buf.sbumpc = (some c, next)) :
    buf.unread = c :: next.unread := by
  obtain ⟨hchar, hrest⟩ := buf.sbumpc_eq
  rw [hnext] at hchar hrest
  cases hunread : buf.unread with
  | nil =>
      rw [hunread] at hchar
      cases hchar
  | cons byte rest =>
      rw [hunread] at hchar hrest
      obtain rfl : c = byte := Option.some.inj hchar
      exact congrArg (List.cons c) hrest.symm

theorem sbumpc_none {buf next : MemoryBuffer} (hnext : buf.sbumpc = (none, next)) :
    buf.unread = [] ∧ next.unread = [] := by
  obtain ⟨hchar, hrest⟩ := buf.sbumpc_eq
  rw [hnext] at hchar hrest
  have hunread : buf.unread = [] := List.head?_eq_none_iff.mp hchar.symm
  rw [hunread] at hrest
  exact ⟨hunread, hrest⟩

/-! ## Blocks -/

theorem xsgetn_eq (count : Nat) (buf : MemoryBuffer) :
    (buf.xsgetn count).1 = buf.unread.take count ∧
      (buf.xsgetn count).2.unread = buf.unread.drop count := by
  induction count generalizing buf with
  | zero => exact ⟨by simp [xsgetn], by simp [xsgetn]⟩
  | succ count ih =>
      unfold xsgetn
      split
      · next next hnext =>
          obtain ⟨hunread, hrest⟩ := sbumpc_none hnext
          exact ⟨by simp [hunread], by simp [hunread, hrest]⟩
      · next c next hnext =>
          obtain ⟨hbytes, hrest⟩ := ih next
          rw [sbumpc_some hnext]
          exact ⟨by simp [hbytes], by simp [hrest]⟩

/-- The loop of `std::istreambuf_iterator` up to the end of the data. -/
def readToEnd (buf : MemoryBuffer) : List UInt8 × MemoryBuffer :=
  match _hnext : buf.sbumpc with
  | (none, next) => ([], next)
  | (some c, next) =>
      let (bytes, last) := readToEnd next
      (c :: bytes, last)
termination_by buf.unread.length
decreasing_by
  rw [sbumpc_some _hnext]
  exact Nat.lt_succ_self _

theorem readToEnd_none {buf next : MemoryBuffer} (hnext : buf.sbumpc = (none, next)) :
    buf.readToEnd = ([], next) := by
  unfold readToEnd
  split
  · next next' hsame =>
      rw [hnext] at hsame
      cases hsame
      rfl
  · next c next' hother =>
      rw [hnext] at hother
      cases hother

theorem readToEnd_some {buf next : MemoryBuffer} {c : UInt8}
    (hnext : buf.sbumpc = (some c, next)) :
    buf.readToEnd = (c :: next.readToEnd.1, next.readToEnd.2) := by
  rw [readToEnd]
  split
  · next next' hother =>
      rw [hnext] at hother
      cases hother
  · next c' next' hsame =>
      rw [hnext] at hsame
      cases hsame
      rfl

theorem readToEnd_eq (buf : MemoryBuffer) :
    buf.readToEnd.1 = buf.unread ∧ buf.readToEnd.2.unread = [] := by
  induction buf using readToEnd.induct with
  | case1 buf next hnext =>
      obtain ⟨hunread, hrest⟩ := sbumpc_none hnext
      rw [readToEnd_none hnext, hunread]
      exact ⟨rfl, hrest⟩
  | case2 buf c next hnext _ _ _ ih =>
      obtain ⟨hall, hnone⟩ := ih
      rw [readToEnd_some hnext, sbumpc_some hnext, hall]
      exact ⟨rfl, hnone⟩

end MemoryBuffer

/-! ## The stream -/

/-- The entries `libarchive` finds. -/
structure Archive where
  entries : List (String × List UInt8)
  names_nodup : (entries.map Prod.fst).Nodup

structure ArchiveStream where
  archive : Archive
  io : IOStream MemoryBuffer
  entryName : String := ""

namespace ArchiveStream

/-- `archive_stream(archivePath, std::ios::in)` -/
def openArchive (archive : Archive) (junk : Nat → Nat → UInt8) : ArchiveStream where
  archive := archive
  io := { rdbuf := MemoryBuffer.create junk }

def setBuffer (a : ArchiveStream) (buffer : MemoryBuffer) : ArchiveStream :=
  { a with io := { a.io with rdbuf := buffer } }

/-- `set_entry(name)`; `openError` is the message of `libarchive` where the file cannot be
opened. -/
def setEntry (a : ArchiveStream) (name : String) (openError : Option String) :
    Except String Unit × ArchiveStream :=
  let buffer := { a.io.rdbuf with data := a.io.rdbuf.data.clear, pos := 0, dirty := true }
  let a := { a.setBuffer buffer with entryName := name }
  match openError with
  | some what => (.error what, a)
  | none =>
      match a.archive.entries.find? (fun entry => decide (a.entryName = entry.1)) with
      | some (_, content) =>
          let data := (buffer.data.resize content.length).copyFrom content
          (.ok (), a.setBuffer { buffer with data })
      | none => (.error ("Entry not found in archive: " ++ a.entryName), a)

/-- `get_entry_string()`, which does not consult the state of the stream. -/
def getEntryString (a : ArchiveStream) : List UInt8 × ArchiveStream :=
  let (bytes, buffer) := a.io.rdbuf.readToEnd
  (bytes, a.setBuffer buffer)

/-- `read(dest, count)`: the `gcount` bytes stored at `dest`. -/
def read (a : ArchiveStream) (count : Nat) : List UInt8 × ArchiveStream :=
  let (bytes, io) := a.io.read count
  (bytes, { a with io })

end ArchiveStream

/-- A read through the stream. -/
inductive EntryRead where
  | read (count : Nat)
  | getEntryString

def ArchiveStream.perform (a : ArchiveStream) : EntryRead → List UInt8 × ArchiveStream
  | .read count => a.read count
  | .getEntryString => a.getEntryString

/-- A call of the history of a stream. -/
inductive ArchiveCall where
  | setEntry (name : String) (openError : Option String)
  | reading (request : EntryRead)

def ArchiveStream.call (a : ArchiveStream) :
    ArchiveCall → (Except String Unit ⊕ List UInt8) × ArchiveStream
  | .setEntry name openError =>
      let (result, a) := a.setEntry name openError
      (.inl result, a)
  | .reading request =>
      let (bytes, a) := a.perform request
      (.inr bytes, a)

/-- Reading an entry of which `content` is left. -/
def deliver (content : List UInt8) : EntryRead → List UInt8 × List UInt8
  | .read count => (content.take count, content.drop count)
  | .getEntryString => (content, [])

namespace ArchiveStream

variable {a : ArchiveStream}

/-- The reads after now deliver exactly `content`. -/
def Delivers (a : ArchiveStream) (content : List UInt8) : Prop :=
  ∀ requests, (runModel perform a requests).1 = (runModel deliver content requests).1

/-- The next read is served as if `content` were left. -/
def Serves (a : ArchiveStream) (content : List UInt8) : Prop :=
  a.io.rdbuf.unread = content ∧ (a.io.good = true ∨ content = [])

theorem Serves.perform {content : List UInt8} (hserves : a.Serves content) (request : EntryRead) :
    (a.perform request).1 = (deliver content request).1 ∧
      (a.perform request).2.Serves (deliver content request).2 := by
  obtain ⟨rfl, hgood⟩ := hserves
  cases request with
  | getEntryString =>
      obtain ⟨hall, hnone⟩ := a.io.rdbuf.readToEnd_eq
      exact ⟨hall, hnone, Or.inr rfl⟩
  | read count =>
      obtain ⟨hbytes, hrest⟩ := a.io.rdbuf.xsgetn_eq count
      have hget : Streambuf.sgetn a.io.rdbuf (count : Int) = a.io.rdbuf.xsgetn count := rfl
      by_cases hstate : a.io.good = true
      · have hread := IOStream.read_of_good hstate (hget.trans (Prod.ext hbytes rfl))
        simp only [ArchiveStream.perform, read, hread, deliver, Serves]
        refine ⟨trivial, by rw [IOStream.rdbuf_afterRead, hrest], ?_⟩
        rw [IOStream.good_afterRead hstate, List.length_take]
        by_cases hshort : a.io.rdbuf.unread.length ≤ count
        · exact Or.inr (List.drop_eq_nil_of_le hshort)
        · exact Or.inl (decide_eq_true (by omega))
      · have hunread : a.io.rdbuf.unread = [] := hgood.resolve_left hstate
        have hread := IOStream.read_of_not_good (Bool.eq_false_of_not_eq_true hstate) (count : Int)
        simp only [ArchiveStream.perform, read, hread, deliver, Serves, hunread]
        simp

/-- A stream that serves a content delivers it. -/
theorem Serves.delivers {content : List UInt8} (hserves : a.Serves content) :
    a.Delivers content := by
  intro requests
  exact runModel_eq_runModel (fun state left request hstate => hstate.perform request) requests
    hserves

/-- Delivering a content means to serve it: two reads tell. -/
theorem delivers_iff_serves {content stale : List UInt8}
    (hunread : a.io.rdbuf.unread = stale ++ content) :
    a.Delivers content ↔ stale = [] ∧ (a.io.good = true ∨ content = []) := by
  constructor
  · intro hdelivers
    have hall : a.io.rdbuf.readToEnd.1 = content := by
      have hstring := hdelivers [.getEntryString]
      exact List.head_eq_of_cons_eq hstring
    rw [a.io.rdbuf.readToEnd_eq.1, hunread] at hall
    have hstale : stale = [] := by simpa using hall
    refine ⟨hstale, ?_⟩
    by_contra hother
    rw [not_or] at hother
    obtain ⟨hstate, hcontent⟩ := hother
    have hblock := hdelivers [.read content.length]
    have hread := IOStream.read_of_not_good (Bool.eq_false_of_not_eq_true hstate)
      (content.length : Int)
    have hnothing : [] = content.take content.length := by
      simpa [runModel, ArchiveStream.perform, read, hread, deliver] using hblock
    rw [List.take_length] at hnothing
    exact hcontent hnothing.symm
  · rintro ⟨rfl, hgood⟩
    exact Serves.delivers ⟨hunread, hgood⟩

/-! ## Selecting an entry -/

theorem size_resize (v : CharVector) (count : Nat) : (v.resize count).size = count := by
  rw [CharVector.resize]
  split <;> rfl

/-- The vector is refilled with the whole entry. -/
theorem elements_copyFrom {v : CharVector} {bytes : List UInt8} (hsize : v.size = bytes.length) :
    (v.copyFrom bytes).elements = bytes := by
  have hle := v.size_le
  rw [hsize] at hle
  rw [CharVector.elements, CharVector.copyFrom]
  simp only [hsize]
  rw [overwrite_eq (by omega)]
  simp

theorem find_entry (archive : Archive) {name : String} {content : List UInt8}
    (hentry : (name, content) ∈ archive.entries) :
    archive.entries.find? (fun entry => decide (name = entry.1)) = some (name, content) := by
  cases hfind : archive.entries.find? (fun entry => decide (name = entry.1)) with
  | none =>
      have hother := List.find?_eq_none.mp hfind (name, content) hentry
      simp at hother
  | some entry =>
      have hname : name = entry.1 := by simpa using List.find?_some hfind
      have hmem := List.mem_of_find?_eq_some hfind
      rw [List.inj_on_of_nodup_map archive.names_nodup hmem hentry hname.symm]

/-- A selected entry is unread behind what is left of the get area. -/
theorem setEntry_unread {name : String} {content : List UInt8}
    (hentry : (name, content) ∈ a.archive.entries) :
    ∃ stale, (a.setEntry name none).1 = .ok () ∧
      (a.setEntry name none).2.io.rdbuf.unread = stale ++ content ∧
      stale.length = a.io.rdbuf.available ∧
      (a.setEntry name none).2.io.good = a.io.good := by
  have hfind := find_entry a.archive hentry
  have helements : ((a.io.rdbuf.data.clear.resize content.length).copyFrom content).elements =
      content := elements_copyFrom (size_resize _ _)
  refine ⟨(a.setEntry name none).2.io.rdbuf.stale, ?_, ?_, ?_, ?_⟩
  · simp [setEntry, setBuffer, hfind]
  · unfold MemoryBuffer.unread
    simp [setEntry, setBuffer, hfind, MemoryBuffer.fresh, helements]
  · rw [MemoryBuffer.stale_length]
    simp [setEntry, setBuffer, hfind, MemoryBuffer.available]
  · simp [setEntry, setBuffer, hfind, IOStream.good]

/-- After an entry was selected, exactly its content is delivered if and only if nothing
was left in the get area and the stream was good, or the entry is empty. -/
theorem delivers_setEntry_iff {name : String} {content : List UInt8}
    (hentry : (name, content) ∈ a.archive.entries) :
    (a.setEntry name none).2.Delivers content ↔
      a.io.rdbuf.available = 0 ∧ (a.io.good = true ∨ content = []) := by
  obtain ⟨stale, -, hunread, hlength, hgood⟩ := setEntry_unread hentry
  rw [delivers_iff_serves hunread, hgood, ← hlength, List.length_eq_zero_iff]

/-! ## Histories -/

theorem archive_call (a : ArchiveStream) (request : ArchiveCall) :
    (a.call request).2.archive = a.archive := by
  cases request with
  | setEntry name openError =>
      simp only [call, setEntry, setBuffer]
      split
      · rfl
      · split <;> rfl
  | reading request => cases request <;> rfl

/-- The stream after a history of calls. -/
def after (archive : Archive) (junk : Nat → Nat → UInt8) (history : List ArchiveCall) :
    ArchiveStream :=
  (runModel call (openArchive archive junk) history).2

theorem archive_after (archive : Archive) (junk : Nat → Nat → UInt8)
    (history : List ArchiveCall) : (after archive junk history).archive = archive := by
  refine runModel_preserves (fun a : ArchiveStream => a.archive = archive) ?_ history rfl
  intro a request harchive
  rw [archive_call, harchive]

/-- After every history an entry can be selected, and then exactly its content is
delivered if and only if the history left nothing in the get area and a good stream, or
the entry is empty. -/
theorem reading_after_history_iff (archive : Archive) (junk : Nat → Nat → UInt8)
    (history : List ArchiveCall) {name : String} {content : List UInt8}
    (hentry : (name, content) ∈ archive.entries) :
    let a := after archive junk history
    (a.setEntry name none).1 = .ok () ∧
      ((a.setEntry name none).2.Delivers content ↔
        a.io.rdbuf.available = 0 ∧ (a.io.good = true ∨ content = [])) := by
  intro a
  rw [← archive_after archive junk history] at hentry
  obtain ⟨stale, hok, -⟩ := setEntry_unread hentry
  exact ⟨hok, delivers_setEntry_iff hentry⟩

/-- Two entries of two bytes each. -/
def twoEntries : Archive := ⟨[("a.txt", [97, 98]), ("b.txt", [99, 100])], by decide⟩

/-- A complete read of one entry, then the other one. -/
theorem reading_after_history_iff_complete :
    let a := after twoEntries (fun _ _ => 0) [.setEntry "a.txt" none, .reading (.read 2)]
    (a.setEntry "b.txt" none).1 = .ok () ∧
      ((a.setEntry "b.txt" none).2.Delivers [99, 100] ↔
        a.io.rdbuf.available = 0 ∧ (a.io.good = true ∨ ([99, 100] : List UInt8) = [])) :=
  reading_after_history_iff twoEntries (fun _ _ => 0)
    [.setEntry "a.txt" none, .reading (.read 2)]
    (show ("b.txt", [99, 100]) ∈ twoEntries.entries by decide)

/-- A partial read of one entry spoils the other one. -/
theorem partialRead_spoils :
    let a := after twoEntries (fun _ _ => 0) [.setEntry "a.txt" none, .reading (.read 1)]
    (a.setEntry "b.txt" none).1 = .ok () ∧ ¬(a.setEntry "b.txt" none).2.Delivers [99, 100] := by
  intro a
  have hentry : ("b.txt", [99, 100]) ∈ a.archive.entries := by
    rw [archive_after]
    decide
  have havailable : a.io.rdbuf.available = 1 := by decide +kernel
  obtain ⟨stale, hok, -⟩ := setEntry_unread hentry
  refine ⟨hok, fun hdelivers => ?_⟩
  have hnone := ((delivers_setEntry_iff hentry).mp hdelivers).1
  omega

end ArchiveStream
end Iostreams
