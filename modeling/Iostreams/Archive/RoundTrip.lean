import Iostreams.Archive.Reading
import Iostreams.Archive.Writing
import Iostreams.Serial.AnyRegistry

/-!
# From the writing stream to the reading one

`libarchive` is between the two: `found` is what it finds in a file that was written with
some calls.  A `Libarchive` finds the records it was given, with the names its format
keeps.

A reader that looks entries up and reads each one to the end leaves nothing in the get
area, so that one visit never spoils the next one.  `AtEnd` is what a visit needs and what
it restores; it carries the induction over a list of visits.
-/

namespace Iostreams

open Foundation ArchiveWriter ArchiveWrite
open AnyRegistry (textOf)

/-! ## The file -/

/-- What `libarchive` finds in a file: the pathname and the data of each entry. -/
structure Libarchive where
  found : List LibarchiveCall → List (List UInt8 × List UInt8)
  /-- The pathnames the format keeps as they are. -/
  keeps : List UInt8 → Prop
  found_records : ∀ written : List (List UInt8 × List UInt8),
    (∀ entry ∈ written, keeps (cString entry.1)) →
      found (written.flatMap record ++ [.close, .free]) =
        written.map fun entry => (cString entry.1, entry.2)

/-- The file `archive` holds what `libarchive` finds after `calls`. -/
def Archive.WrittenBy (archive : Archive) (lib : Libarchive) (calls : List LibarchiveCall) :
    Prop :=
  archive.entries = (lib.found calls).map fun entry => (textOf entry.1, entry.2)

namespace ArchiveStream

/-- `list_entries()`, which opens the file once more; `openError` is the message of
`libarchive` where that fails. -/
def listEntries (a : ArchiveStream) (openError : Option String) : Except String (List String) :=
  match openError with
  | some what => .error what
  | none => .ok (a.archive.entries.foldl (fun entries entry => entries ++ [entry.1]) [])

/-- `set_entry(name)` and `get_entry_string()`, as a loop over the entries does. -/
def visit (a : ArchiveStream) (name : String) :
    (Except String Unit × List UInt8) × ArchiveStream :=
  let (result, a) := a.setEntry name none
  let (bytes, a) := a.getEntryString
  ((result, bytes), a)

theorem listEntries_eq (a : ArchiveStream) :
    a.listEntries none = .ok (a.archive.entries.map Prod.fst) := by
  have hfold : ∀ (entries : List (String × List UInt8)) (names : List String),
      entries.foldl (fun names entry => names ++ [entry.1]) names =
        names ++ entries.map Prod.fst := by
    intro entries
    induction entries with
    | nil => exact fun names => (List.append_nil names).symm
    | cons entry entries ih =>
        intro names
        rw [List.foldl_cons, ih, List.append_assoc]
        rfl
  rw [listEntries, hfold, List.nil_append]

/-- Nothing is left in the get area. -/
def AtEnd (archive : Archive) (a : ArchiveStream) : Prop :=
  a.archive = archive ∧ a.io.rdbuf.available = 0

variable {archive : Archive} {a : ArchiveStream}

/-- A visit delivers the entry and uses it up. -/
theorem AtEnd.visit (hend : a.AtEnd archive) {name : String} {content : List UInt8}
    (hentry : (name, content) ∈ archive.entries) :
    (a.visit name).1 = (.ok (), content) ∧ (a.visit name).2.AtEnd archive := by
  obtain ⟨rfl, hnone⟩ := hend
  obtain ⟨stale, hok, hunread, hlength, -⟩ := setEntry_unread hentry
  have hstale : stale = [] := List.eq_nil_of_length_eq_zero (hlength.trans hnone)
  rw [hstale, List.nil_append] at hunread
  obtain ⟨hbytes, hrest⟩ := (a.setEntry name none).2.io.rdbuf.readToEnd_eq
  have hkept : (a.setEntry name none).2.archive = a.archive :=
    archive_call a (.setEntry name none)
  refine ⟨?_, hkept, ?_⟩
  · rw [ArchiveStream.visit]
    simp only [getEntryString, hok, hbytes, hunread]
  · -- what was read to the end has no rest in the get area
    have hleft : (a.visit name).2.io.rdbuf.stale = [] :=
      (List.append_eq_nil_iff.mp hrest).1
    rw [← MemoryBuffer.stale_length, hleft]
    rfl

/-- Visits in any order, and again, each deliver their entry. -/
theorem AtEnd.visits (hend : a.AtEnd archive) {entries : List (String × List UInt8)}
    (hentries : ∀ entry ∈ entries, entry ∈ archive.entries) :
    (runModel ArchiveStream.visit a (entries.map Prod.fst)).1 =
      entries.map fun entry => (.ok (), entry.2) := by
  induction entries generalizing a with
  | nil => rfl
  | cons entry entries ih =>
      obtain ⟨hanswer, hnext⟩ := hend.visit (hentries entry List.mem_cons_self)
      have hrest := ih hnext fun later hlater => hentries later (List.mem_cons_of_mem _ hlater)
      simp only [List.map_cons, runModel, hanswer, hrest]

theorem atEnd_openArchive (archive : Archive) (junk : Nat → Nat → UInt8) :
    (openArchive archive junk).AtEnd archive := ⟨rfl, rfl⟩

end ArchiveStream

namespace ArchiveWriter

/-- What the calls of a session that starts with `set_entry` record. -/
theorem found_session (lib : Libarchive) (junk : Nat → Nat → UInt8) (name : List UInt8)
    (calls : List ArchiveWrite)
    (hkeeps : ∀ entry ∈ entries (.setEntry name :: calls), lib.keeps (cString entry.1)) :
    lib.found ((openArchive junk).session (.setEntry name :: calls)) =
      (entries (.setEntry name :: calls)).map fun entry => (cString entry.1, entry.2) := by
  have hsession : (openArchive junk).session (.setEntry name :: calls) =
      (entries (.setEntry name :: calls)).flatMap record ++ [.close, .free] :=
    (pending_openArchive junk name).session calls
  rw [hsession, lib.found_records _ hkeeps]

/-- Whatever a session writes that starts with `set_entry` and gives its entries different
names, a stream that opens the file lists exactly these names in the order of the
`set_entry` calls, and every sequence of visits to entries delivers, for each, exactly the
bytes written between its `set_entry` and the next one. -/
theorem written_read_back (lib : Libarchive) (junk junk' : Nat → Nat → UInt8)
    (name : List UInt8) (calls : List ArchiveWrite)
    (hkeeps : ∀ entry ∈ entries (.setEntry name :: calls), lib.keeps (cString entry.1))
    {archive : Archive}
    (hfile : archive.WrittenBy lib ((openArchive junk).session (.setEntry name :: calls)))
    {visited : List (List UInt8 × List UInt8)}
    (hvisited : ∀ entry ∈ visited, entry ∈ entries (.setEntry name :: calls)) :
    let reader := ArchiveStream.openArchive archive junk'
    reader.listEntries none =
        .ok ((entries (.setEntry name :: calls)).map fun entry => textOf (cString entry.1)) ∧
      (runModel ArchiveStream.visit reader
          (visited.map fun entry => textOf (cString entry.1))).1 =
        visited.map fun entry => (.ok (), entry.2) := by
  intro reader
  have hentries : archive.entries = (entries (.setEntry name :: calls)).map
      fun entry => (textOf (cString entry.1), entry.2) := by
    rw [hfile, found_session lib junk name calls hkeeps, List.map_map]
    rfl
  constructor
  · rw [ArchiveStream.listEntries_eq]
    have hnames : reader.archive.entries = archive.entries := rfl
    rw [hnames, hentries, List.map_map]
    rfl
  · have hmem : ∀ entry ∈ visited.map fun entry => (textOf (cString entry.1), entry.2),
        entry ∈ archive.entries := by
      intro entry hentry
      obtain ⟨source, hsource, rfl⟩ := List.mem_map.mp hentry
      rw [hentries]
      exact List.mem_map_of_mem (hvisited source hsource)
    have hvisits := (ArchiveStream.atEnd_openArchive archive junk').visits hmem
    rw [List.map_map, List.map_map] at hvisits
    exact hvisits

/-- The entries of the records among the calls. -/
def records : List LibarchiveCall → List (List UInt8 × List UInt8)
  | .header entry :: .data bytes :: rest => (entry.pathname, bytes) :: records rest
  | _ => []

/-- A format that keeps every name. -/
def keepingAll : Libarchive where
  found := records
  keeps _ := True
  found_records written _ := by
    induction written with
    | nil => rfl
    | cons entry rest ih => exact congrArg (List.cons _) (ih fun _ _ => trivial)

/-- Two entries, the second one visited before the first and once more. -/
theorem written_read_back_two :
    let calls := [.write [0, 255], .setEntry [98], .setEntry [99], .write [1]]
    let archive : Archive := ⟨[("a", [0, 255]), ("b", []), ("c", [1])], by decide⟩
    let reader := ArchiveStream.openArchive archive fun _ _ => 0
    reader.listEntries none =
        .ok ((entries (.setEntry [97] :: calls)).map fun entry => textOf (cString entry.1)) ∧
      (runModel ArchiveStream.visit reader ([([99], [1]), ([97], [0, 255]), ([99], [1])].map
          fun entry => textOf (cString entry.1))).1 =
        [([99], [1]), ([97], [0, 255]), ([99], [1])].map
          fun entry : List UInt8 × List UInt8 => (.ok (), entry.2) := by
  intro calls archive reader
  have hfile : archive.WrittenBy keepingAll
      ((openArchive fun _ _ => 0).session (.setEntry [97] :: calls)) := by
    rw [Archive.WrittenBy]
    decide +kernel
  have hvisited : ∀ entry ∈ ([([99], [1]), ([97], [0, 255]), ([99], [1])] :
      List (List UInt8 × List UInt8)), entry ∈ entries (.setEntry [97] :: calls) := by
    simp [calls, entries, leading]
  exact written_read_back keepingAll (fun _ _ => 0) (fun _ _ => 0) [97] calls
    (fun _ _ => trivial) hfile hvisited

end ArchiveWriter
end Iostreams
