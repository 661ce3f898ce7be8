import Iostreams.Foundation.Ownership
import Iostreams.Archive.RoundTrip

/-!
# The handles of `libarchive`

An `archive_stream` that writes holds an archive from its constructor to its destructor, and an
entry from its first `set_entry`; one that reads holds neither, since `list_entries` and `set_entry`
open the file anew and free the archive when they are done.

Where the file cannot be opened, `list_entries` throws without freeing the archive, the constructor
throws before there is a destructor, and `set_entry` asks an archive that it has freed for the
message.
-/

namespace Iostreams

open Foundation

inductive ArchiveResource where
  /-- `archive_read_new` -/
  | reader
  /-- `archive_write_new` -/
  | writer
  /-- `archive_entry_new` -/
  | entry
  deriving DecidableEq, Repr

abbrev ArchiveRef := ArchiveResource × Nat

/-- What `archive_read_open_filename` finds: a message, or the entries of the file. -/
abbrev ArchiveFile := Except String (List (String × List UInt8))

/-- The members of an `archive_stream`, for input or for output and not for both; one that reads has
null pointers. -/
inductive ArchiveMembers where
  | input
  | output (archive : ArchiveRef) (entry : Option ArchiveRef)

namespace ArchiveMembers

/-- The constructor for output, up to `archive_write_open_filename`. -/
def initWriter (openError : Option String) :
    Owning ArchiveResource (Except String ArchiveMembers) := do
  let archive ← Owning.obtain .writer
  -- the format, the filter and the file
  Owning.touch archive
  match openError with
  | some what => do
      -- archive_error_string
      Owning.touch archive
      pure (.error what)
  | none => pure (.ok (.output archive none))

/-- The loop of `list_entries`, from `archive_read_next_header` on. -/
def listNames (arc : ArchiveRef) (names : List String) :
    List (String × List UInt8) → Owning ArchiveResource (List String)
  | [] => do
      Owning.touch arc
      pure names
  | (name, _) :: entries => do
      Owning.touch arc
      -- archive_read_data_skip
      Owning.touch arc
      listNames arc (names ++ [name]) entries

def listEntries (file : ArchiveFile) : Owning ArchiveResource (Except String (List String)) := do
  let arc ← Owning.obtain .reader
  Owning.touch arc
  match file with
  | .error what => do
      Owning.touch arc
      pure (.error what)
  | .ok entries => do
      let names ← listNames arc [] entries
      Owning.touch arc
      Owning.release arc
      pure (.ok names)

/-- The loop of `set_entry`. -/
def findEntry (arc : ArchiveRef) (entryName : String) :
    List (String × List UInt8) → Owning ArchiveResource (Option (List UInt8))
  | [] => do
      Owning.touch arc
      pure none
  | (name, content) :: entries => do
      Owning.touch arc
      if entryName = name then do
        -- archive_read_data
        Owning.touch arc
        pure (some content)
      else do
        Owning.touch arc
        findEntry arc entryName entries

/-- `set_entry` for input: the data of the entry. -/
def readEntry (entryName : String) (file : ArchiveFile) :
    Owning ArchiveResource (Except String (List UInt8)) := do
  let arc ← Owning.obtain .reader
  Owning.touch arc
  match file with
  | .error what => do
      Owning.release arc
      -- archive_error_string
      Owning.touch arc
      pure (.error what)
  | .ok entries => do
      let content ← findEntry arc entryName entries
      Owning.touch arc
      Owning.release arc
      match content with
      | some content => pure (.ok content)
      | none => pure (.error ("Entry not found in archive: " ++ entryName))

/-- `flush_write()` -/
def flushWrite (archive entry : ArchiveRef) : Owning ArchiveResource Unit := do
  Owning.touch entry
  Owning.touch archive

/-- `set_entry` for output. -/
def writeEntry (archive : ArchiveRef) (entry : Option ArchiveRef) :
    Owning ArchiveResource ArchiveMembers := do
  match entry with
  | some entry => do
      flushWrite archive entry
      Owning.release entry
  | none => pure ()
  let entry ← Owning.obtain .entry
  -- archive_entry_set_pathname
  Owning.touch entry
  pure (.output archive (some entry))

/-- `~archive_stream()` -/
def destroy : ArchiveMembers → Owning ArchiveResource Unit
  | .input => pure ()
  | .output archive entry => do
      match entry with
      | some entry => flushWrite archive entry
      | none => pure ()
      Owning.touch archive
      Owning.release archive
      Owning.ifPresent Owning.release entry

end ArchiveMembers

inductive ArchiveProgramCall where
  | openInput
  | openOutput (openError : Option String)
  | listEntries (index : Nat) (file : ArchiveFile)
  | setEntry (index : Nat) (name : String) (file : ArchiveFile)
  | destroy (index : Nat)

namespace ArchiveProgramCall

/-- A call of a program on the streams that it has; what throws leaves them as they are. -/
def perform (streams : List ArchiveMembers) :
    ArchiveProgramCall → Owning ArchiveResource (List ArchiveMembers)
  | .openInput => pure (streams ++ [.input])
  | .openOutput openError => do
      let result ← ArchiveMembers.initWriter openError
      match result with
      | .ok members => pure (streams ++ [members])
      | .error _ => pure streams
  | .listEntries index file =>
      match streams[index]? with
      | some .input => do
          let _ ← ArchiveMembers.listEntries file
          pure streams
      | _ => pure streams
  | .setEntry index name file =>
      match streams[index]? with
      | some .input => do
          let _ ← ArchiveMembers.readEntry name file
          pure streams
      | some (.output archive entry) => do
          let members ← ArchiveMembers.writeEntry archive entry
          pure (streams.set index members)
      | none => pure streams
  | .destroy index =>
      match streams[index]? with
      | some members => do
          members.destroy
          pure (streams.eraseIdx index)
      | none => pure streams

/-- An archive that could not be opened is not freed. -/
def lostBy (streams : List ArchiveMembers) : ArchiveProgramCall → Multiset ArchiveResource
  | .openOutput openError => kindIf .writer openError.isSome
  | .listEntries index file =>
      match streams[index]? with
      | some .input => kindIf .reader !file.isOk
      | _ => 0
  | _ => 0

/-- An entry is read from a file that can be opened. -/
def Allowed (streams : List ArchiveMembers) : ArchiveProgramCall → Prop
  | .setEntry index _ (.error _) => streams[index]? ≠ some .input
  | _ => True

end ArchiveProgramCall

/-- What a stream has; nobody but its members names it. -/
def ArchiveMembers.owned : ArchiveMembers → Multiset (ArchiveResource × Nat)
  | .input => 0
  | .output archive entry => archive ::ₘ present entry

def ownedByArchives (streams : List ArchiveMembers) : Multiset (ArchiveResource × Nat) :=
  (streams.map ArchiveMembers.owned).sum

theorem ownedByArchives_of_getElem {streams : List ArchiveMembers} {index : Nat}
    {members : ArchiveMembers} (hget : streams[index]? = some members) :
    ownedByArchives streams = members.owned + ownedByArchives (streams.eraseIdx index) ∧
      ∀ other, ownedByArchives (streams.set index other) =
        other.owned + ownedByArchives (streams.eraseIdx index) :=
  sum_of_getElem hget ArchiveMembers.owned

namespace ArchiveMembers

variable {arc : ArchiveRef} {owned : Multiset (ArchiveResource × Nat)}

/-! ## Reading -/

theorem spends_touch (arc : ArchiveRef) (owned : Multiset (ArchiveResource × Nat)) :
    Spends (arc ::ₘ owned) (Owning.touch arc) (fun _ => arc ::ₘ owned) 0 :=
  Spends.touch (Multiset.mem_cons_self arc owned)

/-- The loop over the entries keeps the archive open. -/
theorem spends_listNames (names : List String) (entries : List (String × List UInt8)) :
    Spends (arc ::ₘ owned) (listNames arc names entries) (fun _ => arc ::ₘ owned) 0 := by
  have htouch := spends_touch arc owned
  induction entries generalizing names with
  | nil => exact htouch.seq fun _ => Spends.pure names fun _ => arc ::ₘ owned
  | cons entry entries ih => exact htouch.seq fun _ => htouch.seq fun _ => ih (names ++ [entry.1])

theorem spends_findEntry (entryName : String) (entries : List (String × List UInt8)) :
    Spends (arc ::ₘ owned) (findEntry arc entryName entries) (fun _ => arc ::ₘ owned) 0 := by
  have htouch := spends_touch arc owned
  induction entries with
  | nil => exact htouch.seq fun _ => Spends.pure none fun _ => arc ::ₘ owned
  | cons entry entries ih =>
      refine htouch.seq fun _ => ?_
      split
      · exact htouch.seq fun _ => Spends.pure (some entry.2) fun _ => arc ::ₘ owned
      · exact htouch.seq fun _ => ih

/-- `list_entries` frees its archive, unless the file could not be opened. -/
theorem spends_listEntries (file : ArchiveFile) (owned : Multiset (ArchiveResource × Nat)) :
    Spends owned (listEntries file) (fun _ => owned) (kindIf .reader !file.isOk) := by
  refine (Spends.obtain .reader owned).seqReturning (returns_obtain _) fun arc hkind => ?_
  have htouch := spends_touch arc owned
  refine htouch.seq fun _ => ?_
  cases file with
  | error what =>
      refine htouch.seq fun _ => Spends.leave _ (Multiset.singleton_add arc owned ▸ add_comm _ _) ?_
      rw [Multiset.map_singleton, hkind]
      rfl
  | ok entries =>
      exact (spends_listNames [] entries).seq fun names => htouch.seq fun _ =>
        (Spends.release arc owned).seq fun _ => Spends.pure _ fun _ => owned

/-- `set_entry` frees its archive where the file can be opened. -/
theorem spends_readEntry (entryName : String) (entries : List (String × List UInt8))
    (owned : Multiset (ArchiveResource × Nat)) :
    Spends owned (readEntry entryName (.ok entries)) (fun _ => owned) 0 := by
  refine (Spends.obtain .reader owned).seq fun arc => ?_
  have htouch := spends_touch arc owned
  refine htouch.seq fun _ => (spends_findEntry entryName entries).seq fun content => ?_
  refine htouch.seq fun _ => (Spends.release arc owned).seq fun _ => ?_
  cases content with
  | some content => exact Spends.pure _ fun _ => owned
  | none => exact Spends.pure _ fun _ => owned

/-- Where it cannot, the message is that of an archive that was freed. -/
theorem faults_readEntry (entryName what : String) (owned : Multiset (ArchiveResource × Nat)) :
    Faults owned (readEntry entryName (.error what)) := by
  refine Faults.after (Spends.obtain .reader owned) fun arc =>
    Faults.after (spends_touch arc owned) fun _ => Faults.released arc owned ?_
  intro ledger hgone
  exact Owning.bind_eq_none (if_neg hgone) _

theorem returns_findEntry (arc : ArchiveRef) (entryName : String)
    (entries : List (String × List UInt8)) :
    Returns (findEntry arc entryName entries) fun content =>
      content = (entries.find? fun entry => decide (entryName = entry.1)).map Prod.snd := by
  induction entries with
  | nil => exact returns_fixed _ _
  | cons entry entries ih =>
      refine Returns.after _ fun _ => ?_
      by_cases hname : entryName = entry.1
      · simp only [List.find?_cons, hname, decide_true]
        exact returns_fixed _ _
      · simp only [List.find?_cons, hname, decide_false]
        exact Returns.after _ fun _ => ih

theorem returns_listNames (arc : ArchiveRef) (names : List String)
    (entries : List (String × List UInt8)) :
    Returns (listNames arc names entries) fun result =>
      result = entries.foldl (fun names entry => names ++ [entry.1]) names := by
  induction entries generalizing names with
  | nil => exact returns_fixed _ _
  | cons entry entries ih =>
      exact Returns.after _ fun _ => Returns.after _ fun _ => ih (names ++ [entry.1])

/-- The results are those of the stream on the same file. -/
theorem returns_listEntries (a : ArchiveStream) :
    Returns (listEntries (.ok a.archive.entries)) fun result => result = a.listEntries none := by
  refine Returns.after _ fun arc => Returns.after _ fun _ =>
    (returns_listNames arc [] a.archive.entries).bind fun names hnames =>
    Returns.after _ fun _ => Returns.after _ fun _ => ?_
  obtain rfl := hnames
  exact Returns.pure rfl

theorem returns_readEntry (a : ArchiveStream) (entryName : String) :
    Returns (readEntry entryName (.ok a.archive.entries)) fun result =>
      result.map (fun _ => ()) = (a.setEntry entryName none).1 := by
  refine Returns.after _ fun arc => Returns.after _ fun _ =>
    (returns_findEntry arc entryName a.archive.entries).bind fun content hcontent =>
    Returns.after _ fun _ => Returns.after _ fun _ => ?_
  unfold ArchiveStream.setEntry
  cases hfind : a.archive.entries.find? fun entry => decide (entryName = entry.1) with
  | none =>
      rw [hfind] at hcontent
      obtain rfl := hcontent
      simp only [ArchiveStream.setBuffer, hfind]
      exact Returns.pure rfl
  | some entry =>
      rw [hfind] at hcontent
      obtain rfl := hcontent
      simp only [ArchiveStream.setBuffer, hfind]
      exact Returns.pure rfl

/-! ## Writing -/

variable {archive : ArchiveRef} {entry : Option ArchiveRef}

/-- The constructor keeps the archive, or throws and leaves it behind. -/
theorem spends_initWriter (openError : Option String) (owned : Multiset (ArchiveResource × Nat)) :
    Spends owned (initWriter openError)
      (fun result => match result with
        | .ok members => members.owned + owned
        | .error _ => owned)
      (kindIf .writer openError.isSome) := by
  refine (Spends.obtain .writer owned).seqReturning (returns_obtain _) fun archive hkind => ?_
  have htouch := spends_touch archive owned
  refine htouch.seq fun _ => ?_
  cases openError with
  | some what =>
      refine htouch.seq fun _ =>
        Spends.leave _ (Multiset.singleton_add archive owned ▸ add_comm _ _) ?_
      rw [Multiset.map_singleton, hkind]
      rfl
  | none =>
      refine Spends.stop _ ?_
      show archive ::ₘ owned = archive ::ₘ 0 + owned
      rw [Multiset.cons_add, zero_add]

theorem spends_flushWrite (archive entry : ArchiveRef) (owned : Multiset (ArchiveResource × Nat)) :
    Spends (archive ::ₘ entry ::ₘ owned) (flushWrite archive entry)
      (fun _ => archive ::ₘ entry ::ₘ owned) 0 := by
  have hentry : entry ∈ archive ::ₘ entry ::ₘ owned :=
    Multiset.mem_cons_of_mem (Multiset.mem_cons_self entry owned)
  exact (Spends.touch hentry).seq fun _ => spends_touch archive (entry ::ₘ owned)

/-- `set_entry` flushes and frees the entry there is, and has a new one. -/
theorem spends_writeEntry (archive : ArchiveRef) (entry : Option ArchiveRef) :
    Spends (output archive entry).owned (writeEntry archive entry) ArchiveMembers.owned 0 := by
  have hnew : Spends ({archive} : Multiset ArchiveRef)
      (do
        let entry ← Owning.obtain ArchiveResource.entry
        Owning.touch entry
        pure (output archive (some entry))) ArchiveMembers.owned 0 := by
    refine (Spends.obtain .entry {archive}).seq fun next => ?_
    exact (spends_touch next {archive}).seq fun _ =>
      Spends.stop _ (Multiset.cons_swap next archive 0)
  cases entry with
  | none => exact (Spends.pure () fun _ => {archive}).seq fun _ => hnew
  | some entry =>
      have hfree : Spends (archive ::ₘ entry ::ₘ 0) (Owning.release entry)
          (fun _ => {archive}) 0 := by
        rw [Multiset.cons_swap]
        exact Spends.release entry {archive}
      exact (spends_flushWrite archive entry 0).seq fun _ => hfree.seq fun _ => hnew

/-- The destructor gives everything back. -/
theorem spends_destroy (members : ArchiveMembers) :
    Spends members.owned members.destroy (fun _ => 0) 0 := by
  cases members with
  | input => exact Spends.pure () fun _ => 0
  | output archive entry =>
      have hfree : Spends (archive ::ₘ present entry)
          (do
            Owning.touch archive
            Owning.release archive
            Owning.ifPresent Owning.release entry) (fun _ => 0) 0 := by
        refine (spends_touch archive (present entry)).seq fun _ =>
          (Spends.release archive (present entry)).seq fun _ => ?_
        have hentry := Spends.releasePresent entry 0
        rwa [add_zero] at hentry
      cases entry with
      | none => exact (Spends.pure () fun _ => {archive}).seq fun _ => hfree
      | some entry => exact (spends_flushWrite archive entry 0).seq fun _ => hfree

end ArchiveMembers

namespace ArchiveProgramCall

/-- What a call does to the handles of the program. -/
theorem spends_perform (streams : List ArchiveMembers) (call : ArchiveProgramCall)
    (hallowed : call.Allowed streams) :
    Spends (ownedByArchives streams) (call.perform streams) ownedByArchives
      (call.lostBy streams) := by
  have happend (members : ArchiveMembers) :
      members.owned + ownedByArchives streams = ownedByArchives (streams ++ [members]) :=
    (sum_concat streams members ArchiveMembers.owned).symm
  cases call with
  | openInput => exact Spends.stop _ ((zero_add _).symm.trans (happend .input))
  | openOutput openError =>
      -- a writer whose file cannot be opened is left behind
      have hinit := ArchiveMembers.spends_initWriter openError (ownedByArchives streams)
      refine (hinit.bind fun result => ?_).congr rfl (fun _ => rfl) (add_zero _)
      cases result with
      | ok members => exact Spends.stop _ (happend members)
      | error what => exact Spends.pure streams ownedByArchives
  | listEntries index file =>
      unfold perform
      simp only
      split
      · next hget =>
          -- the reader is lost where the file does not open
          have hlist := ArchiveMembers.spends_listEntries file (ownedByArchives streams)
          have hlost : kindIf .reader (!file.isOk) = (listEntries index file).lostBy streams := by
            simp only [lostBy, hget]
          refine (hlist.bind fun _ => ?_).congr rfl (fun _ => rfl) ((add_zero _).trans hlost)
          exact Spends.pure streams ownedByArchives
      · next hget =>
          have hlost : (listEntries index file).lostBy streams = 0 := by
            unfold lostBy
            simp only
          rw [hlost]
          exact Spends.pure streams ownedByArchives
  | setEntry index name file =>
      unfold perform
      simp only
      have hlost : (setEntry index name file).lostBy streams = 0 := rfl
      rw [hlost]
      split
      · next hget =>
          -- a reader of which the file does not open would be used after its free
          cases file with
          | error what => exact absurd hget hallowed
          | ok entries =>
              exact (ArchiveMembers.spends_readEntry name entries _).seq fun _ =>
                Spends.pure streams ownedByArchives
      · next archive entry hget =>
          obtain ⟨hsplit, hset⟩ := ownedByArchives_of_getElem hget
          have hwrite := (ArchiveMembers.spends_writeEntry archive entry).frame
            (ownedByArchives (streams.eraseIdx index))
          exact (hwrite.seq fun members => Spends.stop _ (hset members).symm).congr hsplit
            (fun _ => rfl) rfl
      · exact Spends.pure streams ownedByArchives
  | destroy index =>
      unfold perform
      simp only
      have hlost : (destroy index).lostBy streams = 0 := rfl
      rw [hlost]
      split
      · next members hget =>
          obtain ⟨hsplit, -⟩ := ownedByArchives_of_getElem hget
          have hdestroy := members.spends_destroy.frame
            (ownedByArchives (streams.eraseIdx index))
          exact (hdestroy.seq fun _ => Spends.stop _ (zero_add _)).congr hsplit
            (fun _ => rfl) rfl
      · exact Spends.pure streams ownedByArchives

theorem faults_perform (streams : List ArchiveMembers) (call : ArchiveProgramCall)
    (hallowed : ¬call.Allowed streams) :
    Faults (ownedByArchives streams) (call.perform streams) := by
  cases call with
  | setEntry index name file =>
      cases file with
      | ok entries => exact absurd trivial hallowed
      | error what =>
          have hget : streams[index]? = some .input := of_not_not hallowed
          unfold perform
          simp only [hget]
          exact (ArchiveMembers.faults_readEntry name what _).bind _
  | openInput => exact absurd trivial hallowed
  | openOutput openError => exact absurd trivial hallowed
  | listEntries index file => exact absurd trivial hallowed
  | destroy index => exact absurd trivial hallowed

theorem bookkeeping_archives :
    Bookkeeping perform ownedByArchives (fun _ => 0) lostBy Allowed where
  spends streams call hallowed := spends_perform streams call hallowed
  remembers streams call _ := fun _ _ _ _ resource hmem =>
    absurd hmem (Multiset.notMem_zero resource)
  faults streams call ledger lost hallowed haccounted := by
    obtain ⟨leaked, hheld, -⟩ := haccounted.held
    exact faults_perform streams call hallowed ledger leaked haccounted.valid hheld

end ArchiveProgramCall

/-- A program that opens archives, lists, reads and writes entries and destroys its streams frees
no handle twice, and uses one that is freed exactly where it reads an entry from a file that cannot
be opened.  In the end each stream that is left has what its members name, and each failure to open
a file for a list or for output has left an archive behind. -/
theorem archiveHandles_balanced (calls : List ArchiveProgramCall) :
    (Owning.run ArchiveProgramCall.perform [] calls {} = none ↔
      Misuses ArchiveProgramCall.perform ArchiveProgramCall.Allowed [] calls {}) ∧
    ∀ streams ledger,
      Owning.run ArchiveProgramCall.perform [] calls {} = some (streams, ledger) →
      ledger.held.map Prod.fst = (ownedByArchives streams).map Prod.fst +
        lostIn ArchiveProgramCall.perform ArchiveProgramCall.lostBy [] calls {} :=
  ArchiveProgramCall.bookkeeping_archives.balanced calls rfl rfl

end Iostreams
