import Iostreams.Serial.StoredReads
import Iostreams.Serial.Sizing

/-!
# Reads and writes on one buffer

A schedule is a program of writes and a program of reads on the same buffer, in some
interleaving.  If every read copies bytes below the write index only, the schedule reads
the same values and ends in the same state as the run of all its writes followed by all
its reads.

The proof runs through the schedule once.  The writes behave the same for every input
part, and a read the same for every output part that extends the one it met, so that the
output part the writes end in may stand in for all the earlier ones.
-/

namespace Iostreams

open Foundation

/-- The input operations on a buffer. -/
inductive ReadCall {T : ScalarTypes} (K : Keys T) where
  /-- `>> value`, with the prior content of `value` -/
  | value (t : Ty T) (old : t.Value)
  /-- `readBytes(dest, size)` -/
  | bytes (dest : List UInt8) (size : UInt64)
  /-- `readByte()` -/
  | byte
  /-- `readBit()` -/
  | bit
  /-- `readBits(bitContainer, index, size)` -/
  | bits (bitContainer : List UInt8) (index size : UInt64)

/-- What an input operation delivers; `readBits` throws outside bit-stream mode. -/
inductive ReadResult (T : ScalarTypes) where
  | value (t : Ty T) (content : t.Value)
  | bytes (count : Int) (dest : List UInt8)
  | byte (c : UInt8)
  | bit (flag : Bool)
  | bits (bitContainer : List UInt8)
  | thrown (what : String)

namespace ReadCall

variable {T : ScalarTypes} {K : Keys T} {β : Type} [Streambuf β]

/-- An exception is caught, and leaves the state as it is. -/
def perform (depth : Nat) (s : Serial β) : ReadCall K → Except Halt (ReadResult T × Serial β)
  | .value t old => do
      let (content, r) ← Reader.get K depth t old (Reader.onSerial s : Reader β β)
      .ok (.value t content, r.serial)
  | .bytes dest size => do
      let (count, dest, s) ← Serial.readBytes depth s dest size.toNat
      .ok (.bytes count dest, s)
  | .byte => do
      let (c, s) ← Serial.readByte depth s
      .ok (.byte c, s)
  | .bit => do
      let (flag, s) ← Serial.readBit depth s
      .ok (.bit flag, s)
  | .bits bitContainer index size =>
      match Serial.readBits depth s bitContainer index.toNat size.toNat with
      | .ok (bitContainer, s) => .ok (.bits bitContainer, s)
      | .error (.exception what) => .ok (.thrown what, s)
      | .error .outOfFuel => .error .outOfFuel
      | .error .fault => .error .fault

def copies (depth : Nat) (s : Serial β) : ReadCall K → List Memcpy
  | .value t old => Reader.getCopies K depth t old (Reader.onSerial s : Reader β β)
  | .bytes _ size => s.readBytesCopies size.toNat
  | .byte => Serial.readByteCopies depth s
  | .bit => s.readBitCopies
  | .bits bitContainer index size =>
      Serial.readBitsCopies depth s bitContainer index.toNat size.toNat

/-- The index of the loop in `readBits` is an `int`. -/
def Ends (bitStream : Bool) : ReadCall K → Prop
  | .bits _ _ size => bitStream = true → size.toNat < 2 ^ 31
  | _ => True

end ReadCall

/-- The objects that are written fit into memory, and the write index is not set. -/
def WriteCall.Appends {T : ScalarTypes} {K : Keys T} : WriteCall K → Prop
  | .value t item => t.Storable K item
  | .bytes src => src.length < 2 ^ 63
  | .setWritePosition _ => False
  | _ => True

/-- One operation on a buffer that is written and read. -/
inductive Access {T : ScalarTypes} (K : Keys T) where
  | write (call : WriteCall K)
  | read (call : ReadCall K)

namespace Access

variable {T : ScalarTypes} {K : Keys T} {β : Type}

def Admissible (bitStream : Bool) : Access K → Prop
  | .write call => call.Appends
  | .read call => call.Ends bitStream

/-- The writes of a schedule, in order. -/
def writesOf : List (Access K) → List (WriteCall K)
  | [] => []
  | .write call :: rest => call :: writesOf rest
  | .read _ :: rest => writesOf rest

/-- The reads of a schedule, in order. -/
def readsOf : List (Access K) → List (ReadCall K)
  | [] => []
  | .write _ :: rest => readsOf rest
  | .read call :: rest => call :: readsOf rest

section Runs

variable [Streambuf β]

/-- The values read by a schedule, and the state after it. -/
def run (depth : Nat) : List (Access K) → Serial β → Except Halt (List (ReadResult T) × Serial β)
  | [], s => .ok ([], s)
  | .write call :: rest, s => do
      let s ← call.perform depth s
      run depth rest s
  | .read call :: rest, s => do
      let (result, s) ← call.perform depth s
      let (results, s) ← run depth rest s
      .ok (result :: results, s)

/-- All the writes of a schedule, and then all its reads. -/
def runWritesFirst (depth : Nat) (schedule : List (Access K)) (s : Serial β) :
    Except Halt (List (ReadResult T) × Serial β) := do
  let s ← Serial.writeEach (fun s call => WriteCall.perform depth call s) (writesOf schedule) s
  runEach (fun s call => ReadCall.perform depth s call) (readsOf schedule) s

/-- The state after an operation; one that does not return leaves it as it is. -/
def after (depth : Nat) (s : Serial β) : Access K → Serial β
  | .write call =>
      match call.perform depth s with
      | .ok s' => s'
      | .error _ => s
  | .read call =>
      match call.perform depth s with
      | .ok (_, s') => s'
      | .error _ => s

/-- A read needs bytes only that are stored below the write index. -/
def NeedsStored (depth : Nat) (s : Serial β) : Access K → Prop
  | .write _ => True
  | .read call => ∀ copy ∈ call.copies depth s, copy.Within s.bufferWriteIndex

end Runs

end Access

namespace Serial

variable {T : ScalarTypes} {K : Keys T} {β : Type} [Streambuf β] {s : Serial β}

/-! ## One operation -/

theorem WritesApart.perform (depth : Nat) {call : WriteCall K} (hcall : call.Appends) :
    WritesApart (call.perform (depth + 4) : Serial β → _) := by
  cases call with
  | value t item => exact put_apart K depth t item hcall
  | bytes src => exact putBytes_apart hcall (depth + 3)
  | byte c => exact writeByte_apart c depth
  | bit flag => exact writeBit_apart flag (depth + 1)
  | synchronize => exact synchronize_apart (depth + 2)
  | setWritePosition index => exact absurd hcall id

theorem ReadsStored.perform (depth : Nat) {call : ReadCall K} (hcall : call.Ends s.bitStream)
    (hstate : s.InBuffer)
    (hwithin : ∀ copy ∈ call.copies (depth + 4) s, copy.Within s.bufferWriteIndex) :
    ∃ result, ∃ part : InputPart, part.Valid ∧ ∀ written : OutputPart,
      written.Extends s.output →
      call.perform (depth + 4) (s.withOutput written) =
        .ok (result, (s.withOutput written).withInput part) := by
  have hlimit := hstate.writeIndex.2
  cases call with
  | value t old =>
      obtain ⟨content, part, hvalid, hget⟩ :=
        Reader.get_stored (γ := β) K (depth + 1) t old s hstate _ hlimit hwithin
      refine ⟨.value t content, part, hvalid, fun written hextends => ?_⟩
      rw [ReadCall.perform, hget written hextends.kept]
      rfl
  | bytes dest size =>
      obtain ⟨count, dest', index, hindex, hread⟩ :=
        readBytes_stored hstate hlimit hwithin (depth + 3) dest
      refine ⟨.bytes count dest', { s.input with bufferReadIndex := index },
        ⟨hstate.state.readMarker, hindex.1, hindex.2⟩, fun written hextends => ?_⟩
      rw [ReadCall.perform, hread written hextends.kept]
      rfl
  | byte =>
      rcases readByte_stored (depth + 1) s hstate _ hlimit hwithin with ⟨c, part, hvalid, hread⟩
      refine ⟨.byte c, part, hvalid, fun written hextends => ?_⟩
      have hbyte : readByte (depth + 4) (s.withOutput written) = _ :=
        hread written hextends.kept
      rw [ReadCall.perform, hbyte]
      rfl
  | bit =>
      rcases readBit_stored (depth + 2) s hstate _ hlimit hwithin with ⟨flag, part, hvalid, hread⟩
      refine ⟨.bit flag, part, hvalid, fun written hextends => ?_⟩
      have hbit : readBit (depth + 4) (s.withOutput written) = _ := hread written hextends.kept
      rw [ReadCall.perform, hbit]
      rfl
  | bits bitContainer index size =>
      by_cases hstream : s.bitStream = true
      · obtain ⟨bitContainer', part, hvalid, hread⟩ :=
          readBits_stored hstate hlimit hstream (hcall hstream) hwithin
        refine ⟨.bits bitContainer', part, hvalid, fun written hextends => ?_⟩
        rw [ReadCall.perform, hread written hextends.kept]
      · -- the exception is all that the call delivers
        refine ⟨.thrown "readBits called and Serial is not a bitStream", s.input,
          hstate.valid_input, fun written _ => ?_⟩
        have hnot : (!(s.withOutput written).bitStream) = true := by simp [withOutput, hstream]
        rw [ReadCall.perform, readBits, if_pos hnot]
        rfl

/-! ## Schedules -/

/-- A schedule ends in the output part that its writes make, whatever the input part, and in the
input part that its reads make once the writes are done. -/
theorem run_parts (depth : Nat) (schedule : List (Access K)) (hstate : s.InBuffer)
    (hcalls : ∀ access ∈ schedule, access.Admissible s.bitStream)
    (hstored : EachAllowed (Access.after (depth + 4)) (Access.NeedsStored (depth + 4)) s schedule) :
    ∃ results, ∃ part : InputPart, ∃ written : OutputPart, written.Extends s.output ∧
      Access.run (depth + 4) schedule s = .ok (results, (s.withOutput written).withInput part) ∧
      (∀ read, writeEach (fun s call => WriteCall.perform (depth + 4) call s)
        (Access.writesOf schedule) (s.withInput read) =
          .ok ((s.withInput read).withOutput written)) ∧
      runEach (fun s call => ReadCall.perform (depth + 4) s call) (Access.readsOf schedule)
        (s.withOutput written) = .ok (results, (s.withOutput written).withInput part) := by
  induction schedule generalizing s with
  | nil => exact ⟨[], s.input, s.output, hstate.extends_output, rfl, fun _ => rfl, rfl⟩
  | cons access rest ih =>
      rcases hstored with ⟨hneeds, hrest⟩
      have hcall := hcalls access List.mem_cons_self
      have hlater := fun later hmem => hcalls later (List.mem_cons_of_mem _ hmem)
      cases access with
      | write call =>
          rcases WritesApart.perform depth hcall s hstate with ⟨written₁, hextends₁, hwrite⟩
          have hself : call.perform (depth + 4) s = .ok (s.withOutput written₁) := hwrite s.input
          rw [Access.after, hself] at hrest
          obtain ⟨results, part, written, hextends, hrun, hwrites, hreads⟩ :=
            ih (hstate.withOutput hextends₁) hlater hrest
          -- the reads of the rest come after this write in both runs
          refine ⟨results, part, written, hextends₁.trans hextends, ?_, fun read => ?_, hreads⟩
          · rw [Access.run, hself]
            exact hrun
          · rw [Access.writesOf, writeEach, hwrite read]
            exact hwrites read
      | read call =>
          obtain ⟨result, part₁, hvalid, hread⟩ :=
            ReadsStored.perform depth hcall hstate hneeds
          have hself : call.perform (depth + 4) s = .ok (result, s.withInput part₁) :=
            hread s.output hstate.extends_output
          rw [Access.after, hself] at hrest
          obtain ⟨results, part, written, hextends, hrun, hwrites, hreads⟩ :=
            ih (hstate.withInput hvalid) hlater hrest
          refine ⟨result :: results, part, written, hextends, ?_, hwrites, ?_⟩
          · rw [Access.run, hself, ok_bind]
            simp only [hrun, ok_bind]
            rfl
          · -- the read meets the bytes that it would have met in its place
            exact runEach_cons_eq (hread written hextends) hreads

/-- **Reads and writes commute.**  Where each read needs only bytes below the write index, a
schedule reads the same values and ends in the same state as all its writes followed by all its
reads. -/
theorem run_eq_runWritesFirst (depth : Nat) {schedule : List (Access K)} (hstate : s.InBuffer)
    (hcalls : ∀ access ∈ schedule, access.Admissible s.bitStream)
    (hstored : EachAllowed (Access.after (depth + 4)) (Access.NeedsStored (depth + 4)) s schedule) :
    ∃ results final, Access.run (depth + 4) schedule s = .ok (results, final) ∧
      Access.runWritesFirst (depth + 4) schedule s = .ok (results, final) := by
  obtain ⟨results, part, written, -, hrun, hwrites, hreads⟩ :=
    run_parts depth schedule hstate hcalls hstored
  refine ⟨results, _, hrun, ?_⟩
  have hall := hwrites s.input
  rw [withInput_input] at hall
  rw [Access.runWritesFirst, hall]
  exact hreads

omit [Streambuf β] in
theorem inBuffer_ofBuffer (memory : Object) (bitStream : Bool) :
    (ofBuffer memory.val bitStream : Serial β).InBuffer :=
  ⟨bufferState_ofBuffer memory bitStream, ⟨Int.le_refl 0, by show (0 : Int) < 2 ^ 63; omega⟩,
    ⟨Int.le_refl 0, by show (0 : Int) < 2 ^ 63; omega⟩, rfl, rfl⟩

/-- A byte is read while a bit is pending, and the bit once it is flushed. -/
def sampleSchedule : List (Access (Keys.equality byteScalars)) :=
  [.write (.byte 5), .write (.bit true), .read .byte, .write .synchronize, .read .bit]

/-- The reads of `sampleSchedule` in a bit stream over four bytes. -/
theorem run_eq_runWritesFirst_sample :
    ∃ results final,
      Access.run 4 sampleSchedule (ofBuffer (List.replicate 4 0) true : Serial Stringbuf) =
        .ok (results, final) ∧
      Access.runWritesFirst 4 sampleSchedule (ofBuffer (List.replicate 4 0) true) =
        .ok (results, final) := by
  apply run_eq_runWritesFirst 0 (inBuffer_ofBuffer ⟨List.replicate 4 0, by decide⟩ true)
  · simp [sampleSchedule, Access.Admissible, WriteCall.Appends, ReadCall.Ends]
  · -- each read copies one byte, at the read index
    have hbyte : ∀ copy ∈ [Memcpy.mk 0 1], copy.Within 1 := by
      rw [List.forall_mem_singleton]
      exact @Memcpy.within_of_le 0 1 1 (by decide)
    have hbit : ∀ copy ∈ [Memcpy.mk 1 1], copy.Within 2 := by
      rw [List.forall_mem_singleton]
      exact @Memcpy.within_of_le 1 1 2 (by decide)
    exact ⟨trivial, trivial, hbyte, trivial, hbit, trivial⟩

end Serial
end Iostreams
