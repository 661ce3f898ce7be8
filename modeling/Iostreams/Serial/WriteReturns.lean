import Iostreams.Serial.BufferMode

/-!
# What `writeBytes` returns

On a buffer, a block that does not fit is dropped, and `writeBytes` returns its size all the same.
A run of writes into an empty buffer returns what it stored exactly if no block is dropped, that
is, if the sizes add up to at most the size of the buffer: after a dropped block a smaller one can
still be stored, but the sum of the results is then ahead of the write index.
-/

namespace Iostreams

open Foundation

namespace Serial

variable {β : Type}

/-- What a call of `writeBytes` returned, by how much it moved the write index, and whether the
block fitted. -/
structure WriteResult where
  size : Nat
  returned : Int
  advance : Int
  fitted : Bool
  deriving DecidableEq, Repr

section Writing

variable [Streambuf β]

def writeObject (depth : Nat) (s : Serial β) (src : Object) :
    Except Halt (WriteResult × Serial β) := do
  let (returned, s') ← writeBytes depth s src.val
  .ok ({
    size := src.val.length
    returned
    advance := s'.getWritePosition - s.getWritePosition
    fitted := s.bufferWriteIndex + src.val.length ≤ s.bufferSize }, s')

/-- Every call returns how much it stored, the results add up to the write position, and a call
returns the size of its block exactly if the block fitted. -/
def ReturnsStored (depth : Nat) (s : Serial β) (srcs : List Object) : Prop :=
  ∃ results final, runEach (writeObject depth) srcs s = .ok (results, final) ∧
    (∀ result ∈ results, result.returned = result.advance) ∧
    (results.map WriteResult.returned).sum = final.getWritePosition ∧
    ∀ result ∈ results, result.returned = result.size ↔ result.fitted = true

theorem getWritePosition_buffer {s : Serial β} (hmode : s.BufferMode) :
    s.getWritePosition = s.bufferWriteIndex := by
  simp [getWritePosition, hmode.notCount, hmode.isBuffer]

/-- One write: a block that fits is stored and any other one dropped. -/
theorem writeObject_eq {s : Serial β} (hmode : s.BufferMode) (hindex : 0 ≤ s.bufferWriteIndex)
    (src : Object) (depth : Nat) :
    writeObject (depth + 1) s src = .ok (
      if s.bufferWriteIndex + src.val.length ≤ s.bufferPointer.length then
        (⟨src.val.length, src.val.length, src.val.length, true⟩, s.stored src.val)
      else (⟨src.val.length, src.val.length, 0, false⟩, s)) := by
  unfold writeObject
  rw [hmode.size_eq]
  by_cases hfits : s.bufferWriteIndex + src.val.length ≤ s.bufferPointer.length
  · have hmode' := (Wrote.stored s src.val).bufferMode hmode
    have hadvance : (s.stored src.val).bufferWriteIndex - s.bufferWriteIndex =
        src.val.length := by
      show s.bufferWriteIndex + src.val.length - s.bufferWriteIndex = src.val.length
      omega
    rw [if_pos hfits, writeBytes_buffer hmode src.val ⟨hindex, hfits⟩ depth]
    simp only [ok_bind, getWritePosition_buffer hmode, getWritePosition_buffer hmode', hadvance,
      hfits, decide_true]
  · rw [if_neg hfits, writeBytes_dropped hmode src.property (by omega) depth]
    simp only [ok_bind, sub_self, hfits, decide_false]

/-- The bytes of all blocks together. -/
def totalSize (srcs : List Object) : Nat := (srcs.map fun src => src.val.length).sum

theorem totalSize_cons (src : Object) (rest : List Object) :
    totalSize (src :: rest) = src.val.length + totalSize rest := by
  simp [totalSize]

/-- A run returns; it stores everything exactly if everything fits, and then the results add up
to the advance of the write index. -/
theorem runEach_writeObject (depth : Nat) (srcs : List Object) {s : Serial β}
    (hmode : s.BufferMode) (hindex : 0 ≤ s.bufferWriteIndex)
    (hrange : s.bufferWriteIndex ≤ s.bufferPointer.length) :
    ∃ results final, runEach (writeObject (depth + 1)) srcs s = .ok (results, final) ∧
      final.BufferMode ∧
      ((∀ result ∈ results, result.returned = result.advance) ↔
        s.bufferWriteIndex + totalSize srcs ≤
          s.bufferPointer.length) ∧
      (s.bufferWriteIndex + totalSize srcs ≤ s.bufferPointer.length →
        s.bufferWriteIndex + (results.map WriteResult.returned).sum = final.bufferWriteIndex ∧
        ∀ result ∈ results, result.returned = result.size ∧ result.fitted = true) := by
  induction srcs generalizing s with
  | nil => exact ⟨[], s, rfl, hmode, by simpa [totalSize] using hrange, by simp⟩
  | cons src rest ih =>
      have hwrite := writeObject_eq hmode hindex src depth
      by_cases hfits : s.bufferWriteIndex + src.val.length ≤ s.bufferPointer.length
      · rw [if_pos hfits] at hwrite
        have hnext : (s.stored src.val).bufferWriteIndex =
          s.bufferWriteIndex + src.val.length := rfl
        have hlength : (s.stored src.val).bufferPointer.length = s.bufferPointer.length :=
          overwrite_length _ _ _
        obtain ⟨results, final, hrun, hfinal, hall, hsum⟩ :=
          @ih (s.stored src.val) ((Wrote.stored s src.val).bufferMode hmode) (by omega) (by omega)
        rw [hnext, hlength] at hall hsum
        refine ⟨_, final, runEach_cons_eq hwrite hrun, hfinal,
          ?_, ?_⟩
        · rw [List.forall_mem_cons, hall, totalSize_cons]
          simp only [true_and]
          omega
        · intro htotal
          rw [totalSize_cons] at htotal
          obtain ⟨hadvance, hresults⟩ := hsum (by omega)
          rw [List.forall_mem_cons, List.map_cons, List.sum_cons]
          exact ⟨by show _ + ((src.val.length : Int) + _) = _; omega, ⟨rfl, rfl⟩, hresults⟩
      · -- the block is dropped, and its size, which is not zero, is returned
        rw [if_neg hfits] at hwrite
        obtain ⟨results, final, hrun, hfinal, -, -⟩ := ih hmode hindex hrange
        have hpast : ¬s.bufferWriteIndex + totalSize (src :: rest) ≤
            s.bufferPointer.length := by
          rw [totalSize_cons]
          omega
        refine ⟨_, final, runEach_cons_eq hwrite hrun, hfinal,
          iff_of_false ?_ hpast, fun htotal => absurd htotal hpast⟩
        intro hresults
        have hfirst := hresults _ List.mem_cons_self
        simp only at hfirst
        omega

/-- **Results of `writeBytes`.**  On a buffer, writes from index 0 on return what they store
exactly if their sizes add up to at most the size of the buffer. -/
theorem writeBytes_returnsStored_iff (depth : Nat) {s : Serial β} (hmode : s.BufferMode)
    (hindex : s.bufferWriteIndex = 0) (srcs : List Object) :
    ReturnsStored (depth + 1) s srcs ↔
      totalSize srcs ≤ s.bufferPointer.length := by
  obtain ⟨results, final, hrun, hfinal, hall, hsum⟩ :=
    runEach_writeObject depth srcs hmode (by omega) (by omega)
  rw [hindex, zero_add] at hall hsum
  rw [zero_add] at hsum
  have hcast : (totalSize srcs : Int) ≤ s.bufferPointer.length ↔
      totalSize srcs ≤ s.bufferPointer.length := by omega
  constructor
  · rintro ⟨results', final', hrun', hreturned, -, -⟩
    rw [hrun] at hrun'
    cases hrun'
    exact hcast.mp (hall.mp hreturned)
  · intro htotal
    obtain ⟨hposition, hresults⟩ := hsum (hcast.mpr htotal)
    refine ⟨results, final, hrun, hall.mpr (hcast.mpr htotal), ?_, fun result hresult => ?_⟩
    · rw [hposition, getWritePosition_buffer hfinal]
    · exact iff_of_true (hresults result hresult).1 (hresults result hresult).2

/-- Three bytes into a buffer of three. -/
theorem writeBytes_returnsStored_exact :
    ReturnsStored 1 (ofBuffer [0, 0, 0] false : Serial Stringbuf)
      [⟨[1, 2], by decide⟩, ⟨[3], by decide⟩] :=
  (writeBytes_returnsStored_iff 0 (bufferMode_ofBuffer (by decide) false) rfl _).mpr (by decide)

/-- Of two, two and one bytes into a buffer of three, the second block is dropped. -/
theorem not_writeBytes_returnsStored :
    ∃ (srcs : List Object) (results : List WriteResult) (final : Serial Stringbuf),
      runEach (writeObject 1) srcs (ofBuffer [0, 0, 0] false) = .ok (results, final) ∧
      results = [⟨2, 2, 2, true⟩, ⟨2, 2, 0, false⟩, ⟨1, 1, 1, true⟩] ∧
      final.getWritePosition = 3 ∧
      ¬ReturnsStored 1 (ofBuffer [0, 0, 0] false : Serial Stringbuf) srcs := by
  have hfirst : writeObject 1 (ofBuffer [0, 0, 0] false : Serial Stringbuf) ⟨[1, 2], by decide⟩ =
      .ok (⟨2, 2, 2, true⟩, (ofBuffer [0, 0, 0] false).stored [1, 2]) := rfl
  have hrun : runEach (writeObject 1) [⟨[1, 2], by decide⟩, ⟨[3, 4], by decide⟩, ⟨[5], by decide⟩]
      (ofBuffer [0, 0, 0] false : Serial Stringbuf) =
      .ok ([⟨2, 2, 2, true⟩, ⟨2, 2, 0, false⟩, ⟨1, 1, 1, true⟩],
        ((ofBuffer [0, 0, 0] false).stored [1, 2]).stored [5]) :=
    runEach_cons_eq hfirst (runEach_cons_eq rfl (runEach_cons_eq rfl rfl))
  refine ⟨_, _, _, hrun, rfl, rfl, ?_⟩
  rintro ⟨results, final, hrun', hreturned, -⟩
  rw [hrun] at hrun'
  cases hrun'
  exact absurd hreturned (by decide)

end Writing

end Serial
end Iostreams
