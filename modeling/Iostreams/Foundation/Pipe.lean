import Iostreams.Foundation.StandardStream

/-!
# Pipes

A stream buffer is a pipe when it hands out the bytes that were put into it, in order and each of
them once: a request for bytes that are there obtains them at once, and bytes that there is room
for are all taken.  In a buffer that reuses its memory a byte that is read makes room for another.
-/

namespace Iostreams
namespace Foundation

class Pipe (β : Type) extends Streambuf β where
  /-- These bytes are left to read, and there is room for so many more. -/
  Holding : β → List UInt8 → Nat → Prop
  reuses : Bool
  size_lt : ∀ {buf bytes room}, Holding buf bytes room → bytes.length + room < 2 ^ 63
  put : ∀ {buf bytes room src}, Holding buf bytes room → src.length ≤ room →
    ∃ next, sputn buf src = ((src.length : Int), next) ∧
      Holding next (bytes ++ src) (room - src.length)
  get : ∀ {buf front back room}, Holding buf (front ++ back) room →
    ∃ next, sgetn buf front.length = (front, next) ∧
      Holding next back (room + if reuses then front.length else 0)

namespace Pipe

/-- The room that reading so many bytes makes. -/
def regained (β : Type) [Pipe β] (count : Nat) : Nat := if reuses β then count else 0

variable {β : Type} [Pipe β]

theorem regained_zero : regained β 0 = 0 := by simp [regained]

theorem regained_add (count more : Nat) :
    regained β (count + more) = regained β count + regained β more := by
  unfold regained
  split <;> rfl

variable {io : IOStream β} {bytes : List UInt8} {room : Nat}

theorem good_write (hgood : io.good = true) (hholding : Holding io.rdbuf bytes room)
    {src : List UInt8} (hroom : src.length ≤ room) :
    (io.write src).good = true ∧ Holding (io.write src).rdbuf (bytes ++ src)
      (room - src.length) := by
  obtain ⟨next, hput, hnext⟩ := put hholding hroom
  have hwrite : io.write src = { io with rdbuf := next } := by
    simp only [IOStream.write, hgood, hput, if_true]
  rw [hwrite]
  exact ⟨hgood, hnext⟩

end Pipe

/-- A string stream that is written at its end, up to the largest size of a string. -/
instance : Pipe Stringbuf where
  Holding buf bytes room :=
    buf.putPos = buf.content.length ∧ buf.unread = bytes ∧ buf.content.length + room < 2 ^ 63
  reuses := false
  size_lt := by
    rintro buf bytes room ⟨-, rfl, hsize⟩
    rw [Stringbuf.unread, List.length_drop]
    omega
  put := by
    rintro buf bytes room src ⟨hend, rfl, hsize⟩ hroom
    have hcontent := Stringbuf.content_xsputn hend src
    refine ⟨(buf.xsputn src).2, rfl, ?_, ?_, ?_⟩
    · rw [hcontent, List.length_append, ← hend]
      rfl
    · rw [Stringbuf.unread, hcontent]
      exact List.drop_append_of_le_length buf.getPos_le
    · rw [hcontent, List.length_append]
      omega
  get := by
    rintro buf front back room ⟨hend, hunread, hsize⟩
    refine ⟨(buf.xsgetn front.length).2, ?_, hend, ?_, hsize⟩
    · simp only [Streambuf.sgetn, Stringbuf.xsgetn, hunread, Int.toNat_natCast, List.take_left]
    · rw [Stringbuf.unread_xsgetn, hunread, List.drop_left]

/-! ## Tapes -/

/-- The blocks that were put and not taken.  Taking bytes joins what is left. -/
structure Tape where
  blocks : List (List UInt8) := []

namespace Tape

def sgetn (tape : Tape) (count : Int) : List UInt8 × Tape :=
  (tape.blocks.flatten.take count.toNat, ⟨[tape.blocks.flatten.drop count.toNat]⟩)

def sputn (tape : Tape) (src : List UInt8) : Int × Tape := (src.length, ⟨tape.blocks ++ [src]⟩)

/-- A tape has no positions. -/
instance : Streambuf Tape where
  sgetn := sgetn
  inAvail tape := tape.blocks.flatten.length
  sputn := sputn
  tellIn _ := -1
  seekIn tape _ := (-1, tape)
  tellOut _ := -1
  seekOut tape _ := (-1, tape)
  sync tape := some tape

instance : Pipe Tape where
  Holding tape bytes room := tape.blocks.flatten = bytes ∧ bytes.length + room < 2 ^ 63
  reuses := true
  size_lt hholding := hholding.2
  put := by
    rintro tape bytes room src ⟨rfl, hsize⟩ hroom
    refine ⟨_, rfl, ?_, ?_⟩
    · rw [List.flatten_append, List.flatten_singleton]
    · rw [List.length_append]
      omega
  get := by
    rintro tape front back room ⟨hblocks, hsize⟩
    rw [List.length_append] at hsize
    refine ⟨⟨[back]⟩, ?_, List.flatten_singleton, ?_⟩
    · simp only [Streambuf.sgetn, sgetn, hblocks, Int.toNat_natCast, List.take_left, List.drop_left]
    · rw [if_pos rfl]
      omega

end Tape

end Foundation
end Iostreams
