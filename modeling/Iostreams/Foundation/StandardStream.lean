import Iostreams.Foundation.MachineInt
import Iostreams.Foundation.Memory

/-!
# Standard streams over stream buffers

A stream buffer is a type with the virtual functions of `std::streambuf` that
the stream classes call (`Streambuf`).  `IOStream` adds the error state of
`std::basic_ios` and the count of the last unformatted input; the member
functions below follow the standard's wording:

* an input function first constructs a sentry, which sets `failbit` and makes
  the function do nothing when the stream is not good;
* `read` calls `sgetn` once and sets `eofbit | failbit` after a short count;
* `seekg` clears `eofbit` before the sentry;
* output on a stream that is not good does nothing.

`Stringbuf` is `std::stringbuf` opened for input and output.  `CharSource` and
`BlockSource` describe buffers whose input is a known byte sequence followed
by end of input: the first promises one byte at a time, the second also
promises that a request that can be satisfied is satisfied at once.
-/

namespace Iostreams
namespace Foundation

/-- The virtual functions of a stream buffer. -/
class Streambuf (β : Type) where
  /-- `sgetn`: the bytes delivered, at most the requested count. -/
  sgetn : β → Int → List UInt8 × β
  /-- `in_avail` -/
  inAvail : β → Int
  /-- `sputn`: the number of bytes taken. -/
  sputn : β → List UInt8 → Int × β
  /-- `pubseekoff(0, cur, in)` -/
  tellIn : β → Int
  /-- `pubseekpos(_, in)`: the new position, or `-1`. -/
  seekIn : β → Int → Int × β
  /-- `pubseekoff(0, cur, out)` -/
  tellOut : β → Int
  /-- `pubseekpos(_, out)` -/
  seekOut : β → Int → Int × β
  /-- `pubsync`; `none` stands for the result `-1`. -/
  sync : β → Option β

/-- A `std::iostream`: its buffer, its error state and its last `gcount`. -/
structure IOStream (β : Type) where
  rdbuf : β
  eofbit : Bool := false
  failbit : Bool := false
  badbit : Bool := false
  gcount : Int := 0

namespace IOStream

variable {β : Type}

def good (io : IOStream β) : Bool := !(io.eofbit || io.failbit || io.badbit)

def fail (io : IOStream β) : Bool := io.failbit || io.badbit

/-- `clear()` -/
def clear (io : IOStream β) : IOStream β :=
  { io with eofbit := false, failbit := false, badbit := false }

@[simp] theorem good_clear (io : IOStream β) : io.clear.good = true := rfl

@[simp] theorem rdbuf_clear (io : IOStream β) : io.clear.rdbuf = io.rdbuf := rfl

variable [Streambuf β]

/-- `istream::read(dest, count)`: the bytes stored at `dest`. -/
def read (io : IOStream β) (count : Int) : List UInt8 × IOStream β :=
  if io.good then
    let (bytes, rdbuf) := Streambuf.sgetn io.rdbuf count
    if (bytes.length : Int) = count then
      (bytes, { io with rdbuf, gcount := bytes.length })
    else
      (bytes, { io with rdbuf, gcount := bytes.length, eofbit := true, failbit := true })
  else
    ([], { io with gcount := 0, failbit := true })

/-- `istream::tellg()` -/
def tellg (io : IOStream β) : Int × IOStream β :=
  if io.good then (Streambuf.tellIn io.rdbuf, io)
  else (-1, { io with failbit := true })

/-- `istream::seekg(position)` -/
def seekg (io : IOStream β) (position : Int) : IOStream β :=
  let io := { io with eofbit := false }
  if io.good then
    let (result, rdbuf) := Streambuf.seekIn io.rdbuf position
    if result = -1 then { io with rdbuf, failbit := true } else { io with rdbuf }
  else
    { io with failbit := true }

/-- `istream::sync()` -/
def sync (io : IOStream β) : IOStream β :=
  if io.good then
    match Streambuf.sync io.rdbuf with
    | some rdbuf => { io with rdbuf }
    | none => { io with badbit := true }
  else
    { io with failbit := true }

/-- `ostream::write(src, src.length)` -/
def write (io : IOStream β) (src : List UInt8) : IOStream β :=
  if io.good then
    let (taken, rdbuf) := Streambuf.sputn io.rdbuf src
    if taken = src.length then { io with rdbuf } else { io with rdbuf, badbit := true }
  else
    io

/-- `ostream::tellp()` -/
def tellp (io : IOStream β) : Int :=
  if io.fail then -1 else Streambuf.tellOut io.rdbuf

/-- `ostream::seekp(position)` -/
def seekp (io : IOStream β) (position : Int) : IOStream β :=
  if io.fail then io
  else
    let (result, rdbuf) := Streambuf.seekOut io.rdbuf position
    if result = -1 then { io with rdbuf, failbit := true } else { io with rdbuf }

/-- `ostream::flush()` -/
def flush (io : IOStream β) : IOStream β :=
  if io.good then
    match Streambuf.sync io.rdbuf with
    | some rdbuf => { io with rdbuf }
    | none => { io with badbit := true }
  else
    io

/-- The stream after its buffer delivered `bytes` of `count` requested. -/
def afterRead (io : IOStream β) (rdbuf : β) (bytes : List UInt8) (count : Int) : IOStream β :=
  if (bytes.length : Int) = count then { io with rdbuf, gcount := bytes.length }
  else { io with rdbuf, gcount := bytes.length, eofbit := true, failbit := true }

/-- On a stream that is not good nothing is read. -/
theorem read_of_not_good {io : IOStream β} (hgood : io.good = false) (count : Int) :
    io.read count = ([], { io with gcount := 0, failbit := true }) := by
  simp [read, hgood]

theorem read_of_good {io : IOStream β} (hgood : io.good = true) {count : Int}
    {bytes : List UInt8} {rdbuf : β} (hget : Streambuf.sgetn io.rdbuf count = (bytes, rdbuf)) :
    io.read count = (bytes, io.afterRead rdbuf bytes count) := by
  simp only [read, hgood, hget, afterRead, if_true]
  split <;> rfl

omit [Streambuf β] in
@[simp] theorem rdbuf_afterRead (io : IOStream β) (rdbuf : β) (bytes : List UInt8)
    (count : Int) : (io.afterRead rdbuf bytes count).rdbuf = rdbuf := by
  unfold afterRead
  split <;> rfl

omit [Streambuf β] in
@[simp] theorem gcount_afterRead (io : IOStream β) (rdbuf : β) (bytes : List UInt8)
    (count : Int) : (io.afterRead rdbuf bytes count).gcount = bytes.length := by
  unfold afterRead
  split <;> rfl

/-- `gcount()` after a `read` is what it delivered. -/
theorem gcount_read (io : IOStream β) (count : Int) :
    (io.read count).2.gcount = (io.read count).1.length := by
  cases hgood : io.good with
  | false =>
      rw [read_of_not_good hgood]
      exact Int.natCast_zero.symm
  | true =>
      rw [read_of_good hgood (show Streambuf.sgetn io.rdbuf count = (_, _) from rfl)]
      exact gcount_afterRead _ _ _ _

omit [Streambuf β] in
/-- A request that is satisfied leaves the stream good, a short count does not. -/
theorem good_afterRead {io : IOStream β} (hgood : io.good = true) (rdbuf : β)
    (bytes : List UInt8) (count : Int) :
    (io.afterRead rdbuf bytes count).good = decide ((bytes.length : Int) = count) := by
  unfold afterRead
  split
  · next hfull =>
      simpa [good, hfull] using hgood
  · next hshort => simp [good, hshort]

end IOStream

/-! ## String buffers -/

/-- A `std::stringbuf`: its characters and its two positions. -/
structure Stringbuf where
  content : List UInt8
  getPos : Nat
  putPos : Nat
  getPos_le : getPos ≤ content.length
  putPos_le : putPos ≤ content.length
  deriving DecidableEq

namespace Stringbuf

/-- The buffer of a stream constructed over a string. -/
def ofString (content : List UInt8) : Stringbuf :=
  ⟨content, 0, 0, Nat.zero_le _, Nat.zero_le _⟩

/-- The characters at and after the get position. -/
def unread (buf : Stringbuf) : List UInt8 := buf.content.drop buf.getPos

/-- `xsgetn`; a count that is not positive transfers nothing. -/
def xsgetn (buf : Stringbuf) (count : Int) : List UInt8 × Stringbuf :=
  let bytes := buf.unread.take count.toNat
  (bytes, { buf with
    getPos := buf.getPos + bytes.length
    getPos_le := by
      have hle := buf.getPos_le
      simp only [bytes, unread, List.length_take, List.length_drop]
      omega })

/-- `xsputn`: overwrite at the put position, growing the string. -/
def xsputn (buf : Stringbuf) (src : List UInt8) : Int × Stringbuf :=
  (src.length,
    { buf with
      content := buf.content.take buf.putPos ++ src ++ buf.content.drop (buf.putPos + src.length)
      putPos := buf.putPos + src.length
      getPos_le := by
        have hget := buf.getPos_le
        have hput := buf.putPos_le
        simp only [List.length_append, List.length_take, List.length_drop]
        omega
      putPos_le := by
        have hput := buf.putPos_le
        simp only [List.length_append, List.length_take, List.length_drop]
        omega })

/-- `seekpos(position, in)`: valid inside the string and at its end. -/
def seekIn (buf : Stringbuf) (position : Int) : Int × Stringbuf :=
  if hvalid : 0 ≤ position ∧ position ≤ buf.content.length then
    (position, { buf with getPos := position.toNat, getPos_le := by omega })
  else
    (-1, buf)

/-- `seekpos(position, out)` -/
def seekOut (buf : Stringbuf) (position : Int) : Int × Stringbuf :=
  if hvalid : 0 ≤ position ∧ position ≤ buf.content.length then
    (position, { buf with putPos := position.toNat, putPos_le := by omega })
  else
    (-1, buf)

instance : Streambuf Stringbuf where
  sgetn := xsgetn
  inAvail buf := buf.unread.length
  sputn := xsputn
  tellIn buf := buf.getPos
  seekIn := seekIn
  tellOut buf := buf.putPos
  seekOut := seekOut
  sync buf := some buf

/-- Append to the string without moving either position. -/
def append (buf : Stringbuf) (bytes : List UInt8) : Stringbuf :=
  { buf with
    content := buf.content ++ bytes
    getPos_le := by
      rw [List.length_append]
      exact Nat.le_add_right_of_le buf.getPos_le
    putPos_le := by
      rw [List.length_append]
      exact Nat.le_add_right_of_le buf.putPos_le }

theorem unread_append (buf : Stringbuf) (bytes : List UInt8) :
    (buf.append bytes).unread = buf.unread ++ bytes :=
  List.drop_append_of_le_length buf.getPos_le

theorem unread_xsgetn (buf : Stringbuf) (count : Nat) :
    (buf.xsgetn count).2.unread = buf.unread.drop count := by
  simp only [xsgetn, unread, Int.toNat_natCast, List.drop_drop, List.length_take,
    List.length_drop]
  rw [List.drop_eq_drop_iff]
  omega

/-- Writing at the end appends. -/
theorem content_xsputn {buf : Stringbuf} (hend : buf.putPos = buf.content.length)
    (src : List UInt8) : (buf.xsputn src).2.content = buf.content ++ src := by
  simp [xsputn, hend]

end Stringbuf

namespace IOStream

variable {io : IOStream Stringbuf}

theorem write_stringbuf (hgood : io.good = true) (src : List UInt8) :
    io.write src = { io with rdbuf := (io.rdbuf.xsputn src).2 } := by
  simp [write, hgood, Streambuf.sputn, Stringbuf.xsputn]

theorem seekg_stringbuf (hgood : io.good = true) {index : Nat}
    (hindex : index ≤ io.rdbuf.content.length) :
    (io.seekg index).good = true ∧
      (io.seekg index).rdbuf = { io.rdbuf with getPos := index, getPos_le := hindex } := by
  have hcleared : good { io with eofbit := false } = true := by
    simp only [good, Bool.not_eq_true', Bool.or_eq_false_iff] at hgood ⊢
    exact ⟨⟨trivial, hgood.1.2⟩, hgood.2⟩
  have hvalid : 0 ≤ (index : Int) ∧ (index : Int) ≤ io.rdbuf.content.length := by omega
  have hposition : (index : Int) ≠ -1 := by omega
  simp only [seekg, hcleared, if_true, Streambuf.seekIn, Stringbuf.seekIn, dif_pos hvalid,
    if_neg hposition, Int.toNat_natCast]
  exact ⟨hcleared, trivial⟩

end IOStream

/-! ## Buffers with known input -/

/-- A buffer whose remaining input is `pending`, one byte at a time. -/
class CharSource (β : Type) extends Streambuf β where
  pending : β → List UInt8
  get_one (buf : β) : (sgetn buf 1).1 = (pending buf).take 1
  pending_one (buf : β) : pending (sgetn buf 1).2 = (pending buf).drop 1
  get_nonpos (buf : β) (count : Int) : count ≤ 0 → sgetn buf count = ([], buf)

/-- A buffer that satisfies at once every request its remaining input covers. -/
class BlockSource (β : Type) extends CharSource β where
  get_block (buf : β) (count : Nat) : count ≤ (pending buf).length →
    (sgetn buf count).1 = (pending buf).take count
  pending_block (buf : β) (count : Nat) : count ≤ (pending buf).length →
    pending (sgetn buf count).2 = (pending buf).drop count

/-- A buffer whose input arrives in pieces.  A request takes what has arrived
so far, and `in_avail` counts what is left of it. -/
class ArrivalSource (β : Type) extends BlockSource β where
  arrive : β → List UInt8 → β
  pending_arrive (buf : β) (bytes : List UInt8) :
    pending (arrive buf bytes) = pending buf ++ bytes
  get_arrived (buf : β) (count : Nat) : (sgetn buf count).1 = (pending buf).take count
  pending_arrived (buf : β) (count : Nat) :
    pending (sgetn buf count).2 = (pending buf).drop count
  avail (buf : β) : inAvail buf = (pending buf).length

instance : ArrivalSource Stringbuf where
  pending := Stringbuf.unread
  get_one _ := rfl
  pending_one buf := buf.unread_xsgetn 1
  get_nonpos buf count hcount := by
    simp [Streambuf.sgetn, Stringbuf.xsgetn, Int.toNat_of_nonpos hcount]
  get_block _ _ _ := rfl
  pending_block buf count _ := buf.unread_xsgetn count
  arrive := Stringbuf.append
  pending_arrive := Stringbuf.unread_append
  get_arrived _ _ := rfl
  pending_arrived buf count := buf.unread_xsgetn count
  avail _ := rfl

end Foundation
end Iostreams
