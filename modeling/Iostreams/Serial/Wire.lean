import Iostreams.Serial.BitStream
import Iostreams.Serial.RoundTrip
import Iostreams.Serial.StreamMode

/-!
# Wires

What it means on some kind of `Serial` that an encoding was written, and that it comes
next for a reader: a `Wire`.  Its items are bytes, or bits on a bit stream.

`Wire.Continues` says that encodings on a second wire can be put behind a first one:
where a writer stands within a byte decides what the next encoding is, so that on a bit
stream the two wires differ.  `Wire.Lawful` says it of one wire and all its encodings,
and `Wire.Frames` that in addition booleans and strings are read back as they were
written.  Both hold of a buffer and of a string stream that are no bit streams.
-/

namespace Iostreams

open Foundation

/-- The states of writers and readers before and after an encoding, and the encodings of
booleans and strings. -/
structure Wire (β γ ι : Type) where
  /-- There is room for the encoding. -/
  Ready : Serial β → List ι → Prop
  /-- The second state is the first after the encoding was written. -/
  Wrote : Serial β → List ι → Serial β → Prop
  /-- The encoding comes next. -/
  Before : Reader β γ → List ι → Prop
  /-- The second state is the first after exactly the encoding was read. -/
  Consumed : Reader β γ → List ι → Reader β γ → Prop
  flag : Bool → List ι
  string : List UInt8 → List ι

namespace Wire

variable {β γ ι α α' : Type}

/-- `put` writes the encoding. -/
def Puts (wire : Wire β γ ι) (put : Serial β → Except Halt (Serial β)) (code : List ι) :
    Prop :=
  ∀ s, wire.Ready s code → ∃ s', put s = .ok s' ∧ wire.Wrote s code s'

/-- `get` obtains the item from the encoding. -/
def Gets (wire : Wire β γ ι) (get : Reader β γ → Except Halt (α × Reader β γ))
    (code : List ι) (item : α) : Prop :=
  ∀ r, wire.Before r code → ∃ r', get r = .ok (item, r') ∧ wire.Consumed r code r'

/-- Encodings of the second wire can be put behind `front` on the first. -/
structure Continues (wire next : Wire β γ ι) (front : List ι) : Prop where
  ready_left : ∀ {s back}, wire.Ready s (front ++ back) → wire.Ready s front
  ready_right : ∀ {s back s'}, wire.Ready s (front ++ back) → wire.Wrote s front s' →
    next.Ready s' back
  wrote_append : ∀ {s back s' s''}, wire.Ready s (front ++ back) → wire.Wrote s front s' →
    next.Wrote s' back s'' → wire.Wrote s (front ++ back) s''
  before_left : ∀ {r back}, wire.Before r (front ++ back) → wire.Before r front
  before_right : ∀ {r back r'}, wire.Before r (front ++ back) → wire.Consumed r front r' →
    next.Before r' back
  consumed_append : ∀ {r back r' r''}, wire.Before r (front ++ back) →
    wire.Consumed r front r' → next.Consumed r' back r'' → wire.Consumed r (front ++ back) r''

section Continues

variable {wire next : Wire β γ ι} {front back : List ι}

theorem Continues.puts_append (hwire : wire.Continues next front)
    {first second : Serial β → Except Halt (Serial β)} (hfirst : wire.Puts first front)
    (hsecond : next.Puts second back) :
    wire.Puts (fun s => first s >>= second) (front ++ back) := by
  intro s hready
  obtain ⟨s₁, hput₁, hwrote₁⟩ := hfirst s (hwire.ready_left hready)
  obtain ⟨s₂, hput₂, hwrote₂⟩ := hsecond s₁ (hwire.ready_right hready hwrote₁)
  exact ⟨s₂, by simp only [hput₁, ok_bind, hput₂], hwire.wrote_append hready hwrote₁ hwrote₂⟩

/-- The second step may look at what the first obtained and at the flags of the reader it left,
which are clear where the second encoding comes next. -/
theorem Continues.gets_append (hwire : wire.Continues next front)
    {first : Reader β γ → Except Halt (α × Reader β γ)}
    {second : α × Reader β γ → Except Halt (α' × Reader β γ)} {item : α} {item' : α'}
    (hfirst : wire.Gets first front item)
    (hsecond : next.Gets (fun r => second (item, r)) back item') :
    wire.Gets (fun r => first r >>= second) (front ++ back) item' := by
  intro r hbefore
  obtain ⟨r₁, hget₁, hconsumed₁⟩ := hfirst r (hwire.before_left hbefore)
  obtain ⟨r₂, hget₂, hconsumed₂⟩ := hsecond r₁ (hwire.before_right hbefore hconsumed₁)
  exact ⟨r₂, by simp only [hget₁, ok_bind, hget₂],
    hwire.consumed_append hbefore hconsumed₁ hconsumed₂⟩

end Continues

/-- A reader at an encoding reports no mismatch. -/
def Clear (wire : Wire β γ ι) : Prop :=
  ∀ {r code}, wire.Before r code → r.serial.lastDidNotReadWholeSize = false

/-- Encodings can be put behind each other. -/
structure Lawful (wire : Wire β γ ι) : Prop where
  continues : ∀ front, wire.Continues wire front
  noMismatch : wire.Clear

theorem Lawful.puts_append {wire : Wire β γ ι} (hwire : wire.Lawful)
    {first second : Serial β → Except Halt (Serial β)} {front back : List ι}
    (hfirst : wire.Puts first front) (hsecond : wire.Puts second back) :
    wire.Puts (fun s => first s >>= second) (front ++ back) :=
  (hwire.continues front).puts_append hfirst hsecond

theorem Lawful.gets_append {wire : Wire β γ ι} (hwire : wire.Lawful)
    {first : Reader β γ → Except Halt (α × Reader β γ)}
    {second : α × Reader β γ → Except Halt (α' × Reader β γ)} {front back : List ι}
    {item : α} {item' : α'} (hfirst : wire.Gets first front item)
    (hsecond : wire.Gets (fun r => second (item, r)) back item') :
    wire.Gets (fun r => first r >>= second) (front ++ back) item' :=
  (hwire.continues front).gets_append hfirst hsecond

variable [Streambuf β] [Streambuf γ]

/-- Booleans and strings are read back as they were written. -/
structure Frames (wire : Wire β γ ι) (depth : Nat) : Prop extends wire.Lawful where
  puts_flag : ∀ flag, wire.Puts (Serial.putBool depth flag) (wire.flag flag)
  gets_flag : ∀ flag, wire.Gets (Reader.getBool depth) (wire.flag flag) flag
  puts_string : ∀ str, wire.Puts (Serial.serializeString depth str) (wire.string str)
  gets_string : ∀ str, wire.Gets (Reader.deserializeString depth []) (wire.string str) str

/-- A flag and then a string can be put in front of an encoding: the three wires are where the
flag, the string and the encoding start. -/
structure Heads (wire named bare : Wire β γ ι) (depth : Nat) : Prop where
  after_flag : wire.Continues named (wire.flag true)
  after_name : ∀ str, named.Continues bare (wire.string str)
  puts_flag : wire.Puts (Serial.putBool depth true) (wire.flag true)
  gets_flag : wire.Gets (Reader.getBool depth) (wire.flag true) true
  puts_string : ∀ str, named.Puts (Serial.serializeString depth str) (wire.string str)
  gets_string : ∀ str, named.Gets (Reader.deserializeString depth []) (wire.string str) str
  noMismatch_named : named.Clear
  noMismatch_bare : bare.Clear

theorem Frames.heads {wire : Wire β γ ι} {depth : Nat} (hwire : wire.Frames depth) :
    Heads wire wire wire depth where
  after_flag := hwire.continues _
  after_name _ := hwire.continues _
  puts_flag := hwire.puts_flag true
  gets_flag := hwire.gets_flag true
  puts_string := hwire.puts_string
  gets_string := hwire.gets_string
  noMismatch_named := hwire.noMismatch
  noMismatch_bare := hwire.noMismatch

end Wire

/-! ## A buffer -/

namespace Serial

variable {β γ : Type}

/-- Bytes in a buffer. -/
def bufferBytes (β γ : Type) : Wire β γ UInt8 where
  Ready s code := s.BufferMode ∧ s.bitStream = false ∧ s.Room code.length
  Wrote := Wrote
  Before r code := r.readBuffer.isNone ∧ r.serial.BufferMode ∧ r.serial.bitStream = false ∧
    r.serial.Holds code
  Consumed r code r' := Consumed r.serial code r'.serial ∧ r'.readBuffer.isNone
  flag := Ty.encodeBool
  string := Ty.encodeString

theorem bufferBytes_continues (front : List UInt8) :
    (bufferBytes β γ).Continues (bufferBytes β γ) front where
  ready_left := by
    rintro s back ⟨hmode, hplain, hroom⟩
    exact ⟨hmode, hplain, hroom.mono (by simp)⟩
  ready_right := by
    rintro s back s' ⟨hmode, hplain, hroom⟩ hwrote
    rw [List.length_append] at hroom
    exact ⟨Wrote.bufferMode hwrote hmode, (Wrote.bitStream hwrote).trans hplain,
      Wrote.room hwrote hroom⟩
  wrote_append := by
    rintro s back s' s'' ⟨-, -, hroom⟩ hfront hback
    rw [List.length_append] at hroom
    exact Wrote.append hroom hfront hback
  before_left := by
    rintro r back ⟨hnone, hmode, hplain, hholds⟩
    exact ⟨hnone, hmode, hplain, hholds.left⟩
  before_right := by
    rintro r back r' ⟨-, hmode, hplain, hholds⟩ ⟨hconsumed, hnone⟩
    exact ⟨hnone, hconsumed.bufferMode hmode, hconsumed.bitStream.trans hplain,
      hconsumed.holds hholds⟩
  consumed_append := by
    rintro r back r' r'' - ⟨hfront, -⟩ ⟨hback, hnone⟩
    exact ⟨hfront.append hback, hnone⟩

theorem bufferBytes_lawful : (bufferBytes β γ).Lawful where
  continues := bufferBytes_continues
  noMismatch := by
    rintro r code ⟨-, hmode, -, -⟩
    exact hmode.noLastMismatch

theorem puts_of_storesAs {α : Type} {put : α → Serial β → Except Halt (Serial β)}
    {encode : α → List UInt8} (hput : StoresAs put encode) (item : α) :
    (bufferBytes β γ).Puts (put item) (encode item) := by
  rintro s ⟨hmode, hplain, hroom⟩
  exact hput item s hmode hplain hroom

theorem gets_of_restoresAs {ι α : Type} {get : Reader β γ → Except Halt (α × Reader β γ)}
    {encode : ι → List UInt8} {content : ι → α} (hget : RestoresAs get encode content)
    (item : ι) : (bufferBytes β γ).Gets get (encode item) (content item) := by
  rintro ⟨s, readBuffer⟩ ⟨hnone, hmode, hplain, hholds⟩
  obtain rfl := Option.isNone_iff_eq_none.mp hnone
  obtain ⟨s', hread, hconsumed⟩ := hget item s hmode hplain hholds
  exact ⟨⟨s', none⟩, hread, hconsumed, rfl⟩

theorem bufferBytes_frames [Streambuf β] [Streambuf γ] (depth : Nat) :
    (bufferBytes β γ).Frames (depth + 2) where
  toLawful := bufferBytes_lawful
  puts_flag := puts_of_storesAs (putBool_storesAs depth)
  gets_flag := gets_of_restoresAs (getBool_restoresAs depth)
  puts_string := puts_of_storesAs (serializeString_storesAs (depth + 1))
  gets_string := gets_of_restoresAs (deserializeString_restoresAs (depth + 1) [])

/-! ## A string stream -/

/-- A plain writer that appends to a string stream with the given content. -/
structure Appending (s : Serial Stringbuf) (content : List UInt8) : Prop where
  notCount : s.isCountSerial = false
  notBuffer : s.isBufferSerial = false
  notPassthrough : s.passthroughPtr = none
  plain : s.bitStream = false
  stream : ∃ io, s.writeStream = some io ∧ io.good = true ∧ io.rdbuf.content = content ∧
    io.rdbuf.putPos = content.length

/-- A plain reader, outside any replay, with `bytes` left on its string stream. -/
structure Reading (r : Reader Stringbuf γ) (bytes : List UInt8) : Prop where
  noReplay : r.readBuffer = none
  stream : ∃ io, r.serial.StreamMode io ∧ io.good = true ∧ io.rdbuf.unread = bytes
  noOffset : r.serial.nextReadOffset = 0
  noMismatch : r.serial.lastSizeMismatchFlag = false

/-- Bytes on a string stream. -/
def streamBytes (γ : Type) : Wire Stringbuf γ UInt8 where
  Ready s code := code.length < 2 ^ 63 ∧ ∃ content, Appending s content
  Wrote s code s' := ∃ content, Appending s content ∧ Appending s' (content ++ code)
  Before r code := code.length < 2 ^ 63 ∧ ∃ rest, Reading r (code ++ rest)
  Consumed r code r' := ∃ rest, Reading r (code ++ rest) ∧ Reading r' rest
  flag := Ty.encodeBool
  string := Ty.encodeString

theorem Appending.content_unique {s : Serial Stringbuf} {content content' : List UInt8}
    (happending : Appending s content) (happending' : Appending s content') :
    content = content' := by
  obtain ⟨io, hio, -, hcontent, -⟩ := happending.stream
  obtain ⟨io', hio', -, hcontent', -⟩ := happending'.stream
  rw [hio] at hio'
  cases hio'
  exact hcontent.symm.trans hcontent'

theorem Reading.bytes_unique {r : Reader Stringbuf γ} {bytes bytes' : List UInt8}
    (hreading : Reading r bytes) (hreading' : Reading r bytes') : bytes = bytes' := by
  obtain ⟨io, hmode, -, hunread⟩ := hreading.stream
  obtain ⟨io', hmode', -, hunread'⟩ := hreading'.stream
  have hio := hmode.stream.symm.trans hmode'.stream
  cases hio
  exact hunread.symm.trans hunread'

theorem streamBytes_continues (front : List UInt8) :
    (streamBytes γ).Continues (streamBytes γ) front where
  ready_left := by
    rintro s back ⟨hsize, hcontent⟩
    rw [List.length_append] at hsize
    exact ⟨by omega, hcontent⟩
  ready_right := by
    rintro s back s' ⟨hsize, -⟩ ⟨content, -, hwrote⟩
    rw [List.length_append] at hsize
    exact ⟨by omega, _, hwrote⟩
  wrote_append := by
    rintro s back s' s'' - ⟨content, hstart, hfront⟩ ⟨content', hstart', hback⟩
    -- both parts are about the content of one stream
    obtain rfl := hfront.content_unique hstart'
    exact ⟨content, hstart, by rw [← List.append_assoc]; exact hback⟩
  before_left := by
    rintro r back ⟨hsize, rest, hreading⟩
    rw [List.length_append] at hsize
    exact ⟨by omega, back ++ rest, by rw [← List.append_assoc]; exact hreading⟩
  before_right := by
    rintro r back r' ⟨hsize, rest, hreading⟩ ⟨rest', hreading', hleft⟩
    rw [List.length_append] at hsize
    have hsame := hreading.bytes_unique hreading'
    rw [List.append_assoc, List.append_cancel_left_eq] at hsame
    subst hsame
    exact ⟨by omega, rest, hleft⟩
  consumed_append := by
    rintro r back r' r'' - ⟨rest, hreading, hleft⟩ ⟨rest', hreading', hleft'⟩
    obtain rfl := hleft.bytes_unique hreading'
    exact ⟨rest', by rw [List.append_assoc]; exact hreading, hleft'⟩

theorem streamBytes_lawful : (streamBytes γ).Lawful where
  continues := streamBytes_continues
  noMismatch := by
    rintro r code ⟨-, rest, hreading⟩
    exact hreading.noMismatch

/-- A block is appended, whatever becomes of the accumulator. -/
theorem Appending.writeBytes {s : Serial Stringbuf} {content : List UInt8}
    (happending : Appending s content) (src : List UInt8) (depth : Nat) :
    ∃ s', writeBytes (depth + 1) s src = .ok (toInt64 src.length, s') ∧
      ∀ byte count, Appending (s'.withWriteBits byte count) (content ++ src) := by
  obtain ⟨hcount, hbuffer, hpassthrough, hplain, io, hio, hgood, hcontent, hput⟩ := happending
  have hwrite : io.write src = { io with rdbuf := (io.rdbuf.xsputn src).2 } := by
    simp [IOStream.write, hgood, Streambuf.sputn, Stringbuf.xsputn]
  have hpointer : s.writeStreamPointer = true := by
    by_contra hnull
    simp [writeStream, hnull] at hio
  refine ⟨s.setStream (io.write src), ?_, fun byte count => ⟨hcount, hbuffer, hpassthrough,
    hplain, io.write src, ?_, ?_, ?_, ?_⟩⟩
  · simp [Serial.writeBytes, hcount, hbuffer, hpassthrough, hplain, hio]
  · simp [writeStream, withWriteBits, setStream, hpointer]
  · rw [hwrite]
    exact hgood
  · rw [hwrite, ← hcontent]
    rw [← hcontent] at hput
    simp [Stringbuf.xsputn, hput]
  · rw [hwrite, List.length_append, ← hput]
    rfl

theorem Appending.putBytes {s : Serial Stringbuf} {content : List UInt8}
    (happending : Appending s content) (src : List UInt8) (depth : Nat) :
    ∃ s', putBytes (depth + 1) src s = .ok s' ∧ Appending s' (content ++ src) := by
  obtain ⟨s', hwrite, happended⟩ := happending.writeBytes src depth
  exact ⟨s', by rw [Serial.putBytes, hwrite, ok_bind],
    happended s'.currentWriteByte s'.bitsWrittenWriteByte⟩

/-- A block that is left on the stream is delivered at once. -/
theorem Reading.readBytes {s : Serial Stringbuf} {bytes rest : List UInt8}
    (hreading : Reading (⟨s, none⟩ : Reader Stringbuf γ) (bytes ++ rest))
    (hsize : bytes.length < 2 ^ 63) (depth : Nat) (dest : List UInt8) :
    ∃ s', readBytes (depth + 1) s dest bytes.length =
        .ok ((bytes.length : Int), overwrite dest 0 bytes, s') ∧
      ∀ byte count,
        Reading (⟨s'.withReadBits byte count, none⟩ : Reader Stringbuf γ) rest := by
  obtain ⟨-, ⟨io, hmode, hgood, hunread⟩, hoffset, hmismatch⟩ := hreading
  have hget : Streambuf.sgetn io.rdbuf ((bytes.length - 0 : Nat) : Int) =
      (bytes, (io.rdbuf.xsgetn bytes.length).2) := by
    simp only [Streambuf.sgetn, Stringbuf.xsgetn, hunread, Nat.sub_zero, Int.toNat_natCast,
      List.take_left]
  have hread := readBytes_good hmode hgood hoffset (Nat.zero_le _) hsize hget
    (by omega) depth dest
  rw [toInt64_natCast (by omega), Nat.sub_zero] at hread
  refine ⟨_, hread, fun byte count => ⟨rfl, ⟨io.afterRead (io.rdbuf.xsgetn bytes.length).2 bytes
    bytes.length, ?_, ?_, ?_⟩, rfl, hmismatch⟩⟩
  · exact ⟨hmode.notCount, hmode.notBuffer, hmode.notPassthrough, hmode.plain, hmode.connected, rfl⟩
  · rw [IOStream.good_afterRead hgood]
    exact decide_eq_true rfl
  · rw [IOStream.rdbuf_afterRead, Stringbuf.unread_xsgetn, hunread, List.drop_left]

section Frames

variable [Streambuf γ]

theorem Reading.getBytes {r : Reader Stringbuf γ} {bytes rest : List UInt8}
    (hreading : Reading r (bytes ++ rest)) (hsize : bytes.length < 2 ^ 63) (depth : Nat)
    {old : List UInt8} (hlength : old.length = bytes.length) :
    ∃ r', Reader.getBytes (depth + 1) old r = .ok (bytes, r') ∧ Reading r' rest := by
  obtain ⟨s, readBuffer⟩ := r
  obtain rfl : readBuffer = none := hreading.noReplay
  obtain ⟨s', hread, hleft⟩ := hreading.readBytes hsize depth old
  refine ⟨⟨s', none⟩, ?_, hleft s'.currentReadByte s'.bitsReadReadByte⟩
  simp only [Reader.getBytes, Reader.readInto, hlength, hread, ok_bind]
  rw [overwrite_all hlength.symm]

omit [Streambuf γ] in
theorem streamBytes_bool (depth : Nat) (flag : Bool) :
    (streamBytes γ).Puts (putBool (depth + 2) flag) (Ty.encodeBool flag) ∧
      (streamBytes γ).Gets (Reader.getBool (depth + 2)) (Ty.encodeBool flag) flag := by
  constructor
  · rintro s ⟨-, content, happending⟩
    obtain ⟨s', hwrite, happended⟩ := happending.writeBytes (Ty.encodeBool flag) depth
    refine ⟨s'.withWriteBits 0 0, ?_, content, happending, happended 0 0⟩
    unfold Ty.encodeBool at hwrite
    simp [putBool, writeByte, happending.plain, hwrite, withWriteBits]
  · rintro ⟨s, readBuffer⟩ ⟨hsize, rest, hreading⟩
    obtain rfl : readBuffer = none := hreading.noReplay
    obtain ⟨io, hmode, -, -⟩ := hreading.stream
    obtain ⟨s', hread, hleft⟩ := hreading.readBytes hsize depth [s.currentReadByte]
    have hplain : s.bitStream = false := hmode.plain
    have hvalue : (UInt8.ofNat flag.toNat != 0) = flag := by cases flag <;> rfl
    have hdest : overwrite [s.currentReadByte] 0 (Ty.encodeBool flag) = Ty.encodeBool flag :=
      overwrite_all rfl
    rw [hdest] at hread
    simp only [Ty.encodeBool, List.length_singleton] at hread hleft
    refine ⟨⟨s'.refilled [UInt8.ofNat flag.toNat], none⟩, ?_, rest, hreading, hleft _ 0⟩
    simp [Reader.getBool, readByte, hplain, hread, refilled, hvalue]

theorem streamBytes_string (depth : Nat) (str : List UInt8) :
    (streamBytes γ).Puts (serializeString (depth + 1) str) (Ty.encodeString str) ∧
      (streamBytes γ).Gets (Reader.deserializeString (depth + 1) []) (Ty.encodeString str) str := by
  constructor
  · rintro s ⟨-, content, happending⟩
    obtain ⟨s₁, hsize, happending₁⟩ := happending.putBytes (leBytes 8 str.length) depth
    obtain ⟨s₂, hbody, happending₂⟩ := happending₁.putBytes str depth
    refine ⟨s₂, ?_, content, happending, ?_⟩
    · rw [serializeString, putSize, hsize, ok_bind, hbody]
    · rw [Ty.encodeString, ← List.append_assoc]
      exact happending₂
  · rintro r ⟨hsize, rest, hreading⟩
    rw [Ty.encodeString, List.length_append] at hsize
    have hparts := hreading
    rw [Ty.encodeString, List.append_assoc] at hparts
    obtain ⟨r₁, hlength, hreading₁⟩ := hparts.getBytes (by omega) depth
      (leBytes_length_eq 8 0 str.length)
    obtain ⟨r₂, hbody, hreading₂⟩ := hreading₁.getBytes (by omega) depth
      (show (Reader.resize [] str.length).length = str.length by simp [Reader.resize])
    refine ⟨r₂, ?_, rest, hreading, hreading₂⟩
    have hflag : r₁.serial.lastDidNotReadWholeSize = false := hreading₁.noMismatch
    have hresized : (Reader.resize [] str.length).length = str.length := by simp [Reader.resize]
    rw [Reader.getBytes, hresized] at hbody
    have hgetSize : r.getSize (depth + 1) ([] : List UInt8).length = .ok (str.length, r₁) := by
      simp only [Reader.getSize, List.length_nil, hlength, ok_bind,
        leValue_leBytes (show str.length < 256 ^ 8 by omega)]
    rw [Reader.deserializeString_sized _ hgetSize hflag (by omega), hbody]

theorem streamBytes_frames (depth : Nat) : (streamBytes γ).Frames (depth + 2) where
  toLawful := streamBytes_lawful
  puts_flag flag := (streamBytes_bool depth flag).1
  gets_flag flag := (streamBytes_bool depth flag).2
  puts_string str := (streamBytes_string (depth + 1) str).1
  gets_string str := (streamBytes_string (depth + 1) str).2

end Frames

end Serial
end Iostreams
