import Iostreams.Serial.StreamMode
import Iostreams.Tcp.Streambuf

/-!
# Block reads from a TCP connection

`Serial::readBytes` asks the stream once, the stream asks its buffer once, and
the buffer calls `recv` once.  So a block read of `n` bytes is complete exactly
when the one `recv` behind it hands over all `n`; a short one sets the failure
bits of the stream, after which nothing is read any more.

`WholeSegments` is that condition on the segmentation, and
`readBytes_delivers_iff` says that it is the exact condition under which a
sequence of reads obtains the bytes the peer sent.
-/

namespace Iostreams

open Foundation

namespace Serial

/-- Reading into each destination in turn returns its size and stores in it the
next bytes of `data`. -/
def Delivers (depth : Nat) :
    List (List UInt8) → List UInt8 → Serial TcpStreambuf → Prop
  | [], _, _ => True
  | dest :: rest, data, s =>
      ∃ s', readBytes depth s dest dest.length =
          .ok ((dest.length : Int), data.take dest.length, s') ∧
        Delivers depth rest (data.drop dest.length) s'

/-- Every request for at least one byte is covered by the segment its `recv`
obtains; `left` bytes are still to be received. -/
def WholeSegments (segments : Nat → { count : Nat // 0 < count }) :
    Nat → Nat → List Nat → Prop
  | _, _, [] => True
  | call, left, size :: rest =>
      if size = 0 then WholeSegments segments call left rest
      else size < 2 ^ 63 ∧ TcpStreambuf.handed segments call left size = size ∧
        WholeSegments segments (call + 1) (left - size) rest

/-- A `Serial` over a connection that has `data` left and delivered no short
read so far. -/
def Receiving (s : Serial TcpStreambuf) (data : List UInt8)
    (segments : Nat → { count : Nat // 0 < count }) (call : Nat) : Prop :=
  ∃ io, s.StreamMode io ∧ io.good = true ∧ s.nextReadOffset = 0 ∧ io.rdbuf.incoming = data ∧
    io.rdbuf.segments = segments ∧ io.rdbuf.recvs = call

variable {s : Serial TcpStreambuf} {data : List UInt8}
  {segments : Nat → { count : Nat // 0 < count }} {call : Nat}

theorem handed_lt (segments : Nat → { count : Nat // 0 < count }) (call left : Nat)
    (size : Int) : TcpStreambuf.handed segments call left size < 2 ^ 64 := by
  have hlt := toSizeT_lt (toInt32 size)
  rw [TcpStreambuf.handed, TcpStreambuf.recvLength]
  omega

/-- A request for nothing changes nothing. -/
theorem readBytes_nothing (hreceiving : Receiving s data segments call) (depth : Nat) :
    ∃ s', readBytes (depth + 1) s [] 0 = .ok (0, [], s') ∧ Receiving s' data segments call := by
  obtain ⟨io, hmode, hgood, hoffset, hdata, hsegments, hcall⟩ := hreceiving
  have hget : Streambuf.sgetn io.rdbuf ((0 - 0 : Nat) : Int) = ([], io.rdbuf) :=
    CharSource.get_nonpos io.rdbuf 0 (Int.le_refl 0)
  refine ⟨_, readBytes_good hmode hgood hoffset (Nat.le_refl 0) (by omega) hget (by simp) depth [],
    _, hmode.received _ _ _ _, ?_, rfl, ?_⟩
  · rw [IOStream.good_afterRead hgood]
    rfl
  · rw [IOStream.rdbuf_afterRead]
    exact ⟨hdata, hsegments, hcall⟩

/-- A positive request returns what one `recv` hands over, and a stream that
was handed less is not good afterwards. -/
theorem readBytes_recv (hreceiving : Receiving s data segments call) {dest : List UInt8}
    (hpos : 0 < dest.length) (hsize : dest.length < 2 ^ 63) (hfits : dest.length ≤ data.length)
    (depth : Nat) :
    let count := TcpStreambuf.handed segments call data.length dest.length
    ∃ s', readBytes (depth + 1) s dest dest.length =
        .ok (toInt64 count, overwrite dest 0 (data.take count), s') ∧
      (count = dest.length → Receiving s' (data.drop dest.length) segments (call + 1)) := by
  obtain ⟨io, hmode, hgood, hoffset, hdata, hsegments, hcall⟩ := hreceiving
  intro count
  have hpending : io.rdbuf.incoming ≠ [] := by
    rw [hdata]
    exact List.length_pos_iff.mp (by omega)
  obtain ⟨hbytes, hrest, hsegments', hcall'⟩ :=
    TcpStreambuf.xsgetn_pending hpending (show (0 : Int) < dest.length by omega)
  rw [hdata, hsegments, hcall] at hbytes hrest
  have hlength : (io.rdbuf.xsgetn dest.length).1.length = count := by
    rw [hbytes, List.length_take]
    simp only [count, TcpStreambuf.handed]
    omega
  have hbound : count < 2 ^ 64 := handed_lt segments call data.length dest.length
  have hget : Streambuf.sgetn io.rdbuf ((dest.length - 0 : Nat) : Int) =
      ((io.rdbuf.xsgetn dest.length).1, (io.rdbuf.xsgetn dest.length).2) := rfl
  have hread := readBytes_good hmode hgood hoffset (Nat.zero_le _) hsize hget (by omega) depth dest
  rw [hlength, hbytes, Nat.sub_zero] at hread
  refine ⟨_, hread, ?_⟩
  intro hwhole
  refine ⟨_, hmode.received _ _ _ _, ?_, rfl, ?_⟩
  · rw [IOStream.good_afterRead hgood, decide_eq_true_iff, List.length_take]
    omega
  · rw [IOStream.rdbuf_afterRead, hrest, hsegments', hcall', hsegments, hcall]
    exact ⟨congrArg data.drop hwhole, rfl, rfl⟩

/-- A run of reads returns are the sizes of the segments. -/
theorem delivers_iff (depth : Nat) (dests : List (List UInt8)) {s : Serial TcpStreambuf}
    {data : List UInt8} {call : Nat} (hreceiving : Receiving s data segments call)
    (hsum : (dests.map List.length).sum ≤ data.length) :
    Delivers (depth + 1) dests data s ↔
      WholeSegments segments call data.length (dests.map List.length) := by
  induction dests generalizing s data call with
  | nil => exact Iff.rfl
  | cons dest rest ih =>
      rw [List.map_cons, List.sum_cons] at hsum
      simp only [Delivers, List.map_cons, WholeSegments]
      by_cases hzero : dest.length = 0
      · -- an empty request does not reach `recv`
        have hnil := List.length_eq_zero_iff.mp hzero
        subst hnil
        obtain ⟨s', hread, hreceiving'⟩ := readBytes_nothing hreceiving depth
        rw [if_pos List.length_nil, ← ih hreceiving' (by omega)]
        simp [hread]
      · rw [if_neg hzero]
        by_cases hsize : dest.length < 2 ^ 63
        · obtain ⟨s', hread, hnext⟩ :=
            readBytes_recv hreceiving (by omega) hsize (by omega) depth
          by_cases hwhole : TcpStreambuf.handed segments call data.length dest.length =
              dest.length
          · have hreceiving' := hnext hwhole
            rw [hwhole, toInt64_natCast hsize,
              overwrite_all (by rw [List.length_take]; omega)] at hread
            have hlength : data.length - dest.length = (data.drop dest.length).length := by
              rw [List.length_drop]
            rw [hlength, ← ih hreceiving' (by rw [List.length_drop]; omega)]
            constructor
            · rintro ⟨s'', hread', hrest⟩
              rw [hread] at hread'
              injection hread' with hpair
              injection hpair with _ hpair
              injection hpair with _ hstate
              exact ⟨hsize, hwhole, hstate ▸ hrest⟩
            · rintro ⟨_, _, hrest⟩
              exact ⟨s', hread, hrest⟩
          · -- a short segment: the value returned is not the size requested
            constructor
            · rintro ⟨s'', hread', _⟩
              rw [hread] at hread'
              injection hread' with hpair
              injection hpair with hreturn _
              have hcount := handed_lt segments call data.length dest.length
              exact absurd (eq_of_toInt64_eq hcount hreturn) hwhole
            · rintro ⟨_, hwhole', _⟩
              exact absurd hwhole' hwhole
        · -- a size that is negative as a `streamsize` is never returned
          constructor
          · rintro ⟨s', hread, _⟩
            obtain ⟨io, hmode, _⟩ := hreceiving
            have hlt := s.readStreamBytes_lt io dest dest.length
            rw [readBytes_stream hmode] at hread
            injection hread with hpair
            have hreturn := congrArg Prod.fst hpair
            omega
          · rintro ⟨hsize', _⟩
            exact absurd hsize' hsize

/-- A `Serial` over a fresh connection. -/
def overTcp (data : List UInt8) (segments : Nat → { count : Nat // 0 < count })
    (peerClosed : Bool) : Serial TcpStreambuf :=
  ofStream { rdbuf := TcpStreambuf.connected data segments peerClosed } false

theorem receiving_overTcp (data : List UInt8) (segments : Nat → { count : Nat // 0 < count })
    (peerClosed : Bool) : Receiving (overTcp data segments peerClosed) data segments 0 :=
  ⟨{ rdbuf := TcpStreambuf.connected data segments peerClosed }, streamMode_ofStream _, rfl, rfl,
    rfl, rfl, rfl⟩

/-- **Segmentation.**  Block reads of at most the bytes the peer sent return
their sizes and deliver those bytes in order if and only if every one of them
that is not empty is covered by the segment the kernel hands to its `recv`. -/
theorem readBytes_delivers_iff (data : List UInt8)
    (segments : Nat → { count : Nat // 0 < count }) (peerClosed : Bool)
    (dests : List (List UInt8)) (hsum : (dests.map List.length).sum ≤ data.length)
    (depth : Nat) :
    Delivers (depth + 1) dests data (overTcp data segments peerClosed) ↔
      WholeSegments segments 0 data.length (dests.map List.length) :=
  delivers_iff depth dests (receiving_overTcp data segments peerClosed) hsum

/-- Two bytes in two segments and one request for both. -/
theorem readBytes_delivers_iff_split :
    Delivers 1 [[0, 0]] [104, 105] (overTcp [104, 105] (fun _ => ⟨1, Nat.one_pos⟩) true) ↔
      WholeSegments (fun _ => ⟨1, Nat.one_pos⟩) 0 2 [2] :=
  readBytes_delivers_iff [104, 105] (fun _ => ⟨1, Nat.one_pos⟩) true [[0, 0]] (by decide) 0

/-- The request for both returns one, although both bytes were sent. -/
theorem readBytes_short_segment :
    ([[0, 0]].map List.length).sum ≤ [104, 105].length ∧
      ¬Delivers 1 [[0, 0]] [104, 105] (overTcp [104, 105] (fun _ => ⟨1, Nat.one_pos⟩) true) := by
  refine ⟨by decide, fun hdelivers => ?_⟩
  have hwhole := (delivers_iff 0 [[0, 0]] (receiving_overTcp [104, 105] _ true)
    (by decide)).mp hdelivers
  have hshort : TcpStreambuf.handed (fun _ => ⟨1, Nat.one_pos⟩) 0 2 2 = 1 := by decide
  simp only [WholeSegments, List.map_cons, List.length_cons, List.length_nil] at hwhole
  exact absurd (hshort.symm.trans hwhole.2.1) (by decide)

end Serial
end Iostreams
