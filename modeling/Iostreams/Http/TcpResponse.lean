import Iostreams.Http.Decode
import Iostreams.Tcp.Segmentation

/-!
# Responses over TCP

A response is decoded from what the kernel hands over, in any segmentation.  Its head is read one
character at a time, so that each of its bytes takes one `recv`; the body takes one more, and what
that one does not hand over is not waited for.

`FeedsChars` is all that reading a head needs.  `Receives` satisfies it over a connection: it
counts the calls together with the bytes that are left, which tells the number of the call that
the body gets.
-/

namespace Iostreams

open Foundation

namespace Http

/-! ## Heads that are read one character at a time -/

section Fed

variable {β : Type} [Streambuf β] {fed : Serial β → List UInt8 → Prop}

/-- A character is read wherever `fed` says that there is one. -/
def FeedsChars (fed : Serial β → List UInt8 → Prop) : Prop :=
  ∀ s c rest fuel, fed s (c :: rest) →
    ∃ s', readChar (fuel + 1) s = .ok (c, s') ∧ fed s' rest

variable {s : Serial β} {rest : List UInt8}

theorem FeedsChars.text (hfed : FeedsChars fed) {text : List UInt8} (htext : 10 ∉ text)
    (hs : fed s (text ++ 10 :: rest)) {fuel : Nat} (hfuel : text.length < fuel)
    (result : List UInt8) :
    ∃ s', readLine fuel s result = .ok (result ++ strip text, s') ∧ fed s' rest := by
  induction text generalizing s fuel result with
  | nil =>
      obtain ⟨fuel, rfl⟩ := Nat.exists_eq_succ_of_ne_zero (Nat.ne_of_gt hfuel)
      obtain ⟨s', hread, hrest⟩ := hfed s 10 rest fuel hs
      refine ⟨s', ?_, hrest⟩
      rw [readLine, hread]
      simp [strip, pure, Except.pure]
  | cons c text ih =>
      obtain ⟨fuel, rfl⟩ := Nat.exists_eq_succ_of_ne_zero (Nat.ne_of_gt (Nat.zero_lt_of_lt hfuel))
      rw [List.mem_cons, not_or] at htext
      obtain ⟨hc, htext⟩ := htext
      obtain ⟨s₁, hread, hs₁⟩ := hfed s c (text ++ 10 :: rest) fuel hs
      have hshort : text.length < fuel := Nat.lt_of_succ_lt_succ hfuel
      rw [readLine, hread, strip_cons]
      by_cases hreturn : c = 13
      · obtain ⟨s', hline, hrest⟩ := ih htext hs₁ hshort result
        exact ⟨s', by simpa [hreturn] using hline, hrest⟩
      · obtain ⟨s', hline, hrest⟩ := ih htext hs₁ hshort (result ++ [c])
        exact ⟨s', by simpa [hreturn, Ne.symm hc] using hline, hrest⟩

theorem FeedsChars.line (hfed : FeedsChars fed) {line : List UInt8} (hline : LineText line)
    {ending : LineEnd} (hs : fed s (renderLine line ending ++ rest)) {fuel : Nat}
    (hfuel : (renderLine line ending).length ≤ fuel) :
    ∃ s', readLine fuel s [] = .ok (line, s') ∧ fed s' rest := by
  obtain ⟨text, hrender, htext, hstrip⟩ := renderLine_eq hline ending
  rw [hrender, List.append_assoc, List.singleton_append] at hs
  rw [hrender, List.length_append, List.length_singleton] at hfuel
  have hshort : text.length < fuel := by omega
  obtain ⟨s', hread, hrest⟩ := hfed.text htext hs hshort []
  exact ⟨s', by rw [hread, hstrip, List.nil_append], hrest⟩

/-- The empty line ends the headers. -/
theorem FeedsChars.headers (hfed : FeedsChars fed) {lines : List (List UInt8 × LineEnd)}
    (hlines : ∀ line ∈ lines, LineText line.1 ∧ line.1 ≠ []) {headEnd : LineEnd}
    (hs : fed s (lines.flatMap (fun line => renderLine line.1 line.2) ++
      (renderLine [] headEnd ++ rest))) {fuel : Nat}
    (hfuel : (lines.flatMap (fun line => renderLine line.1 line.2) ++
      renderLine [] headEnd).length ≤ fuel) (headers : Headers) :
    ∃ s', readHeaders fuel s headers =
        .ok ((lines.map Prod.fst).foldl setHeader headers, s') ∧ fed s' rest := by
  induction lines generalizing s fuel headers with
  | nil =>
      have hpos : 0 < (renderLine [] headEnd).length := by cases headEnd <;> decide
      simp only [List.flatMap_nil, List.nil_append] at hs hfuel
      -- the empty line
      obtain ⟨fuel, rfl⟩ := Nat.exists_eq_succ_of_ne_zero (show fuel ≠ 0 by omega)
      obtain ⟨s', hread, hrest⟩ :=
        hfed.line ⟨List.not_mem_nil, List.not_mem_nil⟩ hs hfuel
      refine ⟨s', ?_, hrest⟩
      rw [readHeaders, hread]
      rfl
  | cons line lines ih =>
      obtain ⟨hline, hne⟩ := hlines line List.mem_cons_self
      simp only [List.flatMap_cons, List.append_assoc, List.length_append] at hs hfuel
      have hpos : 0 < (renderLine line.1 line.2).length := by
        rw [renderLine, List.length_append]
        exact Nat.add_pos_left (List.length_pos_iff.mpr hne) _
      obtain ⟨fuel, rfl⟩ := Nat.exists_eq_succ_of_ne_zero (show fuel ≠ 0 by omega)
      have hfirst : (renderLine line.1 line.2).length ≤ fuel + 1 := by omega
      have hothers : (lines.flatMap (fun line => renderLine line.1 line.2) ++
          renderLine [] headEnd).length ≤ fuel := by
        rw [List.length_append]
        omega
      obtain ⟨s₁, hread, hs₁⟩ := hfed.line hline hs hfirst
      obtain ⟨s', hothers, hrest⟩ :=
        ih (fun later hlater => hlines later (List.mem_cons_of_mem _ hlater)) hs₁ hothers
          (setHeader headers line.1)
      refine ⟨s', ?_, hrest⟩
      rw [readHeaders, hread]
      simpa [hne] using hothers

/-- Up to its body a rendering is read from the characters alone. -/
theorem FeedsChars.rendering (hfed : FeedsChars fed) (rendering : Rendering)
    (hs : fed s rendering.bytes) {fuel : Nat} (hfuel : rendering.bytes.length ≤ fuel) :
    ∃ s', deserialize fuel s {} =
        readBody mallocObject fuel s' { rendering.message.response with body := {} } ∧
      fed s' (rendering.message.body.getD []) ∧ 0 < fuel := by
  -- the head is a status line, the header lines and an empty line
  have hplain : ∀ header ∈ rendering.headers.map Prod.fst, PlainHeader header := by
    intro header hmem
    apply rendering.message.headers_plain
    rw [← rendering.headers_eq]
    exact hmem
  let lines := rendering.headers.map fun header => (headerLine header.1, header.2)
  have hfst : lines.map Prod.fst = (rendering.headers.map Prod.fst).map headerLine := by
    rw [List.map_map, List.map_map]
    rfl
  have hlines : ∀ line ∈ lines, LineText line.1 ∧ line.1 ≠ [] := by
    intro line hline
    obtain ⟨header, hmem, rfl⟩ := List.mem_map.mp hline
    exact ⟨(hplain header.1 (List.mem_map_of_mem hmem)).lineText, headerLine_ne_nil header.1⟩
  have hbytes : rendering.bytes = renderLine rendering.statusLine rendering.statusEnd ++
      (lines.flatMap (fun line => renderLine line.1 line.2) ++
        (renderLine [] rendering.headEnd ++ rendering.message.body.getD [])) := by
    rw [Rendering.bytes, List.flatMap_map]
    simp only [List.append_assoc]
  rw [hbytes] at hs hfuel
  simp only [List.length_append] at hfuel
  have hend : 0 < (renderLine [] rendering.headEnd).length := by
    cases rendering.headEnd <;> decide
  have hstatusFuel : (renderLine rendering.statusLine rendering.statusEnd).length ≤ fuel := by
    omega
  have hheadersFuel : (lines.flatMap (fun line => renderLine line.1 line.2) ++
      renderLine [] rendering.headEnd).length ≤ fuel := by
    rw [List.length_append]
    omega
  obtain ⟨s₁, hstatus, hs₁⟩ := hfed.line rendering.lineText_statusLine hs hstatusFuel
  obtain ⟨s', hheaders, hs'⟩ := hfed.headers hlines hs₁ hheadersFuel ∅
  refine ⟨s', ?_, hs', by omega⟩
  rw [hfst, headers_rendered rendering.headers_eq hplain] at hheaders
  rw [deserialize, deserializeWith, hstatus]
  simp only [ok_bind, rendering.parseStatusLine_statusLine, if_true, hheaders]
  rfl

end Fed

/-! ## Responses over TCP -/

/-- A connection that has `data` left; the calls of `recv` that were made and the bytes that are
left are `total` together. -/
def Receives (segments : Nat → { count : Nat // 0 < count }) (total : Nat)
    (s : Serial TcpStreambuf) (data : List UInt8) : Prop :=
  ∃ call, s.Receiving data segments call ∧ call + data.length = total

/-- Every character takes one `recv`. -/
theorem feedsChars_receives (segments : Nat → { count : Nat // 0 < count }) (total : Nat) :
    FeedsChars (Receives segments total) := by
  rintro s c rest fuel ⟨call, hreceiving, htotal⟩
  -- whatever a segment holds, one byte is asked for
  have hone : TcpStreambuf.handed segments call (c :: rest).length 1 = 1 :=
    TcpStreambuf.handed_one segments call (Nat.succ_pos _)
  have hpos : 0 < ([0] : List UInt8).length := Nat.one_pos
  have hsize : ([0] : List UInt8).length < 2 ^ 63 := by decide
  have hfits : ([0] : List UInt8).length ≤ (c :: rest).length := Nat.succ_le_succ (Nat.zero_le _)
  obtain ⟨s', hread, hnext⟩ := Serial.readBytes_recv hreceiving hpos hsize hfits fuel
  have hcount : TcpStreambuf.handed segments call (c :: rest).length
      (([0] : List UInt8).length : Int) = 1 := hone
  rw [hcount] at hread hnext
  refine ⟨s', ?_, call + 1, hnext rfl, ?_⟩
  · rw [readChar]
    have hbyte : s.readBytes (fuel + 1) [0] 1 = .ok (1, [c], s') := hread
    rw [hbyte]
    rfl
  · rw [← htotal, List.length_cons, Nat.add_assoc, Nat.add_comm 1]

/-- The bytes in front of the body. -/
def Rendering.headLength (rendering : Rendering) : Nat :=
  rendering.bytes.length - (rendering.message.body.getD []).length

/-- The response that is decoded where the body gets the `recv` with the number `call`: what that
one does not hand over stays zero. -/
def HttpMessage.received (message : HttpMessage)
    (segments : Nat → { count : Nat // 0 < count }) (call : Nat) : HttpResponse :=
  { message.response with
    body :=
      match message.body with
      | none => {}
      | some bytes =>
          let count := TcpStreambuf.handed segments call bytes.length bytes.length
          ⟨bytes.length, some (overwrite (List.replicate (bytes.length + 1) 0) 0
            (bytes.take count))⟩ }

/-- A body that is handed over at once is complete. -/
theorem HttpMessage.received_eq_response {message : HttpMessage}
    {segments : Nat → { count : Nat // 0 < count }} {call : Nat}
    (hwhole : ∀ bytes ∈ message.body,
      TcpStreambuf.handed segments call bytes.length bytes.length = bytes.length) :
    message.received segments call = message.response := by
  rw [HttpMessage.received, HttpMessage.response]
  cases hbody : message.body with
  | none => rfl
  | some bytes =>
      have hblock : overwrite (List.replicate (bytes.length + 1) 0) 0 bytes = bytes ++ [0] := by
        rw [overwrite_eq (by simp)]
        simp
      simp only [hwhole bytes hbody, List.take_length, hblock]

/-- A block read takes one `recv`, or none where nothing is asked for. -/
theorem readBytes_block {s : Serial TcpStreambuf} {bytes : List UInt8}
    {segments : Nat → { count : Nat // 0 < count }} {call : Nat}
    (hreceiving : s.Receiving bytes segments call) (hsize : bytes.length < 2 ^ 63) (depth : Nat)
    (dest : List UInt8) :
    let count := TcpStreambuf.handed segments call bytes.length bytes.length
    ∃ returned s', s.readBytes (depth + 1) dest bytes.length =
      .ok (returned, overwrite dest 0 (bytes.take count), s') := by
  obtain ⟨io, hmode, hgood, hoffset, hdata, hsegments, hcall⟩ := hreceiving
  intro count
  have hbytes : (io.rdbuf.xsgetn bytes.length).1 = bytes.take count := by
    -- without bytes there is no `recv`
    by_cases hempty : bytes = []
    · subst hempty
      exact (TcpStreambuf.xsgetn_empty hdata _).1
    · have hpos : (0 : Int) < bytes.length := by
        have hlength := List.length_pos_iff.mpr hempty
        omega
      obtain ⟨hget, -⟩ := TcpStreambuf.xsgetn_pending (hdata ▸ hempty) hpos
      rw [hdata, hsegments, hcall] at hget
      exact hget
  have hget : Streambuf.sgetn io.rdbuf ((bytes.length - 0 : Nat) : Int) =
      (bytes.take count, (io.rdbuf.xsgetn bytes.length).2) := by
    rw [Nat.sub_zero, ← hbytes]
    rfl
  have hlength : (bytes.take count).length < 2 ^ 64 := by
    rw [List.length_take]
    omega
  have hzero : s.nextReadOffset = (0 : Nat) := hoffset
  exact ⟨_, _, Serial.readBytes_good hmode hgood hzero (Nat.zero_le _) hsize hget hlength depth
    dest⟩

/-- A rendering is decoded to its message, of which the body may lack its end. -/
theorem deserialize_tcp (rendering : Rendering) {s : Serial TcpStreambuf}
    {segments : Nat → { count : Nat // 0 < count }}
    (hreceiving : s.Receiving rendering.bytes segments 0) {fuel : Nat}
    (hfuel : rendering.bytes.length ≤ fuel) :
    ∃ s', deserialize fuel s {} =
      .ok (rendering.message.received segments rendering.headLength, s') := by
  obtain ⟨s₁, hhead, ⟨call, hreceiving₁, htotal⟩, hpos⟩ :=
    (feedsChars_receives segments rendering.bytes.length).rendering rendering
      ⟨0, hreceiving, Nat.zero_add _⟩ hfuel
  have hcall : call = rendering.headLength := by
    rw [Rendering.headLength, ← htotal, Nat.add_sub_cancel]
  rw [hcall] at hreceiving₁
  have hlookup := rendering.message.contentLength
  have hlt := rendering.message.body_lt
  rw [hhead]
  cases hbody : rendering.message.body with
  | none =>
      rw [hbody, Option.map_none] at hlookup
      refine ⟨s₁, ?_⟩
      unfold readBody
      simp [hlookup, HttpMessage.response, HttpMessage.received, hbody]
  | some bytes =>
      rw [hbody, Option.map_some] at hlookup
      rw [hbody, Option.getD_some] at hreceiving₁
      -- the length goes through `stoll` and `size_t`, and the block has a byte more
      have hsize : bytes.length < 2 ^ 63 - 1 := hlt bytes hbody
      have hnumber : stoll (decimal bytes.length) = .ok (bytes.length : Int) :=
        stoll_decimal (by omega)
      have hcount : toSizeT (bytes.length : Int) = bytes.length := toSizeT_natCast (by omega)
      have hnext : toSizeT ((bytes.length : Int) + 1) = bytes.length + 1 := by
        rw [← Nat.cast_succ]
        exact toSizeT_natCast (by omega)
      have hgranted : mallocObject (bytes.length + 1) = true := decide_eq_true (by omega)
      obtain ⟨fuel, rfl⟩ := Nat.exists_eq_succ_of_ne_zero (Nat.ne_of_gt hpos)
      obtain ⟨returned, s', hread⟩ := readBytes_block hreceiving₁ (by omega) fuel
        (List.replicate (bytes.length + 1) 0)
      refine ⟨s', ?_⟩
      unfold readBody
      simp [hlookup, decimal_ne_nil, hnumber, hcount, hnext, hgranted, hread, HttpMessage.response,
        HttpMessage.received, hbody, pure, Except.pure]

end Http
end Iostreams
