import Iostreams.Http.RestSync
import Iostreams.Http.TcpResponse

/-!
# `restSync` over TCP connections

`restSyncTcp` is `restSync` with its connections: each URI is connected to, the request is
serialized to the connection, and the response is decoded from what the peer answers to all that
was sent.  The connections are noted, with the bytes that were sent over them.

`Redirects` describes the peers by what they answer: renderings of redirections, each to a
rendered URI, and last a rendering of another response.
-/

namespace Iostreams

open Foundation

/-! ## One exchange -/

/-- What a peer answers, and how the kernel hands it over. -/
structure HttpPeer where
  bytes : List UInt8
  segments : Nat → { count : Nat // 0 < count }
  closes : Bool

namespace Serial

/-- The bytes that were sent over the connection. -/
def tcpSent (s : Serial TcpStreambuf) : List UInt8 :=
  match s.stream with
  | some io => io.rdbuf.outgoing
  | none => []

/-- The answer of the peer gets to the connection. -/
def answered (s : Serial TcpStreambuf) (peer : HttpPeer) : Serial TcpStreambuf :=
  match s.stream with
  | some io => s.setStream { io with rdbuf := { io.rdbuf with
      incoming := peer.bytes, segments := peer.segments, peerClosed := peer.closes } }
  | none => s

end Serial

namespace Http

/-- A connection over which nothing was sent yet. -/
def freshConnection : Serial TcpStreambuf :=
  Serial.overTcp [] (fun _ => ⟨1, Nat.one_pos⟩) false

/-- `(serial << request).synchronize()` and `serial >> response` on a new connection: the bytes
that are sent, and the response. -/
def exchange (fuel : Nat) (peer : List UInt8 → HttpPeer) (request : HttpRequest) :
    Except Halt (List UInt8 × HttpResponse) := do
  let s ← request.serialize fuel freshConnection
  let s ← s.synchronize fuel
  let (response, _) ← deserialize fuel (s.answered (peer s.tcpSent)) {}
  return (s.tcpSent, response)

/-- A `Serial` that has written `sent` to its connection. -/
structure HasSent (s : Serial TcpStreambuf) (sent : List UInt8) : Prop where
  stream : ∃ io, s.StreamMode io ∧ io.good = true ∧ io.rdbuf.outgoing = sent ∧ io.rdbuf.recvs = 0
  writable : s.writeStreamPointer = true
  noOffset : s.nextReadOffset = 0
  noBits : s.bitsWrittenWriteByte = 0

theorem hasSent_freshConnection : HasSent freshConnection [] :=
  ⟨⟨_, Serial.streamMode_ofStream _, rfl, rfl, rfl⟩, rfl, rfl, rfl⟩

variable {s : Serial TcpStreambuf} {sent : List UInt8}

/-- The peer takes what is written. -/
theorem HasSent.write (hsent : HasSent s sent) (src : List UInt8) (depth : Nat) :
    ∃ returned s', s.writeBytes (depth + 1) src = .ok (returned, s') ∧ HasSent s' (sent ++ src) := by
  obtain ⟨⟨io, hmode, hgood, rfl, hrecvs⟩, hwritable, hoffset, hbits⟩ := hsent
  have hwrite : io.write src = { io with rdbuf := (io.rdbuf.xsputn src).2 } := by
    simp [IOStream.write, hgood, Streambuf.sputn, TcpStreambuf.xsputn]
  refine ⟨_, _, Serial.writeBytes_stream hmode hwritable depth src, ?_⟩
  rw [hwrite]
  exact ⟨⟨_, hmode.setStream _, hgood, rfl, hrecvs⟩, hwritable, hoffset, hbits⟩

/-- Nothing is left to be flushed. -/
theorem HasSent.synchronize (hsent : HasSent s sent) (depth : Nat) :
    s.synchronize depth = .ok s := by
  obtain ⟨⟨io, hmode, hgood, -, -⟩, hwritable, -, hbits⟩ := hsent
  have hflush : io.flush = io := by simp [IOStream.flush, hgood, Streambuf.sync]
  have hsync : io.sync = io := by simp [IOStream.sync, hgood, Streambuf.sync]
  have hself : s.setStream io = s := by rw [Serial.setStream, ← hmode.stream]
  have hwrite : s.writeStream = some io := by
    rw [Serial.writeStream, hwritable, hmode.stream]
    rfl
  simp [Serial.synchronize, hbits, hwrite, hmode.readStream, hflush, hsync, hself]

/-- The whole answer is still to be received. -/
theorem HasSent.answered (hsent : HasSent s sent) (peer : HttpPeer) :
    s.tcpSent = sent ∧ (s.answered peer).Receiving peer.bytes peer.segments 0 := by
  obtain ⟨⟨io, hmode, hgood, rfl, hrecvs⟩, -, hoffset, -⟩ := hsent
  constructor
  · rw [Serial.tcpSent, hmode.stream]
  · rw [Serial.answered, hmode.stream]
    exact ⟨_, hmode.setStream _, hgood, hoffset, rfl, rfl, hrecvs⟩

/-- A request is sent completely, and the rendering that answers it is decoded. -/
theorem exchange_rendering {peer : List UInt8 → HttpPeer} {request : HttpRequest}
    (rendering : Rendering)
    (hanswer : (peer (request.header ++ request.body)).bytes = rendering.bytes) {fuel : Nat}
    (hfuel : rendering.bytes.length < fuel) :
    exchange fuel peer request = .ok (request.header ++ request.body,
      rendering.message.received (peer (request.header ++ request.body)).segments
        rendering.headLength) := by
  obtain ⟨fuel, rfl⟩ := Nat.exists_eq_succ_of_ne_zero (Nat.ne_of_gt (Nat.zero_lt_of_lt hfuel))
  obtain ⟨_, s₁, hhead, hsent₁⟩ := hasSent_freshConnection.write request.header fuel
  obtain ⟨_, s₂, hbody, hsent₂⟩ := hsent₁.write request.body fuel
  rw [List.nil_append] at hsent₂
  obtain ⟨hsent, hreceiving⟩ :=
    hsent₂.answered (peer (request.header ++ request.body))
  rw [hanswer] at hreceiving
  obtain ⟨s', hread⟩ := deserialize_tcp rendering hreceiving (Nat.le_of_lt hfuel)
  have hserialize : request.serialize (fuel + 1) freshConnection = .ok s₂ := by
    rw [HttpRequest.serialize, hhead, ok_bind]
    simp only
    rw [hbody]
    rfl
  rw [exchange, hserialize]
  simp only [ok_bind, hsent₂.synchronize, hsent, hread]
  rfl

end Http

/-! ## Connections -/

/-- A connection of `restSync`, with all that was sent over it. -/
structure HttpConnection where
  host : List UInt8
  port : Int
  secure : Bool
  sent : List UInt8
  deriving DecidableEq

/-- What comes of connecting to the host and port of a URI, and who is there. -/
structure HttpNetwork where
  /-- What the constructor of the client throws. -/
  connect : ExtractedUri → Option String
  peer : ExtractedUri → List UInt8 → HttpPeer

namespace RestCall

open Http

/-- `restSync(verb, uri, headers, body)`: its connections, and its end. -/
def restSyncTcp (net : HttpNetwork) (call : RestCall) (fuel : Nat) :
    Nat → List UInt8 → List HttpConnection × Except Halt HttpResponse
  | 0, _ => ([], .error .outOfFuel)
  | hops + 1, uri =>
      match extractUri uri false with
      | .error what => ([], .error (.exception what))
      | .ok extracted =>
          match net.connect extracted with
          | some what => ([], .error (.exception what))
          | none =>
              match exchange fuel (net.peer extracted) (call.request extracted) with
              | .error halt => ([], .error halt)
              | .ok (sent, response) =>
                  let connection := ⟨extracted.host, extracted.port, extracted.secure, sent⟩
                  if response.statusCode = found then
                    let (connections, result) :=
                      restSyncTcp net call fuel hops (location response)
                    (connection :: connections, result)
                  else ([connection], .ok response)

/-- Where every exchange ends, `restSync` is the same for what its peers answer. -/
theorem restSyncTcp_eq_restSync {net : HttpNetwork} {call : RestCall} {fuel : Nat}
    {serve : List UInt8 → HttpRequest → Except String HttpResponse}
    (hserve : ∀ uri extracted, extractUri uri false = .ok extracted →
      (∃ what, net.connect extracted = some what ∧
        serve uri (call.request extracted) = .error what) ∨
      net.connect extracted = none ∧
        ((∃ what, exchange fuel (net.peer extracted) (call.request extracted) =
            .error (.exception what) ∧ serve uri (call.request extracted) = .error what) ∨
          ∃ sent response, exchange fuel (net.peer extracted) (call.request extracted) =
            .ok (sent, response) ∧ serve uri (call.request extracted) = .ok response))
    (hops : Nat) (uri : List UInt8) :
    (restSyncTcp net call fuel hops uri).2 = (restSync serve call hops uri).2 := by
  induction hops generalizing uri with
  | zero => rfl
  | succ hops ih =>
      rw [restSyncTcp, restSync]
      cases hextract : extractUri uri false with
      | error what => rfl
      | ok extracted =>
          obtain ⟨what, hconnect, hsame⟩ | ⟨hconnect, hanswer⟩ := hserve uri extracted hextract
          · simp only [hconnect, hsame]
          · obtain ⟨what, hexchange, hsame⟩ | ⟨sent, response, hexchange, hsame⟩ := hanswer
            · simp only [hconnect, hexchange, hsame]
            · -- both follow the same location
              simp only [hconnect, hexchange, hsame]
              by_cases hfound : response.statusCode = found
              · rw [if_pos hfound, if_pos hfound]
                exact ih (location response)
              · rw [if_neg hfound, if_neg hfound]

/-! ## Peers that answer with renderings -/

section Answers

variable (net : HttpNetwork) (call : RestCall)

/-- The connection for a URI: to its host and port, with the whole request. -/
def connection (uri : HttpUri) : HttpConnection where
  host := uri.host
  port := uri.port.port uri.secure
  secure := uri.secure
  sent := (call.request (uri.extracted false)).header ++ call.body

/-- Who answers the request for a URI. -/
def peerOf (uri : HttpUri) : HttpPeer :=
  net.peer (uri.extracted false) (connection call uri).sent

/-- The peer can be connected to, and answers the request for the URI with a rendering. -/
structure Answers (uri : HttpUri) (rendering : Rendering) : Prop where
  connects : net.connect (uri.extracted false) = none
  bytes_eq : (peerOf net call uri).bytes = rendering.bytes

/-- What is decoded from the answer. -/
def decoded (uri : HttpUri) (rendering : Rendering) : HttpResponse :=
  rendering.message.received (peerOf net call uri).segments rendering.headLength

/-- Redirections from one rendered URI to the next, up to a response that is none. -/
inductive Redirects : HttpUri → List HttpConnection → HttpResponse → Prop
  | last {uri : HttpUri} (rendering : Rendering) (answers : Answers net call uri rendering)
      (other : rendering.message.statusCode ≠ found) :
      Redirects uri [connection call uri] (decoded net call uri rendering)
  | hop {uri next : HttpUri} {connections : List HttpConnection} {response : HttpResponse}
      (rendering : Rendering) (answers : Answers net call uri rendering)
      (moved : rendering.message.statusCode = found)
      (location_eq : rendering.message.headers.lookup locationName = some next.render)
      (rest : Redirects next connections response) :
      Redirects uri (connection call uri :: connections) response

variable {net call}

/-- The parts that a rendered URI is made of are extracted. -/
theorem extractUri_parts (uri : HttpUri) :
    extractUri uri.render false = .ok (uri.extracted false) := by
  obtain ⟨hscheme, -⟩ := uri.parts_render
  have hhas : HasScheme uri.render := by
    refine ⟨?_, hscheme ▸ uri.scheme_known⟩
    rw [HttpUri.render]
    exact List.mem_append_right _ List.mem_cons_self
  rw [extractUri_eq, if_pos hhas, hscheme, uri.host_render.2, uri.portOf_render]
  simp only [Except.map, partsOf, hscheme, uri.host_render.1, uri.authority_render.2]
  rfl

/-- One round, where there is fuel for it and for the response. -/
theorem Answers.round {uri : HttpUri} {rendering : Rendering}
    (hanswers : Answers net call uri rendering) {fuel : Nat}
    (hfuel : rendering.bytes.length < fuel) (hops : Nat) :
    restSyncTcp net call fuel (hops + 1) uri.render =
      if rendering.message.statusCode = found then
        let next := restSyncTcp net call fuel hops
          ((rendering.message.headers.lookup locationName).getD [])
        (connection call uri :: next.1, next.2)
      else ([connection call uri], .ok (decoded net call uri rendering)) := by
  have hexchange : exchange fuel (net.peer (uri.extracted false))
      (call.request (uri.extracted false)) =
        .ok ((connection call uri).sent, decoded net call uri rendering) :=
    exchange_rendering rendering hanswers.bytes_eq hfuel
  rw [restSyncTcp, extractUri_parts]
  simp only [hanswers.connects, hexchange]
  rfl

/-- Along a chain of redirections `restSync` connects to the host and the port of each URI, sends
exactly the request for it, and returns the last response, as far as its body was handed over. -/
theorem restSyncTcp_redirects {uri : HttpUri} {connections : List HttpConnection}
    {response : HttpResponse} (hredirects : Redirects net call uri connections response) :
    ∃ enough, ∀ fuel hops, enough ≤ fuel → enough ≤ hops →
      restSyncTcp net call fuel hops uri.render = (connections, .ok response) := by
  induction hredirects with
  | last rendering answers other =>
      -- one hop, with fuel for the whole response
      refine ⟨rendering.bytes.length + 1, fun fuel hops hfuel hhops => ?_⟩
      obtain ⟨hops, rfl⟩ := Nat.exists_eq_add_of_le' (Nat.le_trans (Nat.le_add_left 1 _) hhops)
      rw [answers.round hfuel, if_neg other]
  | hop rendering answers moved location_eq rest ih =>
      obtain ⟨enough, hrest⟩ := ih
      refine ⟨max enough rendering.bytes.length + 1, fun fuel hops hfuel hhops => ?_⟩
      obtain ⟨hops, rfl⟩ := Nat.exists_eq_add_of_le' (Nat.le_trans (Nat.le_add_left 1 _) hhops)
      have hnext := hrest fuel hops (by omega) (by omega)
      rw [answers.round (by omega), if_pos moved, location_eq, Option.getD_some, hnext]

end Answers

/-- `http://a` -/
def uriA : HttpUri where
  scheme := httpName
  host := [97]
  port := .absent
  path := []
  scheme_known := Or.inl rfl
  host_plain := by decide
  port_lt := nofun
  path_rooted := Or.inl rfl

/-- `http://b:81/x` -/
def uriB : HttpUri where
  scheme := httpName
  host := [98]
  port := .number 81
  path := [47, 120]
  scheme_known := Or.inl rfl
  host_plain := by decide
  port_lt := by
    intro number hnumber
    cases hnumber
    decide
  path_rooted := Or.inr rfl

/-- `HTTP/1.1 302 Found` with the location `http://b:81/x` -/
def foundB : HttpMessage where
  scheme := [72, 84, 84, 80]
  version := [49, 46, 49]
  statusCode := found
  statusText := [70, 111, 117, 110, 100]
  headers := Finmap.singleton locationName uriB.render
  body := none
  scheme_plain := twoBytes.scheme_plain
  version_plain := twoBytes.version_plain
  statusCode_plain := by decide
  statusText_line := by decide
  headers_plain := by decide +kernel
  contentLength := by decide
  body_lt := noContent.body_lt

/-- `a` redirects to `b`, which answers with two bytes; each `recv` hands over one byte. -/
def twoPeers : HttpNetwork where
  connect _ := none
  peer extracted _ :=
    let rendering : Rendering :=
      if extracted.host = [97] then
        ⟨foundB, [(⟨locationName, uriB.render⟩, .crlf)], .crlf, .crlf, rfl⟩
      else ⟨twoBytes, [(⟨contentLengthName, [50]⟩, .crlf)], .crlf, .crlf, rfl⟩
    ⟨rendering.bytes, fun _ => ⟨1, Nat.one_pos⟩, true⟩

/-- The second body byte is not waited for. -/
theorem restSyncTcp_redirects_two :
    let call : RestCall := { verb := [71, 69, 84] }
    ∃ response, response.body = ⟨2, some [104, 0, 0]⟩ ∧
      ∃ enough, ∀ fuel hops, enough ≤ fuel → enough ≤ hops →
        restSyncTcp twoPeers call fuel hops uriA.render =
          ([connection call uriA, connection call uriB], .ok response) := by
  intro call
  refine ⟨_, ?_, restSyncTcp_redirects (.hop _ ⟨rfl, rfl⟩ rfl rfl (.last _ ⟨rfl, rfl⟩ ?_))⟩
  · decide +kernel
  · decide

end RestCall
end Iostreams
