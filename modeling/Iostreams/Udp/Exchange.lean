import Iostreams.Udp.Through

/-!
# Clients, a server and the network between them

`udp_client` is a stream over a socket of its own, whose output goes to the server.  Every byte
that a client or a stream of the server sends is a datagram; the network may deliver it late, out
of order, many times or not at all.  `UdpExchange` runs a server with any number of clients, and
`passed` notes which of the datagrams of a link the network delivered, in the order of delivery.

A client loses nothing of what is delivered to it.  The server loses what its program has not read
when the next datagram of the same client is received.
-/

namespace Iostreams

open Foundation

/-- The way from a client to the server, or back. -/
inductive UdpLink where
  | up (client : SockAddr)
  | down (client : SockAddr)
  deriving DecidableEq

structure UdpExchange where
  server : UdpServer
  clients : SockAddr → IOStream UdpChannel
  /-- The numbers of the datagrams that were delivered, in the order of delivery. -/
  passed : UdpLink → List Nat

/-- What the program at the server, the programs of the clients and the network do. -/
inductive ExchangeEvent where
  | server (event : UdpEvent)
  | write (client : SockAddr) (src : List UInt8)
  /-- One character of a read. -/
  | get (client : SockAddr)
  | clear (client : SockAddr)
  | deliver (link : UdpLink) (number : Nat)

namespace UdpExchange

/-- `udp_client(host, port)` -/
def client (here : SockAddr) (refuses : Nat → Bool) : IOStream UdpChannel :=
  { rdbuf := ⟨{ addr := here }, { refuses }⟩ }

/-- A server at the address `here` and clients that have sent nothing. -/
def bound (here : SockAddr) (refuses : SockAddr → Nat → Bool) : UdpExchange where
  server := .bound (refuses here)
  clients key := client here (refuses key)
  passed _ := []

def setClient (ex : UdpExchange) (key : SockAddr) (io : IOStream UdpChannel) : UdpExchange :=
  { ex with clients := Function.update ex.clients key io }

/-- What was sent over a link, with the address it was sent to. -/
def output (ex : UdpExchange) : UdpLink → List (SockAddr × UInt8)
  | .up key => (ex.clients key).rdbuf.buf.sent
  | .down key => (ex.server.stream key).rdbuf.sent

def sent (ex : UdpExchange) (link : UdpLink) : List UInt8 := (ex.output link).map Prod.snd

/-- The bytes that the network delivered over a link. -/
def passedBytes (ex : UdpExchange) (link : UdpLink) : List UInt8 :=
  (ex.passed link).filterMap fun number => (ex.sent link)[number]?

def source (here : SockAddr) : UdpLink → SockAddr
  | .up key => key
  | .down _ => here

/-- A datagram arrives at a socket. -/
def arriveAt (io : IOStream UdpChannel) (datagram : Datagram) : IOStream UdpChannel :=
  { io with rdbuf := { io.rdbuf with
      socket := { io.rdbuf.socket with inbox := io.rdbuf.socket.inbox ++ [datagram] } } }

def arrive (here : SockAddr) (ex : UdpExchange) (dst : SockAddr) (datagram : Datagram) :
    UdpExchange :=
  if dst = here then { ex with server := ex.server.perform (.arrive datagram) }
  else ex.setClient dst (arriveAt (ex.clients dst) datagram)

def notePassed (ex : UdpExchange) (link : UdpLink) (number : Nat) : UdpExchange :=
  { ex with passed := Function.update ex.passed link (ex.passed link ++ [number]) }

/-- The next character of a read; `recvfrom` waits where there is no datagram. -/
def getChar (io : IOStream UdpChannel) : IOStream UdpChannel :=
  if io.rdbuf.buf.getArea = [] ∧ io.rdbuf.socket.inbox = [] then io else (io.read 1).2

def perform (here : SockAddr) (ex : UdpExchange) : ExchangeEvent → UdpExchange
  | .server event => { ex with server := ex.server.perform event }
  | .write key src => ex.setClient key ((ex.clients key).write src)
  | .get key => ex.setClient key (getChar (ex.clients key))
  | .clear key => ex.setClient key (ex.clients key).clear
  | .deliver link number =>
      match (ex.output link)[number]? with
      | none => ex
      | some (dst, c) =>
          (ex.arrive here dst ⟨source here link, [c]⟩).notePassed link number

/-- The bytes of a client that an event takes the place of. -/
def lostBy (ex : UdpExchange) (key : SockAddr) : ExchangeEvent → List UInt8
  | .server event => ex.server.overwritten key event
  | _ => []

/-- Only the network brings datagrams, and no read at the server takes one of another client. -/
def Allowed (ex : UdpExchange) : ExchangeEvent → Prop
  | .server event => (∀ datagram, event ≠ .arrive datagram) ∧ ex.server.RefillsOwn event
  | _ => True

/-- In addition nothing of the client is unread when its next datagram is received. -/
def AllowedDrained (key : SockAddr) (ex : UdpExchange) (event : ExchangeEvent) : Prop :=
  ex.Allowed event ∧ ex.lostBy key event = []

/-! ### Invariants -/

/-- Who every datagram is from, where every output goes, and that what was delivered to a client
is with it. -/
structure Sound (here : SockAddr) (ex : UdpExchange) : Prop where
  streams : ex.server.StreamsOwned
  allocated : ex.server.Allocated
  requests : ex.server.socket.SingleBytes
  clients : ∀ key, (ex.clients key).rdbuf.buf.Owned here
  replies : ∀ key, (ex.clients key).rdbuf.socket.SingleBytes
  senders : ∀ key, ∀ datagram ∈ (ex.clients key).rdbuf.socket.inbox, datagram.sender = here
  passed_lt : ∀ link, ∀ number ∈ ex.passed link, number < (ex.sent link).length
  down : ∀ key, key ≠ here →
    (ex.clients key).rdbuf.through here = ex.passedBytes (.down key)

variable {here key : SockAddr} {ex next : UdpExchange} {link : UdpLink}

theorem sound_bound (here : SockAddr) (refuses : SockAddr → Nat → Bool) :
    (bound here refuses).Sound here where
  streams _ _ hlookup := nomatch hlookup
  allocated := UdpServer.allocated_bound _
  requests _ hmem := nomatch hmem
  clients _ := ⟨rfl, Nat.succ_pos 4095, nofun, nofun, nofun⟩
  replies _ _ hmem := nomatch hmem
  senders _ _ hmem := nomatch hmem
  passed_lt _ _ hmem := nomatch hmem
  down _ _ := rfl

/-- More output changes nothing of what was delivered. -/
theorem passedBytes_of_take (hpassed : next.passed link = ex.passed link)
    (hsent : ex.sent link <+: next.sent link)
    (hlt : ∀ number ∈ ex.passed link, number < (ex.sent link).length) :
    next.passedBytes link = ex.passedBytes link := by
  obtain ⟨more, hmore⟩ := hsent
  rw [passedBytes, passedBytes, hpassed, ← hmore]
  apply List.filterMap_congr
  intro number hnumber
  exact List.getElem?_append_left (hlt number hnumber)

theorem clients_setClient_of_ne {other : SockAddr} (hne : other ≠ key) (io : IOStream UdpChannel) :
    (ex.setClient key io).clients other = ex.clients other := Function.update_of_ne hne _ _

@[simp] theorem clients_setClient_self (io : IOStream UdpChannel) :
    (ex.setClient key io).clients key = io := Function.update_self _ _ _

/-- What holds of every client and of the new one holds of every client afterwards. -/
theorem forall_setClient (holds : IOStream UdpChannel → Prop) (hall : ∀ key, holds (ex.clients key))
    {io : IOStream UdpChannel} (hio : holds io) (other : SockAddr) :
    holds ((ex.setClient key io).clients other) := by
  by_cases hsame : other = key
  · subst hsame
    rwa [clients_setClient_self]
  · rw [clients_setClient_of_ne hsame]
    exact hall other

/-- All datagrams at the socket of a client are from the server. -/
theorem refillsFrom_of_senders {size : Nat} {inbox : List Datagram}
    (hsenders : ∀ datagram ∈ inbox, datagram.sender = key) (need : Nat) :
    RefillsFrom key size inbox need := by
  induction inbox generalizing need with
  | nil => trivial
  | cons datagram rest ih =>
      have hrest : ∀ later ∈ rest, later.sender = key := fun later hlater =>
        hsenders later (List.mem_cons_of_mem _ hlater)
      exact Or.inr ⟨hsenders datagram List.mem_cons_self, Or.inr (ih hrest _)⟩

/-! ### One event -/

theorem sent_setClient {io : IOStream UdpChannel}
    (hoperates : UdpChannel.Operates here (ex.clients key).rdbuf io.rdbuf) (link : UdpLink) :
    ex.sent link <+: (ex.setClient key io).sent link := by
  cases link with
  | up other =>
      by_cases hsame : other = key
      · subst hsame
        rw [sent, sent, output, output, clients_setClient_self]
        exact hoperates.sent.map Prod.snd
      · rw [sent, sent, output, output, clients_setClient_of_ne hsame]
  | down other => exact List.prefix_rfl

/-- An operation of a client on its stream. -/
theorem Sound.setClient (hsound : ex.Sound here) (key : SockAddr) {io : IOStream UdpChannel}
    (hoperates : UdpChannel.Operates here (ex.clients key).rdbuf io.rdbuf)
    (howned : io.rdbuf.buf.Owned here) : (ex.setClient key io).Sound here := by
  have hsent := sent_setClient hoperates
  have hpassed : ∀ link, (ex.setClient key io).passedBytes link = ex.passedBytes link :=
    fun link => passedBytes_of_take rfl (hsent link) (hsound.passed_lt link)
  refine ⟨hsound.streams, hsound.allocated, hsound.requests, ?_, ?_, ?_, ?_, ?_⟩
  · exact forall_setClient (fun io => io.rdbuf.buf.Owned here) hsound.clients howned
  · exact forall_setClient (fun io => io.rdbuf.socket.SingleBytes) hsound.replies
      (hoperates.singleBytes (hsound.replies key))
  · exact forall_setClient (fun io => ∀ datagram ∈ io.rdbuf.socket.inbox, datagram.sender = here)
      hsound.senders fun datagram hmem => hsound.senders key datagram (hoperates.inbox.mem hmem)
  · intro link number hnumber
    exact Nat.lt_of_lt_of_le (hsound.passed_lt link number hnumber) (hsent link).length_le
  · intro other hother
    have hdown := (hsound.down other hother).trans
      (hpassed (.down other)).symm
    by_cases hsame : other = key
    · subst hsame
      rw [clients_setClient_self]
      exact hoperates.through_eq.trans hdown
    · rw [clients_setClient_of_ne hsame]
      exact hdown

theorem Sound.operates_write (hsound : ex.Sound here) (key : SockAddr) (src : List UInt8) :
    UdpChannel.Operates here (ex.clients key).rdbuf ((ex.clients key).write src).rdbuf ∧
      ((ex.clients key).write src).rdbuf.buf.Owned here := by
  rw [UdpServer.rdbuf_write]
  split
  · exact ⟨UdpChannel.operates_xsputn src _ here,
      UdpChannel.xsputn_owned (hsound.clients key) src⟩
  · exact ⟨UdpChannel.Operates.refl here _, hsound.clients key⟩

theorem Sound.operates_getChar (hsound : ex.Sound here) (key : SockAddr) :
    UdpChannel.Operates here (ex.clients key).rdbuf (getChar (ex.clients key)).rdbuf ∧
      (getChar (ex.clients key)).rdbuf.buf.Owned here := by
  have howned := hsound.clients key
  have hrefills : RefillsFrom here (ex.clients key).rdbuf.buf.gbufferSize
      (ex.clients key).rdbuf.socket.inbox (1 - (ex.clients key).rdbuf.buf.getArea.length) :=
    refillsFrom_of_senders (hsound.senders key) _
  unfold getChar
  split
  · exact ⟨UdpChannel.Operates.refl here _, howned⟩
  · rw [UdpServer.rdbuf_read]
    split
    · exact ⟨UdpChannel.operates_xsgetn 1 howned (hsound.replies key) hrefills,
        (UdpChannel.xsgetn_owned_iff howned 1).mpr hrefills⟩
    · exact ⟨UdpChannel.Operates.refl here _, howned⟩

/-- An event at the server. -/
theorem Sound.server (hsound : ex.Sound here) {event : UdpEvent}
    (hinside : ∀ datagram, event ≠ .arrive datagram) (hrefills : ex.server.RefillsOwn event) :
    UdpExchange.Sound here { ex with server := ex.server.perform event } := by
  have hadvances := UdpServer.advances_perform hsound.streams hsound.allocated hsound.requests
    hinside hrefills
  have hsent : ∀ link, ex.sent link <+:
      UdpExchange.sent { ex with server := ex.server.perform event } link := by
    rintro (other | other)
    · exact List.prefix_rfl
    · exact (hadvances other).sent.map Prod.snd
  have hpassed : ∀ link, UdpExchange.passedBytes
      { ex with server := ex.server.perform event } link = ex.passedBytes link :=
    fun link => passedBytes_of_take rfl (hsent link) (hsound.passed_lt link)
  refine ⟨(UdpServer.perform_owned_iff hsound.streams event).mpr hrefills,
    hsound.allocated.perform event, ?_, hsound.clients, hsound.replies, hsound.senders, ?_, ?_⟩
  · exact fun datagram hmem => hsound.requests datagram ((hadvances here).inbox.mem hmem)
  · intro link number hnumber
    exact Nat.lt_of_lt_of_le (hsound.passed_lt link number hnumber) (hsent link).length_le
  · intro other hother
    exact (hsound.down other hother).trans (hpassed (.down other)).symm

/-- A datagram arrives at the server. -/
theorem Sound.arriveServer (hsound : ex.Sound here) (datagram : Datagram)
    (hsingle : datagram.data.length = 1) :
    UdpExchange.Sound here { ex with server := ex.server.perform (.arrive datagram) } where
  streams := (UdpServer.perform_owned_iff hsound.streams (.arrive datagram)).mpr trivial
  allocated := hsound.allocated.perform (.arrive datagram)
  requests := by
    intro other hmem
    rcases List.mem_append.mp hmem with hold | hnew
    · exact hsound.requests other hold
    · rwa [List.mem_singleton.mp hnew]
  clients := hsound.clients
  replies := hsound.replies
  senders := hsound.senders
  passed_lt := hsound.passed_lt
  down := hsound.down

@[simp] theorem passed_notePassed_self (link : UdpLink) (number : Nat) :
    (ex.notePassed link number).passed link = ex.passed link ++ [number] :=
  Function.update_self _ _ _

theorem passed_notePassed_of_ne {other : UdpLink} (hne : other ≠ link) (number : Nat) :
    (ex.notePassed link number).passed other = ex.passed other := Function.update_of_ne hne _ _

theorem passedBytes_notePassed_self {number : Nat} {c : UInt8}
    (hc : (ex.sent link)[number]? = some c) :
    (ex.notePassed link number).passedBytes link = ex.passedBytes link ++ [c] := by
  have hsent : (ex.notePassed link number).sent link = ex.sent link := rfl
  rw [passedBytes, passedBytes, passed_notePassed_self, hsent, List.filterMap_append]
  simp [hc]

theorem passedBytes_notePassed_of_ne {other : UdpLink} (hne : other ≠ link) (number : Nat) :
    (ex.notePassed link number).passedBytes other = ex.passedBytes other := by
  have hsent : (ex.notePassed link number).sent other = ex.sent other := rfl
  rw [passedBytes, passedBytes, passed_notePassed_of_ne hne, hsent]

theorem passed_lt_notePassed
    (hpassed : ∀ link, ∀ number ∈ ex.passed link, number < (ex.sent link).length) {number : Nat}
    (hlt : number < (ex.sent link).length) (other : UdpLink) :
    ∀ later ∈ (ex.notePassed link number).passed other,
      later < ((ex.notePassed link number).sent other).length := by
  by_cases hsame : other = link
  · subst hsame
    rw [passed_notePassed_self]
    intro later hlater
    rcases List.mem_append.mp hlater with hold | hnew
    · exact hpassed other later hold
    · rw [List.mem_singleton.mp hnew]
      exact hlt
  · rw [passed_notePassed_of_ne hsame]
    exact hpassed other

/-- A delivery to the server is noted. -/
theorem Sound.notePassed (hsound : ex.Sound here) {number : Nat}
    (hlt : number < (ex.sent link).length) (hlink : ∀ key, key ≠ here → link ≠ .down key) :
    (ex.notePassed link number).Sound here where
  streams := hsound.streams
  allocated := hsound.allocated
  requests := hsound.requests
  clients := hsound.clients
  replies := hsound.replies
  senders := hsound.senders
  passed_lt := passed_lt_notePassed hsound.passed_lt hlt
  down := by
    intro key hkey
    have hother : UdpLink.down key ≠ link := fun hsame => hlink key hkey hsame.symm
    rw [passedBytes_notePassed_of_ne hother]
    exact hsound.down key hkey

/-- A datagram at a client is no output. -/
theorem sent_arriveAt (key : SockAddr) (datagram : Datagram) (link : UdpLink) :
    (ex.setClient key (arriveAt (ex.clients key) datagram)).sent link = ex.sent link := by
  cases link with
  | up other =>
      by_cases hsame : other = key
      · subst hsame
        rw [sent, output, clients_setClient_self]
        rfl
      · rw [sent, output, clients_setClient_of_ne hsame]
        rfl
  | down other => rfl

theorem passedBytes_arriveAt (key : SockAddr) (datagram : Datagram) (link : UdpLink) :
    (ex.setClient key (arriveAt (ex.clients key) datagram)).passedBytes link =
      ex.passedBytes link := by
  rw [passedBytes, passedBytes, sent_arriveAt]
  rfl

/-- A datagram of the server arrives at a client. -/
theorem Sound.arriveClient (hsound : ex.Sound here) (hkey : key ≠ here) {number : Nat} {c : UInt8}
    (hc : (ex.sent (.down key))[number]? = some c) :
    ((ex.setClient key (arriveAt (ex.clients key) ⟨here, [c]⟩)).notePassed
      (.down key) number).Sound here := by
  have hsent := @sent_arriveAt ex key ⟨here, [c]⟩
  have hlt : number < (ex.sent (.down key)).length := (List.getElem?_eq_some_iff.mp hc).1
  refine ⟨hsound.streams, hsound.allocated, hsound.requests, ?_, ?_, ?_, ?_, ?_⟩
  · exact forall_setClient (fun io => io.rdbuf.buf.Owned here) hsound.clients (hsound.clients key)
  · refine forall_setClient (fun io => io.rdbuf.socket.SingleBytes) hsound.replies ?_
    intro datagram hmem
    rcases List.mem_append.mp hmem with hold | hnew
    · exact hsound.replies key datagram hold
    · rw [List.mem_singleton.mp hnew]
      rfl
  · refine forall_setClient
      (fun io => ∀ datagram ∈ io.rdbuf.socket.inbox, datagram.sender = here) hsound.senders ?_
    intro datagram hmem
    rcases List.mem_append.mp hmem with hold | hnew
    · exact hsound.senders key datagram hold
    · rw [List.mem_singleton.mp hnew]
  · -- the number is that of an output
    apply passed_lt_notePassed
    · intro link
      rw [hsent]
      exact hsound.passed_lt link
    · rwa [hsent]
  · intro other hother
    have hdown := hsound.down other hother
    show ((ex.setClient key _).clients other).rdbuf.through here = _
    by_cases hsame : other = key
    · subst hsame
      have hc' := hc
      rw [← hsent] at hc'
      rw [passedBytes_notePassed_self hc', passedBytes_arriveAt, ← hdown, clients_setClient_self,
        UdpChannel.through, UdpChannel.through, arriveAt, waitingFrom_concat, if_pos rfl,
        List.append_assoc]
    · have hlink : UdpLink.down other ≠ .down key := fun h => hsame (UdpLink.down.inj h)
      rw [passedBytes_notePassed_of_ne hlink, passedBytes_arriveAt, ← hdown,
        clients_setClient_of_ne hsame]

/-- Outputs of a client go to the server, those of a stream of the server to its client. -/
theorem Sound.destination (hsound : ex.Sound here) {dst : SockAddr} {c : UInt8} :
    ((dst, c) ∈ ex.output (.up key) → dst = here) ∧
      ((dst, c) ∈ ex.output (.down key) → dst = key) := by
  refine ⟨fun hmem => (hsound.clients key).sent _ hmem, fun hmem => ?_⟩
  rw [output, UdpServer.stream] at hmem
  cases hlookup : ex.server.clientStreams.lookup key with
  | none =>
      rw [hlookup] at hmem
      cases hmem
  | some io =>
      rw [hlookup] at hmem
      exact (hsound.streams key io hlookup).sent _ hmem

/-- A delivery brings a datagram to the server or to the client it was sent to. -/
theorem Sound.deliver_cases (hsound : ex.Sound here) (link : UdpLink) (number : Nat) :
    ex.perform here (.deliver link number) = ex ∨
      ∃ c, (ex.sent link)[number]? = some c ∧
        ((∀ key, key ≠ here → link ≠ .down key) ∧ ex.perform here (.deliver link number) =
            UdpExchange.notePassed
              { ex with server := ex.server.perform (.arrive ⟨source here link, [c]⟩) }
              link number ∨
          ∃ key, key ≠ here ∧ link = .down key ∧ ex.perform here (.deliver link number) =
            (ex.setClient key (arriveAt (ex.clients key) ⟨here, [c]⟩)).notePassed link number) := by
  rw [perform]
  cases houtput : (ex.output link)[number]? with
  | none => exact Or.inl rfl
  | some entry =>
      obtain ⟨dst, c⟩ := entry
      have hmem := List.mem_of_getElem? houtput
      refine Or.inr ⟨c, by rw [sent, List.getElem?_map, houtput]; rfl, ?_⟩
      show _ ∧ (ex.arrive here dst ⟨source here link, [c]⟩).notePassed link number = _ ∨
        ∃ key, _ ∧ _ ∧ (ex.arrive here dst ⟨source here link, [c]⟩).notePassed link number = _
      cases link with
      | up key =>
          -- a client writes to the server only
          rw [arrive, if_pos (hsound.destination.1 hmem)]
          exact Or.inl ⟨fun _ _ => nofun, rfl⟩
      | down key =>
          obtain rfl := hsound.destination.2 hmem
          by_cases hself : dst = here
          · -- a stream under the address of the server itself, created by a failed receive
            rw [arrive, if_pos hself]
            exact Or.inl ⟨fun other hother hlink =>
              hother ((UdpLink.down.inj hlink).symm.trans hself), rfl⟩
          · rw [arrive, if_neg hself]
            exact Or.inr ⟨dst, hself, rfl, rfl⟩

theorem Sound.deliver (hsound : ex.Sound here) (link : UdpLink) (number : Nat) :
    (ex.perform here (.deliver link number)).Sound here := by
  obtain hsame | ⟨c, hc, ⟨hlink, hserver⟩ | ⟨key, hkey, rfl, hclient⟩⟩ :=
    hsound.deliver_cases link number
  · rwa [hsame]
  · rw [hserver]
    exact (hsound.arriveServer ⟨source here link, [c]⟩ rfl).notePassed
      (List.getElem?_eq_some_iff.mp hc).1 hlink
  · rw [hclient]
    exact hsound.arriveClient hkey hc

theorem Sound.perform (hsound : ex.Sound here) {event : ExchangeEvent}
    (hallowed : ex.Allowed event) : (ex.perform here event).Sound here := by
  cases event with
  | server event => exact hsound.server hallowed.1 hallowed.2
  | write key src =>
      exact hsound.setClient key (hsound.operates_write key src).1 (hsound.operates_write key src).2
  | get key =>
      exact hsound.setClient key (hsound.operates_getChar key).1 (hsound.operates_getChar key).2
  | clear key =>
      exact hsound.setClient key (UdpChannel.Operates.refl here _) (hsound.clients key)
  | deliver link number => exact hsound.deliver link number

/-! ### From a client to the server -/

/-- The bytes of a client at the server after an event: some are lost, and others arrive. -/
def UpStep (key : SockAddr) (ex next : UdpExchange) (lost : List UInt8) : Prop :=
  ∃ front back more, ex.server.through key = front ++ (lost ++ back) ∧
    next.server.through key = front ++ back ++ more ∧
    next.passedBytes (.up key) = ex.passedBytes (.up key) ++ more

theorem through_arrive (server : UdpServer) (key : SockAddr) (datagram : Datagram) :
    (server.perform (.arrive datagram)).through key =
      server.through key ++ if datagram.sender = key then datagram.data else [] := by
  show UdpChannel.through ⟨(server.stream key).rdbuf,
    { server.socket with inbox := server.socket.inbox ++ [datagram] }⟩ key = _
  rw [UdpChannel.through, waitingFrom_concat, ← List.append_assoc]
  rfl

theorem UpStep.gains {more : List UInt8}
    (hthrough : next.server.through key = ex.server.through key ++ more)
    (hpassed : next.passedBytes (.up key) = ex.passedBytes (.up key) ++ more) :
    UpStep key ex next [] :=
  ⟨ex.server.through key, [], more, by rw [List.append_nil, List.append_nil],
    by rw [hthrough, List.append_nil], hpassed⟩

theorem UpStep.quiet (hthrough : next.server.through key = ex.server.through key)
    (hpassed : next.passedBytes (.up key) = ex.passedBytes (.up key)) : UpStep key ex next [] :=
  UpStep.gains (hthrough.trans (List.append_nil _).symm) (hpassed.trans (List.append_nil _).symm)

theorem upStep_setClient (hsound : ex.Sound here) {other : SockAddr} {io : IOStream UdpChannel}
    (hoperates : UdpChannel.Operates here (ex.clients other).rdbuf io.rdbuf) :
    UpStep key ex (ex.setClient other io) [] :=
  UpStep.quiet rfl
    (passedBytes_of_take rfl (sent_setClient hoperates _) (hsound.passed_lt _))

theorem upStep_deliver (hsound : ex.Sound here) (hkey : key ≠ here) (link : UdpLink)
    (number : Nat) : UpStep key ex (ex.perform here (.deliver link number)) [] := by
  obtain hsame | ⟨c, hc, ⟨hlink, hserver⟩ | ⟨other, hother, rfl, hclient⟩⟩ :=
    hsound.deliver_cases link number
  · rw [hsame]
    exact UpStep.quiet rfl rfl
  · rw [hserver]
    by_cases hup : link = .up key
    · subst hup
      refine UpStep.gains ((through_arrive _ key _).trans ?_) (passedBytes_notePassed_self hc)
      exact congrArg (_ ++ ·) (if_pos rfl)
    · have hsource : source here link ≠ key := by
        cases link with
        | up other => exact fun hsame => hup (congrArg UdpLink.up hsame)
        | down other => exact Ne.symm hkey
      refine UpStep.quiet ((through_arrive _ key _).trans ?_)
        (passedBytes_notePassed_of_ne (Ne.symm hup) number)
      rw [if_neg hsource, List.append_nil]
  · rw [hclient]
    refine UpStep.quiet rfl ?_
    rw [passedBytes_notePassed_of_ne (by nofun), passedBytes_arriveAt]

theorem upStep_perform (hsound : ex.Sound here) (hkey : key ≠ here) {event : ExchangeEvent}
    (hallowed : ex.Allowed event) :
    UpStep key ex (ex.perform here event) (ex.lostBy key event) := by
  cases event with
  | server event =>
      have hadvances := UdpServer.advances_perform hsound.streams hsound.allocated
        hsound.requests hallowed.1 hallowed.2 key
      obtain ⟨front, back, hold, hnew⟩ := hadvances.through
      exact ⟨front, back, [], hold, hnew.trans (List.append_nil _).symm,
        (List.append_nil _).symm⟩
  | write other src => exact upStep_setClient hsound (hsound.operates_write other src).1
  | get other => exact upStep_setClient hsound (hsound.operates_getChar other).1
  | clear other => exact upStep_setClient hsound (UdpChannel.Operates.refl here _)
  | deliver link number => exact upStep_deliver hsound hkey link number

/-! ### Runs -/

/-- The bytes that the program at the server has read from the stream of a client. -/
def readAtServer (ex : UdpExchange) (key : SockAddr) : List UInt8 :=
  (ex.server.stream key).rdbuf.delivered.map SentByte.byte

def readAtClient (ex : UdpExchange) (key : SockAddr) : List UInt8 :=
  (ex.clients key).rdbuf.buf.delivered.map SentByte.byte

/-- The datagrams of a link were delivered in order, none of them twice. -/
def InOrder (ex : UdpExchange) (link : UdpLink) : Prop :=
  (ex.passed link).Pairwise (· < ·)

theorem filterMap_getElem?_sublist {α : Type*} (items : List α) {numbers : List Nat}
    (horder : numbers.Pairwise (· < ·)) {start : Nat} (hstart : ∀ i ∈ numbers, start ≤ i) :
    (numbers.filterMap fun i => items[i]?).Sublist (items.drop start) := by
  induction numbers generalizing start with
  | nil => exact List.nil_sublist _
  | cons i rest ih =>
      obtain ⟨hlater, hrest⟩ := List.pairwise_cons.mp horder
      have hnext := ih hrest fun j hj => hlater j hj
      have hle := hstart i List.mem_cons_self
      have hfront : (items.drop i).Sublist (items.drop start) :=
        (List.drop_suffix_drop_left items hle).sublist
      cases hitem : items[i]? with
      | none =>
          rw [List.filterMap_cons_none hitem]
          -- a number beyond the end
          exact (hnext.trans (List.drop_suffix_drop_left items (Nat.le_succ i)).sublist).trans hfront
      | some item =>
          rw [List.filterMap_cons_some hitem]
          refine List.Sublist.trans ?_ hfront
          obtain ⟨hlt, hget⟩ := List.getElem?_eq_some_iff.mp hitem
          rw [List.drop_eq_getElem_cons hlt, hget]
          exact hnext.cons_cons item

theorem passedBytes_sublist (horder : ex.InOrder link) :
    (ex.passedBytes link).Sublist (ex.sent link) :=
  filterMap_getElem?_sublist (ex.sent link) horder fun _ _ => Nat.zero_le _

theorem filterMap_getElem?_range {α : Type*} (items : List α) :
    ((List.range items.length).filterMap fun i => items[i]?) = items := by
  induction items using List.reverseRecOn with
  | nil => rfl
  | append_singleton front item ih =>
      have hfront : ((List.range front.length).filterMap fun i => (front ++ [item])[i]?) =
          (List.range front.length).filterMap fun i => front[i]? :=
        List.filterMap_congr fun i hi => List.getElem?_append_left (List.mem_range.mp hi)
      rw [List.length_append, List.length_singleton, List.range_succ, List.filterMap_append,
        hfront, ih]
      simp

/-- Every datagram of a link was delivered once, in order. -/
theorem passedBytes_of_range (hall : ex.passed link = List.range (ex.sent link).length) :
    ex.passedBytes link = ex.sent link := by
  rw [passedBytes, hall]
  exact filterMap_getElem?_range (ex.sent link)

theorem sound_run (here : SockAddr) (refuses : SockAddr → Nat → Bool)
    {events : List ExchangeEvent}
    (hevents : EachAllowed (perform here) Allowed (bound here refuses) events) :
    (events.foldl (perform here) (bound here refuses)).Sound here :=
  hevents.preserves (Sound here) (fun _ _ hsound hallowed => hsound.perform hallowed)
    (sound_bound here refuses)

/-- **Clients and server.**  Whatever the network loses, repeats or reorders, in every run in which
no read at the server takes the datagram of another client: the server reads from the stream of a
client what was delivered from this client, in the order of delivery, with nothing but gaps; a
client reads all that was delivered to it; every output has its own peer as its destination; and
where a link delivers in order, what is read is what was sent, with gaps. -/
theorem exchange_faithful (here : SockAddr) (refuses : SockAddr → Nat → Bool)
    (events : List ExchangeEvent)
    (hevents : EachAllowed (perform here) Allowed (bound here refuses) events) {key : SockAddr}
    (hkey : key ≠ here) :
    let ex := events.foldl (perform here) (bound here refuses)
    (ex.readAtServer key).Sublist (ex.passedBytes (.up key)) ∧
      ex.readAtClient key <+: ex.passedBytes (.down key) ∧
      (∀ entry ∈ ex.output (.up key), entry.1 = here) ∧
      (∀ entry ∈ ex.output (.down key), entry.1 = key) ∧
      (ex.InOrder (.up key) → (ex.readAtServer key).Sublist (ex.sent (.up key))) ∧
      (ex.InOrder (.down key) → (ex.readAtClient key).Sublist (ex.sent (.down key))) := by
  intro ex
  have hsound : ex.Sound here := sound_run here refuses hevents
  have hthrough : (ex.server.through key).Sublist (ex.passedBytes (.up key)) := by
    have hrun := hevents.preserves
      (fun ex => ex.Sound here ∧ (ex.server.through key).Sublist (ex.passedBytes (.up key)))
      ?_ ⟨sound_bound here refuses, List.nil_sublist _⟩
    · exact hrun.2
    · rintro state event ⟨hstate, hsub⟩ hallowed
      refine ⟨hstate.perform hallowed, ?_⟩
      -- an event loses something in the middle, and what is delivered comes behind
      obtain ⟨front, back, more, hold, hnew, hpassed⟩ := upStep_perform hstate hkey hallowed
      rw [hnew, hpassed]
      rw [hold] at hsub
      have hgap : (front ++ back).Sublist (front ++ (state.lostBy key event ++ back)) :=
        (List.Sublist.refl front).append (List.sublist_append_right _ back)
      exact (hgap.trans hsub).append (List.Sublist.refl more)
  have hserver : (ex.readAtServer key).Sublist (ex.passedBytes (.up key)) := by
    refine List.Sublist.trans ?_ hthrough
    rw [UdpServer.through, UdpChannel.through, UdpStreambuf.taken, List.map_append,
      List.append_assoc]
    exact List.sublist_append_left _ _
  have hclient : ex.readAtClient key <+: ex.passedBytes (.down key) := by
    rw [← hsound.down key hkey, UdpChannel.through, UdpStreambuf.taken, List.map_append,
      List.append_assoc]
    exact List.prefix_append _ _
  refine ⟨hserver, hclient, fun entry hentry => hsound.destination.1 hentry,
    fun entry hentry => hsound.destination.2 hentry, fun horder => ?_, fun horder => ?_⟩
  · exact hserver.trans (passedBytes_sublist horder)
  · exact hclient.sublist.trans (passedBytes_sublist horder)

/-- A client writes a byte, and the answer of the server comes back. -/
theorem exchange_faithful_answer :
    let events : List ExchangeEvent :=
      [.write ⟨1, 10⟩ [97], .deliver (.up ⟨1, 10⟩) 0, .server (.receiveOne ⟨0, 0⟩),
        .server (.read ⟨1, 10⟩ 1), .server (.write ⟨1, 10⟩ [98]), .deliver (.down ⟨1, 10⟩) 0,
        .get ⟨1, 10⟩]
    let ex := events.foldl (perform ⟨9, 99⟩) (bound ⟨9, 99⟩ fun _ _ => false)
    (ex.readAtServer ⟨1, 10⟩).Sublist (ex.passedBytes (.up ⟨1, 10⟩)) ∧
      ex.readAtClient ⟨1, 10⟩ <+: ex.passedBytes (.down ⟨1, 10⟩) ∧
      (∀ entry ∈ ex.output (.up ⟨1, 10⟩), entry.1 = ⟨9, 99⟩) ∧
      (∀ entry ∈ ex.output (.down ⟨1, 10⟩), entry.1 = ⟨1, 10⟩) ∧
      (ex.InOrder (.up ⟨1, 10⟩) →
        (ex.readAtServer ⟨1, 10⟩).Sublist (ex.sent (.up ⟨1, 10⟩))) ∧
      (ex.InOrder (.down ⟨1, 10⟩) →
        (ex.readAtClient ⟨1, 10⟩).Sublist (ex.sent (.down ⟨1, 10⟩))) := by
  intro events
  refine exchange_faithful ⟨9, 99⟩ (fun _ _ => false) events ?_ (by decide)
  refine ⟨trivial, trivial, ⟨nofun, trivial⟩, ⟨nofun, ?_⟩, ⟨nofun, trivial⟩, trivial, trivial,
    trivial⟩
  intro io hlookup _
  cases hlookup
  exact refillsFrom_zero _ _ _

/-- **A drained server.**  If moreover nothing of a client is unread whenever its next datagram is
received, the server loses nothing of it: what was delivered from the client was read, can be read
or waits at the socket.  The same always holds of what was delivered to the client.  Over a link
that delivers every datagram once and in order, that is what was sent. -/
theorem exchange_complete (here : SockAddr) (refuses : SockAddr → Nat → Bool)
    (events : List ExchangeEvent) {key : SockAddr}
    (hevents : EachAllowed (perform here) (AllowedDrained key) (bound here refuses) events)
    (hkey : key ≠ here) :
    let ex := events.foldl (perform here) (bound here refuses)
    ex.server.through key = ex.passedBytes (.up key) ∧
      (ex.clients key).rdbuf.through here = ex.passedBytes (.down key) ∧
      (ex.passed (.up key) = List.range (ex.sent (.up key)).length →
        ex.server.through key = ex.sent (.up key)) ∧
      (ex.passed (.down key) = List.range (ex.sent (.down key)).length →
        (ex.clients key).rdbuf.through here = ex.sent (.down key)) := by
  intro ex
  obtain ⟨hsound, hup⟩ := hevents.preserves
    (fun ex => ex.Sound here ∧ ex.server.through key = ex.passedBytes (.up key))
    (by
      rintro state event ⟨hstate, heq⟩ ⟨hallowed, hlost⟩
      refine ⟨hstate.perform hallowed, ?_⟩
      obtain ⟨front, back, more, hold, hnew, hpassed⟩ := upStep_perform hstate hkey hallowed
      rw [hlost, List.nil_append] at hold
      rw [hnew, hpassed, ← heq, hold])
    ⟨sound_bound here refuses, rfl⟩
  have hdown := hsound.down key hkey
  exact ⟨hup, hdown, fun hall => hup.trans (passedBytes_of_range hall),
    fun hall => hdown.trans (passedBytes_of_range hall)⟩

/-- Two bytes of a client, each of which is read before the next is received. -/
theorem exchange_complete_two :
    let events : List ExchangeEvent :=
      [.write ⟨1, 10⟩ [97, 98], .deliver (.up ⟨1, 10⟩) 0, .deliver (.up ⟨1, 10⟩) 1,
        .server (.receiveOne ⟨0, 0⟩), .server (.read ⟨1, 10⟩ 1), .server (.receiveOne ⟨0, 0⟩),
        .server (.read ⟨1, 10⟩ 1)]
    let ex := events.foldl (perform ⟨9, 99⟩) (bound ⟨9, 99⟩ fun _ _ => false)
    ex.server.through ⟨1, 10⟩ = ex.passedBytes (.up ⟨1, 10⟩) ∧
      (ex.clients ⟨1, 10⟩).rdbuf.through ⟨9, 99⟩ = ex.passedBytes (.down ⟨1, 10⟩) ∧
      (ex.passed (.up ⟨1, 10⟩) = List.range (ex.sent (.up ⟨1, 10⟩)).length →
        ex.server.through ⟨1, 10⟩ = ex.sent (.up ⟨1, 10⟩)) ∧
      (ex.passed (.down ⟨1, 10⟩) = List.range (ex.sent (.down ⟨1, 10⟩)).length →
        (ex.clients ⟨1, 10⟩).rdbuf.through ⟨9, 99⟩ = ex.sent (.down ⟨1, 10⟩)) := by
  intro events
  refine exchange_complete ⟨9, 99⟩ (fun _ _ => false) events ?_ (by decide)
  refine ⟨⟨trivial, rfl⟩, ⟨trivial, rfl⟩, ⟨trivial, rfl⟩, ⟨⟨nofun, trivial⟩, rfl⟩,
    ⟨⟨nofun, ?_⟩, rfl⟩, ⟨⟨nofun, trivial⟩, rfl⟩, ⟨⟨nofun, ?_⟩, rfl⟩, trivial⟩
  · intro io hlookup _
    cases hlookup
    exact refillsFrom_zero _ _ _
  · intro io hlookup _
    cases hlookup
    exact refillsFrom_zero _ _ _

end UdpExchange
end Iostreams
