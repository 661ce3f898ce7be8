import Iostreams.Foundation.FiniteMap
import Iostreams.Foundation.Run

/-!
# The clients of a TCP server

`acceptOne` waits for the listening socket to become readable, accepts one connection and
registers its tuple under the next value of `totalClients`; `closeClient` removes it.  A program
calls these in any order while clients connect: `ServerCall`.

`select` is asked about the descriptors below 1 only, so no other listening socket is ever seen
to be readable, and the constructor gives `totalClients` no value.  `Correct` says what a call
ought to do, by the calls made so far, and `Meets` when it does.
-/

namespace Iostreams

open Foundation

/-- A connection a client has made, with the descriptor that `accept` will return for it. -/
structure Connection where
  number : Nat
  fd : Nat

structure ClientTuple where
  clientFd : Nat
  /-- The mode of `client_serial`. -/
  bitStream : Bool
  /-- Whether `client_iostream` has an `SSL`. -/
  ssl : Bool
  /-- The connection `client_iostream` reads from and writes to. -/
  connection : Nat

structure TcpServer where
  bitStream : Bool
  sslCtx : Bool
  serverFd : Nat
  totalClients : UInt64
  clientStreamMap : Finmap (fun _ : UInt64 => ClientTuple) := ∅
  fdClosed : Bool := false
  /-- The queue of the listening socket. -/
  pending : List Connection := []
  /-- How many connections were made. -/
  arrivals : Nat := 0

/-- `select(nfds, &rfds, NULL, NULL, &tv)`: the number of ready descriptors below `nfds`, and
the set that holds them afterwards. -/
def select (nfds : Nat) (rfds : List Nat) (ready : Nat → Bool) : Nat × List Nat :=
  let rfds := rfds.filter fun fd => fd < nfds ∧ ready fd
  (rfds.length, rfds)

/-- `accept`: the first connection of the queue. -/
def accept : List Connection → Option Connection × List Connection
  | [] => (none, [])
  | connection :: pending => (some connection, pending)

/-- `accept_with_timeout`; nothing is its `-1`. -/
def acceptWithTimeout (listenFd : Nat) (pending : List Connection) :
    Option Connection × List Connection :=
  let (ret, rfds) := select 1 [listenFd] fun fd => fd = listenFd ∧ pending ≠ []
  if 0 < ret ∧ listenFd ∈ rfds then accept pending else (none, pending)

namespace TcpServer

/-- A server whose constructor has returned.  `totalClients` is what its memory held before. -/
def listening (bitStream sslCtx : Bool) (serverFd : Nat) (memory : UInt64) : TcpServer :=
  { bitStream, sslCtx, serverFd, totalClients := memory }

/-- A client connects, unless the listening socket is closed. -/
def connect (server : TcpServer) (fd : Nat) : TcpServer :=
  if server.fdClosed then server
  else { server with
    pending := server.pending ++ [⟨server.arrivals, fd⟩]
    arrivals := server.arrivals + 1 }

/-- The tuple `acceptOne` makes for a connection. -/
def tupleOf (server : TcpServer) (connection : Connection) : ClientTuple :=
  { clientFd := connection.fd
    bitStream := server.bitStream
    ssl := server.sslCtx
    connection := connection.number }

/-- `acceptOne`: what it returns and the tuple `out_client_tuple_ptr` is set to, which was null
before.  A handshake that fails is reported on `std::cerr` only. -/
def acceptOne (server : TcpServer) : Int × Option ClientTuple × TcpServer :=
  if server.fdClosed then (-1, none, server)
  else
    match acceptWithTimeout server.serverFd server.pending with
    | (none, pending) => (-1, none, { server with pending })
    | (some connection, pending) =>
        let id := server.totalClients + 1
        let clientTuple := server.tupleOf connection
        (connection.fd, some clientTuple, { server with
          pending
          totalClients := id
          clientStreamMap := server.clientStreamMap.insert id clientTuple })

def closeClient (server : TcpServer) (id : UInt64) : Bool × TcpServer :=
  match server.clientStreamMap.lookup id with
  | none => (false, server)
  | some _ => (true, { server with clientStreamMap := server.clientStreamMap.erase id })

def close (server : TcpServer) : Bool × TcpServer :=
  if server.fdClosed then (false, server)
  else (true, { server with
    pending := []
    fdClosed := true })

/-! ## One call -/

/-- Of the listening sockets only descriptor 0 is among those `select` looks at. -/
theorem acceptWithTimeout_eq (listenFd : Nat) (pending : List Connection) :
    acceptWithTimeout listenFd pending =
      if listenFd = 0 then accept pending else (none, pending) := by
  rw [acceptWithTimeout, select]
  by_cases hzero : listenFd = 0
  · -- descriptor 0 is ready exactly if a connection is pending
    subst hzero
    cases pending with
    | nil => simp [accept]
    | cons connection pending => simp
  · simp [hzero]

theorem acceptOne_of_closed {server : TcpServer} (hclosed : server.fdClosed = true) :
    server.acceptOne = (-1, none, server) := by
  rw [acceptOne, if_pos hclosed]

/-- Nothing is accepted on another descriptor than 0, nor where nothing is pending. -/
theorem acceptOne_of_unready {server : TcpServer}
    (hunready : server.serverFd ≠ 0 ∨ server.pending = []) :
    server.acceptOne = (-1, none, server) := by
  have hwait : acceptWithTimeout server.serverFd server.pending = (none, server.pending) := by
    rw [acceptWithTimeout_eq]
    rcases hunready with hfd | hpending
    · rw [if_neg hfd]
    · rw [hpending]
      split <;> rfl
  rw [acceptOne, hwait]
  split <;> rfl

theorem acceptOne_of_ready {server : TcpServer} (hopen : server.fdClosed = false)
    (hfd : server.serverFd = 0) {connection : Connection} {rest : List Connection}
    (hpending : server.pending = connection :: rest) :
    server.acceptOne = ((connection.fd : Int), some (server.tupleOf connection),
      { server with
        pending := rest
        totalClients := server.totalClients + 1
        clientStreamMap := server.clientStreamMap.insert (server.totalClients + 1)
          (server.tupleOf connection) }) := by
  have hwait : acceptWithTimeout server.serverFd server.pending = (some connection, rest) := by
    rw [acceptWithTimeout_eq, if_pos hfd, hpending, accept]
  simp only [acceptOne, hwait, hopen, Bool.false_eq_true, if_false]

/-- `acceptOne` fails and changes nothing, or the server is open on descriptor 0 with a connection
pending. -/
theorem acceptOne_cases (server : TcpServer) :
    (server.acceptOne = (-1, none, server) ∧
      (server.fdClosed = false → server.serverFd = 0 → server.pending = [])) ∨
    ∃ connection rest, server.fdClosed = false ∧ server.serverFd = 0 ∧
      server.pending = connection :: rest := by
  cases hopen : server.fdClosed with
  | true => exact Or.inl ⟨acceptOne_of_closed hopen, fun hfalse => nomatch hfalse⟩
  | false =>
      by_cases hfd : server.serverFd = 0
      · cases hpending : server.pending with
        | nil => exact Or.inl ⟨acceptOne_of_unready (Or.inr hpending), fun _ _ => rfl⟩
        | cons connection rest => exact Or.inr ⟨connection, rest, rfl, hfd, rfl⟩
      · exact Or.inl ⟨acceptOne_of_unready (Or.inl hfd), fun _ hzero => absurd hzero hfd⟩

theorem closeClient_map (server : TcpServer) (id : UInt64) :
    (server.closeClient id).2 =
      { server with clientStreamMap := server.clientStreamMap.erase id } := by
  unfold closeClient
  cases hlookup : server.clientStreamMap.lookup id with
  | none => simp only [erase_of_lookup_none hlookup]
  | some clientTuple => rfl

theorem closeClient_iff (server : TcpServer) (id : UInt64) :
    (server.closeClient id).1 = true ↔ id ∈ server.clientStreamMap := by
  rw [closeClient, ← Finmap.lookup_isSome]
  cases server.clientStreamMap.lookup id with
  | none => simp
  | some clientTuple => simp

end TcpServer

/-! ## Runs -/

/-- What happens at a server. -/
inductive ServerCall where
  | connect (fd : Nat)
  | acceptOne
  | closeClient (id : UInt64)
  | close

/-- A server, how many calls of `acceptOne` have succeeded and whether `close` was called. -/
structure ServerRun where
  server : TcpServer
  accepted : Nat := 0
  closed : Bool := false

namespace ServerRun

def perform (run : ServerRun) : ServerCall → ServerRun
  | .connect fd => { run with server := run.server.connect fd }
  | .acceptOne =>
      let (fd, _, server) := run.server.acceptOne
      { run with
        server
        accepted := if fd = -1 then run.accepted else run.accepted + 1 }
  | .closeClient id => { run with server := (run.server.closeClient id).2 }
  | .close =>
      { run with
        server := run.server.close.2
        closed := true }

/-- What a call ought to do.  An accept that succeeds registers the connection that was pending
under its number among the accepts. -/
def Correct (run : ServerRun) : ServerCall → Prop
  | .connect _ => True
  | .acceptOne =>
      (run.closed = false → ∀ connection rest, run.server.pending = connection :: rest →
        ∃ (id : UInt64) (clientTuple : ClientTuple), id.toNat = run.accepted + 1 ∧
          clientTuple.clientFd = connection.fd ∧ clientTuple.connection = connection.number ∧
          run.server.acceptOne.1 = connection.fd ∧ run.server.acceptOne.2.1 = some clientTuple ∧
          run.server.clientStreamMap.lookup id = none ∧
          run.server.acceptOne.2.2.clientStreamMap =
            run.server.clientStreamMap.insert id clientTuple) ∧
      (run.closed = true → run.server.acceptOne.1 = -1 ∧
        run.server.acceptOne.2.2.clientStreamMap = run.server.clientStreamMap)
  | .closeClient id =>
      ((run.server.closeClient id).1 = true ↔ id ∈ run.server.clientStreamMap) ∧
        (run.server.closeClient id).2.clientStreamMap = run.server.clientStreamMap.erase id
  | .close => True

/-- With a connection pending, the listening descriptor is 0, `totalClients` was 0 when the
server was built, and it is not about to overflow. -/
def Meets (memory : UInt64) (run : ServerRun) : ServerCall → Prop
  | .acceptOne => run.server.fdClosed = false → run.server.pending ≠ [] →
      run.server.serverFd = 0 ∧ memory = 0 ∧ run.server.totalClients + 1 ≠ 0
  | _ => True

/-! ## The invariant -/

/-- How a run on a server that was built in a memory with some content stands: an id is at most
the number of accepts. -/
structure Tracks (memory : UInt64) (run : ServerRun) : Prop where
  closed : run.server.fdClosed = run.closed
  counter : run.server.totalClients.toNat = (memory.toNat + run.accepted) % 2 ^ 64
  registered : ∀ id ∈ run.server.clientStreamMap, id.toNat ≤ run.accepted
  bounded : run.accepted < 2 ^ 64

theorem tracks_start (bitStream sslCtx : Bool) (serverFd : Nat) (memory : UInt64) :
    Tracks memory { server := .listening bitStream sslCtx serverFd memory } := by
  refine ⟨rfl, ?_, fun id hid => ?_, Nat.two_pow_pos 64⟩
  · exact (Nat.mod_eq_of_lt memory.toNat_lt).symm
  · exact absurd hid (Finmap.notMem_empty)

/-- An id is the number of the accept it is given at exactly if the counter started from 0 and
does not overflow. -/
theorem Tracks.next_id_iff {memory : UInt64} {run : ServerRun} (htracks : run.Tracks memory) :
    (run.server.totalClients + 1).toNat = run.accepted + 1 ↔
      memory = 0 ∧ run.server.totalClients + 1 ≠ 0 := by
  have hcounter := htracks.counter
  have hbounded := htracks.bounded
  have hmemory := memory.toNat_lt
  have hnext : (run.server.totalClients + 1).toNat =
      (run.server.totalClients.toNat + 1) % 2 ^ 64 := UInt64.toNat_add _ _
  have hzero : memory = 0 ↔ memory.toNat = 0 := UInt64.toNat_inj.symm
  have hwrap : run.server.totalClients + 1 = 0 ↔ (run.server.totalClients + 1).toNat = 0 :=
    UInt64.toNat_inj.symm
  -- both sides say that the sum of the memory and the accepts is not reduced modulo 2 ^ 64
  rw [hzero, Ne, hwrap, hnext]
  omega

/-- The id that is given next is not in use, unless the counter overflows. -/
theorem Tracks.next_id_unused {memory : UInt64} {run : ServerRun} (htracks : run.Tracks memory)
    (hnext : (run.server.totalClients + 1).toNat = run.accepted + 1) :
    run.server.clientStreamMap.lookup (run.server.totalClients + 1) = none := by
  rw [Finmap.lookup_eq_none]
  intro hmem
  have hle := htracks.registered _ hmem
  omega

/-- With a connection pending, the call is correct exactly on descriptor 0 and with the counter
at the number of accepts. -/
theorem acceptOne_correct_iff {memory : UInt64} {run : ServerRun} (htracks : run.Tracks memory)
    (hopen : run.closed = false) {connection : Connection} {rest : List Connection}
    (hpending : run.server.pending = connection :: rest) :
    run.Correct .acceptOne ↔ run.server.serverFd = 0 ∧
      (run.server.totalClients + 1).toNat = run.accepted + 1 := by
  have hfdOpen : run.server.fdClosed = false := htracks.closed.trans hopen
  by_cases hfd : run.server.serverFd = 0
  · have haccept := TcpServer.acceptOne_of_ready hfdOpen hfd hpending
    constructor
    · rintro ⟨hregisters, -⟩
      obtain ⟨id, clientTuple, hid, -, -, -, -, hunused, hmap⟩ :=
        hregisters hopen connection rest hpending
      rw [haccept] at hmap
      -- the unused id that was registered can only be the next one
      have hsame : id = run.server.totalClients + 1 := by
        by_contra hne
        have hlookup := congrArg (fun map => Finmap.lookup id map) hmap
        simp only [Finmap.lookup_insert, Finmap.lookup_insert_of_ne _ hne, hunused] at hlookup
        exact nomatch hlookup
      exact ⟨hfd, hsame ▸ hid⟩
    · rintro ⟨-, hnext⟩
      refine ⟨fun _ connection' rest' hpending' => ?_, fun hclosed => ?_⟩
      · rw [hpending] at hpending'
        obtain ⟨rfl, rfl⟩ := List.cons.inj hpending'
        refine ⟨_, run.server.tupleOf connection, hnext, rfl, rfl, ?_, ?_,
          htracks.next_id_unused hnext, ?_⟩
        · rw [haccept]
        · rw [haccept]
        · rw [haccept]
      · rw [hopen] at hclosed
        exact nomatch hclosed
  · have haccept := TcpServer.acceptOne_of_unready (Or.inl hfd)
    refine iff_of_false ?_ fun hready => hfd hready.1
    rintro ⟨hregisters, -⟩
    obtain ⟨id, clientTuple, -, -, -, hreturns, -⟩ := hregisters hopen connection rest hpending
    rw [haccept] at hreturns
    simp only at hreturns
    omega

theorem correct_iff_meets {memory : UInt64} {run : ServerRun} (htracks : run.Tracks memory)
    (call : ServerCall) : run.Correct call ↔ run.Meets memory call := by
  cases call with
  | connect fd => exact Iff.rfl
  | acceptOne =>
      cases hclosed : run.closed with
      | true =>
          have hfdClosed : run.server.fdClosed = true := htracks.closed.trans hclosed
          refine iff_of_true ⟨fun hopen => ?_, fun _ => ?_⟩ fun hopen => ?_
          · rw [hclosed] at hopen
            exact nomatch hopen
          · rw [TcpServer.acceptOne_of_closed hfdClosed]
            exact ⟨rfl, rfl⟩
          · rw [hfdClosed] at hopen
            exact nomatch hopen
      | false =>
          have hfdOpen : run.server.fdClosed = false := htracks.closed.trans hclosed
          cases hpending : run.server.pending with
          | nil =>
              refine iff_of_true ⟨fun _ connection rest hcons => ?_, fun hclosed' => ?_⟩
                fun _ hne => absurd hpending hne
              · rw [hpending] at hcons
                exact nomatch hcons
              · rw [hclosed] at hclosed'
                exact nomatch hclosed'
          | cons connection rest =>
              rw [acceptOne_correct_iff htracks hclosed hpending, htracks.next_id_iff]
              have hne : run.server.pending ≠ [] := by simp [hpending]
              exact ⟨fun hready _ _ => hready, fun hmeets => hmeets hfdOpen hne⟩
  | closeClient id =>
      refine iff_of_true ⟨TcpServer.closeClient_iff run.server id, ?_⟩ trivial
      rw [TcpServer.closeClient_map]
  | close => exact Iff.rfl

/-- A call of `acceptOne` that fails changes nothing. -/
theorem perform_of_fails {run : ServerRun}
    (hfails : run.server.acceptOne = (-1, none, run.server)) :
    run.perform .acceptOne = run := by
  simp only [perform, hfails, if_true]

theorem perform_of_ready {run : ServerRun} (hopen : run.server.fdClosed = false)
    (hfd : run.server.serverFd = 0) {connection : Connection} {rest : List Connection}
    (hpending : run.server.pending = connection :: rest) :
    run.perform .acceptOne =
      { run with
        server := { run.server with
          pending := rest
          totalClients := run.server.totalClients + 1
          clientStreamMap := run.server.clientStreamMap.insert (run.server.totalClients + 1)
            (run.server.tupleOf connection) }
        accepted := run.accepted + 1 } := by
  have hsuccess : (connection.fd : Int) ≠ -1 := by omega
  simp only [perform, TcpServer.acceptOne_of_ready hopen hfd hpending, if_neg hsuccess]

theorem Tracks.accept {memory : UInt64} {run : ServerRun} (htracks : run.Tracks memory)
    (hmemory : memory = 0) (hwrap : run.server.totalClients + 1 ≠ 0) (rest : List Connection)
    (clientTuple : ClientTuple) :
    Tracks memory { run with
      server := { run.server with
        pending := rest
        totalClients := run.server.totalClients + 1
        clientStreamMap := run.server.clientStreamMap.insert (run.server.totalClients + 1)
          clientTuple }
      accepted := run.accepted + 1 } := by
  have hnext := htracks.next_id_iff.mpr ⟨hmemory, hwrap⟩
  have hlt := (run.server.totalClients + 1).toNat_lt
  refine ⟨htracks.closed, ?_, fun id hid => ?_, ?_⟩
  · have hzero : memory.toNat = 0 := by rw [hmemory]; rfl
    show (run.server.totalClients + 1).toNat = (memory.toNat + (run.accepted + 1)) % 2 ^ 64
    omega
  · show id.toNat ≤ run.accepted + 1
    rcases Finmap.mem_insert.mp hid with hid | hid
    · rw [hid, hnext]
    · exact Nat.le_succ_of_le (htracks.registered id hid)
  · show run.accepted + 1 < 2 ^ 64
    omega

/-- A call that meets the condition keeps the ids below the number of accepts. -/
theorem Meets.tracks {memory : UInt64} {run : ServerRun} {call : ServerCall}
    (hmeets : run.Meets memory call) (htracks : run.Tracks memory) :
    (run.perform call).Tracks memory := by
  cases call with
  | connect fd =>
      rw [perform, TcpServer.connect]
      split
      · exact htracks
      · exact ⟨htracks.closed, htracks.counter, htracks.registered, htracks.bounded⟩
  | acceptOne =>
      rcases run.server.acceptOne_cases with ⟨hfails, -⟩ | ⟨connection, rest, hopen, hfd, hpending⟩
      · rw [perform_of_fails hfails]
        exact htracks
      · obtain ⟨-, hmemory, hwrap⟩ := hmeets hopen (by simp [hpending])
        rw [perform_of_ready hopen hfd hpending]
        exact htracks.accept hmemory hwrap rest _
  | closeClient id =>
      rw [perform, TcpServer.closeClient_map]
      refine ⟨htracks.closed, htracks.counter, fun other hother => ?_, htracks.bounded⟩
      exact htracks.registered other (Finmap.mem_erase.mp hother).2
  | close =>
      rw [perform, TcpServer.close]
      split
      · rename_i hclosed
        exact ⟨hclosed, htracks.counter, htracks.registered, htracks.bounded⟩
      · exact ⟨rfl, htracks.counter, htracks.registered, htracks.bounded⟩

/-- **The client registry.**  On every descriptor and in every memory, a run of calls does what
it ought to exactly if at each accept with a connection pending the listening descriptor is 0
and the counter, which started from 0, does not overflow. -/
theorem run_correct_iff (bitStream sslCtx : Bool) (serverFd : Nat) (memory : UInt64)
    (calls : List ServerCall) :
    EachAllowed perform Correct { server := .listening bitStream sslCtx serverFd memory } calls ↔
      EachAllowed perform (Meets memory)
        { server := .listening bitStream sslCtx serverFd memory } calls :=
  eachAllowed_iff (Tracks memory) (fun _ call htracks => correct_iff_meets htracks call)
    (fun _ _ htracks hmeets => hmeets.tracks htracks)
    (tracks_start bitStream sslCtx serverFd memory)

/-- A server that listens on descriptor 3 never accepts, and one whose counter was 7 in memory
gives its first client id 8. -/
theorem not_run_correct :
    ¬EachAllowed perform Correct { server := .listening false false 3 0 }
        [.connect 5, .acceptOne] ∧
      ¬EachAllowed perform Correct { server := .listening false false 0 7 }
        [.connect 5, .acceptOne] := by
  constructor
  · rintro ⟨-, ⟨hregisters, -⟩, -⟩
    obtain ⟨id, clientTuple, -, -, -, hreturns, -⟩ := hregisters rfl ⟨0, 5⟩ [] rfl
    exact absurd hreturns (by decide)
  · rintro ⟨-, hcorrect, -⟩
    have hstart := tracks_start false false 0 7
    have hconnected : Tracks 7 (perform { server := .listening false false 0 7 } (.connect 5)) :=
      ⟨hstart.closed, hstart.counter, hstart.registered, hstart.bounded⟩
    have hready := (acceptOne_correct_iff hconnected rfl rfl).mp hcorrect
    exact absurd hready.2 (by decide)

end ServerRun
end Iostreams
