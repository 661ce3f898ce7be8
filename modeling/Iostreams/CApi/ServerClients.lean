import Iostreams.Tcp.Server

/-!
# Client ids of the C API

`io_tcp_server_accept` hands out a stream handle and an id for the client, and
`io_tcp_server_close_client` closes the client of an id.  The tuple that `acceptOne` gives out
does not carry the id the client is registered under, and 0 is stored in its place.

A client is open as long as its tuple is registered.  `Identify` says what the ids are for, and
`Alone` when they do it.
-/

namespace Iostreams

open Foundation

def ioSuccess : Int := 0

def ioError : Int := -1

/-- `io_tcp_stream`, whose `ssl` is always null. -/
structure IoTcpStream where
  /-- The connection of the stream that `ptr` points to. -/
  ptr : Nat
  fd : Nat
  clientId : UInt64

/-- `io_tcp_server_accept`: the handle, and what is stored at `out_client_id`. -/
def ioTcpServerAccept (server : TcpServer) : Option (IoTcpStream × UInt64) × TcpServer :=
  match server.acceptOne with
  | (_, none, server) => (none, server)
  | (fd, some clientTuple, server) =>
      if fd < 0 then (none, server)
      else
        -- neither the tuple nor its descriptor says which id the client is registered under
        let stream : IoTcpStream :=
          { ptr := clientTuple.connection
            fd := clientTuple.clientFd
            clientId := 0 }
        (some (stream, 0), server)

def ioTcpServerCloseClient (server : TcpServer) (clientId : UInt64) : Int × TcpServer :=
  let (closed, server) := server.closeClient clientId
  (if closed then ioSuccess else ioError, server)

/-! ## Runs -/

inductive ClientCall where
  | connect (fd : Nat)
  | accept
  | closeClient (clientId : UInt64)

/-- A server and the handles and ids that were handed out for its clients. -/
structure ClientRun where
  server : TcpServer
  issued : List (IoTcpStream × UInt64) := []

namespace ClientRun

def perform (run : ClientRun) : ClientCall → ClientRun
  | .connect fd => { run with server := run.server.connect fd }
  | .accept =>
      match ioTcpServerAccept run.server with
      | (none, server) => { run with server }
      | (some client, server) => { server, issued := client :: run.issued }
  | .closeClient clientId => { run with server := (ioTcpServerCloseClient run.server clientId).2 }

/-- The connection is one of a client that is open. -/
def Open (server : TcpServer) (connection : Nat) : Prop :=
  ∃ id clientTuple, server.clientStreamMap.lookup id = some clientTuple ∧
    clientTuple.connection = connection

/-- Clients that are open at the same time have different ids. -/
def Distinct (run : ClientRun) : Prop :=
  ∀ first ∈ run.issued, ∀ second ∈ run.issued, Open run.server first.1.ptr →
    Open run.server second.1.ptr →
    (first.2 = second.2 ∨ first.1.clientId = second.1.clientId) → first.1.ptr = second.1.ptr

/-- Closing by the id of an open client succeeds and closes its connection and no other. -/
def ClosesOwn (run : ClientRun) (clientId : UInt64) : Prop :=
  ∀ client ∈ run.issued, client.2 = clientId ∨ client.1.clientId = clientId →
    Open run.server client.1.ptr →
    (ioTcpServerCloseClient run.server clientId).1 = ioSuccess ∧
      ∀ connection, Open (ioTcpServerCloseClient run.server clientId).2 connection ↔
        Open run.server connection ∧ connection ≠ client.1.ptr

/-- The ids identify the clients across a call. -/
def Identify (run : ClientRun) : ClientCall → Prop
  | .connect fd => (run.perform (.connect fd)).Distinct
  | .accept => (run.perform .accept).Distinct
  | .closeClient clientId =>
      (run.perform (.closeClient clientId)).Distinct ∧ run.ClosesOwn clientId

/-- An accept that is to succeed finds no client registered, unless in the place of the new one,
and 0 is closed while no client is registered under another id. -/
def Alone (run : ClientRun) : ClientCall → Prop
  | .connect _ => True
  | .accept => run.server.fdClosed = false → run.server.serverFd = 0 → run.server.pending ≠ [] →
      ∀ id ∈ run.server.clientStreamMap, id = run.server.totalClients + 1
  | .closeClient clientId => clientId = 0 → ∀ id ∈ run.server.clientStreamMap, id = 0

/-! ## The invariant -/

/-- Every registered client was handed out with the id 0, and no connection is in two places. -/
structure Issues (run : ClientRun) : Prop where
  zero : ∀ client ∈ run.issued, client.1.clientId = 0 ∧ client.2 = 0
  issued : ∀ connection, Open run.server connection → ∃ client ∈ run.issued,
    client.1.ptr = connection
  once : ∀ id id' clientTuple clientTuple',
    run.server.clientStreamMap.lookup id = some clientTuple →
    run.server.clientStreamMap.lookup id' = some clientTuple' →
    clientTuple.connection = clientTuple'.connection → id = id'
  arrived : ∀ connection, Open run.server connection → connection < run.server.arrivals
  queued : ∀ connection ∈ run.server.pending, connection.number < run.server.arrivals ∧
    ¬Open run.server connection.number
  queuedOnce : run.server.pending.Pairwise fun first second => first.number ≠ second.number

theorem issues_start (bitStream sslCtx : Bool) (serverFd : Nat) (memory : UInt64) :
    Issues { server := .listening bitStream sslCtx serverFd memory } := by
  have hclosed : ∀ connection, ¬Open (.listening bitStream sslCtx serverFd memory) connection := by
    rintro connection ⟨id, clientTuple, hlookup, -⟩
    exact nomatch hlookup
  refine ⟨fun client hclient => ?_, fun connection hopen => ?_,
    fun id _ clientTuple _ hlookup => ?_, fun connection hopen => ?_,
    fun connection hconnection => ?_, List.Pairwise.nil⟩
  · exact nomatch hclient
  · exact absurd hopen (hclosed connection)
  · exact nomatch hlookup
  · exact absurd hopen (hclosed connection)
  · exact nomatch hconnection

/-- All handed out ids are 0, so they tell clients apart exactly if one is open at most. -/
theorem Issues.distinct_iff {run : ClientRun} (hissues : run.Issues) :
    run.Distinct ↔
      ∀ id ∈ run.server.clientStreamMap, ∀ id' ∈ run.server.clientStreamMap, id = id' := by
  constructor
  · intro hdistinct id hid id' hid'
    -- two entries are of clients that both have the id 0, so they are of the same connection
    obtain ⟨clientTuple, hlookup⟩ := Finmap.mem_iff.mp hid
    obtain ⟨clientTuple', hlookup'⟩ := Finmap.mem_iff.mp hid'
    have hopen : Open run.server clientTuple.connection := ⟨id, clientTuple, hlookup, rfl⟩
    have hopen' : Open run.server clientTuple'.connection := ⟨id', clientTuple', hlookup', rfl⟩
    obtain ⟨first, hfirst, hptr⟩ := hissues.issued _ hopen
    obtain ⟨second, hsecond, hptr'⟩ := hissues.issued _ hopen'
    have hsame : first.2 = second.2 := by
      rw [(hissues.zero first hfirst).2, (hissues.zero second hsecond).2]
    rw [← hptr] at hopen
    rw [← hptr'] at hopen'
    have hptrs := hdistinct first hfirst second hsecond hopen hopen' (Or.inl hsame)
    rw [hptr, hptr'] at hptrs
    exact hissues.once id id' clientTuple clientTuple' hlookup hlookup' hptrs
  · rintro hone first - second - ⟨id, clientTuple, hlookup, hptr⟩
      ⟨id', clientTuple', hlookup', hptr'⟩ -
    have hid := hone id (Finmap.mem_iff.mpr ⟨_, hlookup⟩) id' (Finmap.mem_iff.mpr ⟨_, hlookup'⟩)
    subst hid
    rw [hlookup, Option.some.injEq] at hlookup'
    rw [← hptr, ← hptr', hlookup']

/-! ## Closing a client -/

theorem ioTcpServerCloseClient_server (server : TcpServer) (clientId : UInt64) :
    (ioTcpServerCloseClient server clientId).2 =
      { server with clientStreamMap := server.clientStreamMap.erase clientId } :=
  TcpServer.closeClient_map server clientId

theorem ioTcpServerCloseClient_success_iff (server : TcpServer) (clientId : UInt64) :
    (ioTcpServerCloseClient server clientId).1 = ioSuccess ↔ clientId ∈ server.clientStreamMap := by
  rw [← TcpServer.closeClient_iff]
  show (if (server.closeClient clientId).1 then ioSuccess else ioError) = ioSuccess ↔ _
  cases (server.closeClient clientId).1 with
  | true => simp
  | false => simp [ioSuccess, ioError]

theorem Issues.eraseClient {run : ClientRun} (hissues : run.Issues) (id : UInt64) :
    Issues { run with
      server := { run.server with clientStreamMap := run.server.clientStreamMap.erase id } } := by
  have hopen : ∀ connection,
      Open { run.server with clientStreamMap := run.server.clientStreamMap.erase id } connection →
        Open run.server connection := by
    rintro connection ⟨id', clientTuple, hlookup, hconnection⟩
    exact ⟨id', clientTuple, (lookup_erase_eq_some.mp hlookup).2, hconnection⟩
  refine ⟨hissues.zero, fun connection hnow => hissues.issued connection (hopen connection hnow),
    fun id₁ id₂ clientTuple₁ clientTuple₂ hlookup₁ hlookup₂ => ?_,
    fun connection hnow => hissues.arrived connection (hopen connection hnow),
    fun connection hconnection => ?_, hissues.queuedOnce⟩
  · exact hissues.once id₁ id₂ clientTuple₁ clientTuple₂
      (lookup_erase_eq_some.mp hlookup₁).2 (lookup_erase_eq_some.mp hlookup₂).2
  · obtain ⟨harrived, hclosed⟩ := hissues.queued connection hconnection
    exact ⟨harrived, fun hnow => hclosed (hopen _ hnow)⟩

/-- With one client open at most, closing by an id does what it ought to exactly if the client
is not registered under another id than the 0 it was handed out with. -/
theorem closesOwn_iff {run : ClientRun} (hissues : run.Issues) (hdistinct : run.Distinct)
    (clientId : UInt64) :
    run.ClosesOwn clientId ↔ run.Alone (.closeClient clientId) := by
  have hone := hissues.distinct_iff.mp hdistinct
  constructor
  · rintro hcloses rfl id hid
    -- the client was handed out with the id 0, so 0 has to be registered
    obtain ⟨clientTuple, hlookup⟩ := Finmap.mem_iff.mp hid
    have hopen : Open run.server clientTuple.connection := ⟨id, clientTuple, hlookup, rfl⟩
    obtain ⟨client, hclient, hptr⟩ := hissues.issued _ hopen
    rw [← hptr] at hopen
    obtain ⟨hsuccess, -⟩ := hcloses client hclient (Or.inl (hissues.zero client hclient).2) hopen
    exact hone id hid 0 ((ioTcpServerCloseClient_success_iff _ _).mp hsuccess)
  · rintro halone client hclient hid ⟨id, clientTuple, hlookup, hptr⟩
    have hzero : clientId = 0 := by
      obtain ⟨hstream, hout⟩ := hissues.zero client hclient
      rcases hid with hid | hid
      · rw [← hid, hout]
      · rw [← hid, hstream]
    -- the one registered client is under 0, so it and nothing else is closed
    have hmem : id ∈ run.server.clientStreamMap := Finmap.mem_iff.mpr ⟨_, hlookup⟩
    have hsame : id = clientId := (halone hzero id hmem).trans hzero.symm
    refine ⟨(ioTcpServerCloseClient_success_iff _ _).mpr (hsame ▸ hmem), fun connection => ?_⟩
    rw [ioTcpServerCloseClient_server]
    constructor
    · rintro ⟨id', clientTuple', hlookup', -⟩
      obtain ⟨hne, hbefore⟩ := lookup_erase_eq_some.mp hlookup'
      have hid' := hone id' (Finmap.mem_iff.mpr ⟨_, hbefore⟩) id hmem
      exact absurd (hid'.trans hsame) hne
    · rintro ⟨⟨id', clientTuple', hlookup', hconnection⟩, hother⟩
      have hid' := hone id' (Finmap.mem_iff.mpr ⟨_, hlookup'⟩) id hmem
      rw [hid', hlookup, Option.some.injEq] at hlookup'
      rw [← hconnection, ← hptr, hlookup'] at hother
      exact absurd rfl hother

/-! ## Accepting a client -/

/-- The server after `acceptOne` has accepted a connection. -/
def accepting (server : TcpServer) (connection : Connection) (rest : List Connection) : TcpServer :=
  { server with
    pending := rest
    totalClients := server.totalClients + 1
    clientStreamMap := server.clientStreamMap.insert (server.totalClients + 1)
      (server.tupleOf connection) }

theorem perform_accept_of_ready {run : ClientRun} (hopen : run.server.fdClosed = false)
    (hfd : run.server.serverFd = 0) {connection : Connection} {rest : List Connection}
    (hpending : run.server.pending = connection :: rest) :
    run.perform .accept =
      { server := accepting run.server connection rest
        issued := (⟨connection.number, connection.fd, 0⟩, 0) :: run.issued } := by
  have hnonneg : ¬((connection.fd : Int) < 0) := by omega
  simp only [perform, ioTcpServerAccept, TcpServer.acceptOne_of_ready hopen hfd hpending, hnonneg,
    if_false]
  rfl

theorem perform_accept_of_fails {run : ClientRun}
    (hfails : run.server.acceptOne = (-1, none, run.server)) : run.perform .accept = run := by
  simp only [perform, ioTcpServerAccept, hfails]

theorem lookup_accepting {server : TcpServer} {connection : Connection} {rest : List Connection}
    {id : UInt64} {clientTuple : ClientTuple}
    (hlookup : (accepting server connection rest).clientStreamMap.lookup id = some clientTuple) :
    (id = server.totalClients + 1 ∧ clientTuple = server.tupleOf connection) ∨
      server.clientStreamMap.lookup id = some clientTuple := by
  rcases lookup_insert_eq_some.mp hlookup with hnew | ⟨-, hold⟩
  · exact Or.inl hnew
  · exact Or.inr hold

/-- The connection that is accepted is open afterwards, and no other that was not before. -/
theorem open_accepting {server : TcpServer} {connection : Connection} {rest : List Connection}
    {number : Nat} (hopen : Open (accepting server connection rest) number) :
    number = connection.number ∨ Open server number := by
  obtain ⟨id, clientTuple, hlookup, hconnection⟩ := hopen
  rcases lookup_accepting hlookup with ⟨-, rfl⟩ | hbefore
  · exact Or.inl hconnection.symm
  · exact Or.inr ⟨id, clientTuple, hbefore, hconnection⟩

theorem Issues.accept {run : ClientRun} (hissues : run.Issues) {connection : Connection}
    {rest : List Connection} (hpending : run.server.pending = connection :: rest) :
    Issues
      { server := accepting run.server connection rest
        issued := (⟨connection.number, connection.fd, 0⟩, 0) :: run.issued } := by
  have hqueued := hissues.queued
  have hqueuedOnce := hissues.queuedOnce
  rw [hpending] at hqueued hqueuedOnce
  obtain ⟨harrived, hnew⟩ := hqueued connection List.mem_cons_self
  obtain ⟨hne, hrest⟩ := List.pairwise_cons.mp hqueuedOnce
  -- the connection was waiting in the queue, so no registered client has it
  have hother : ∀ id clientTuple, run.server.clientStreamMap.lookup id = some clientTuple →
      clientTuple.connection ≠ connection.number :=
    fun id clientTuple hlookup hsame => hnew ⟨id, clientTuple, hlookup, hsame⟩
  refine ⟨fun client hclient => ?_, fun number hopen => ?_,
    fun id id' clientTuple clientTuple' hlookup hlookup' hsame => ?_, fun number hopen => ?_,
    fun later hlater => ?_, hrest⟩
  · rcases List.mem_cons.mp hclient with rfl | hclient
    · exact ⟨rfl, rfl⟩
    · exact hissues.zero client hclient
  · rcases open_accepting hopen with rfl | hbefore
    · exact ⟨_, List.mem_cons_self, rfl⟩
    · obtain ⟨client, hclient, hptr⟩ := hissues.issued number hbefore
      exact ⟨client, List.mem_cons_of_mem _ hclient, hptr⟩
  · rcases lookup_accepting hlookup with ⟨hid, rfl⟩ | hbefore
    · rcases lookup_accepting hlookup' with ⟨hid', -⟩ | hbefore'
      · rw [hid, hid']
      · exact absurd hsame.symm (hother id' clientTuple' hbefore')
    · rcases lookup_accepting hlookup' with ⟨-, rfl⟩ | hbefore'
      · exact absurd hsame (hother id clientTuple hbefore)
      · exact hissues.once id id' clientTuple clientTuple' hbefore hbefore' hsame
  · rcases open_accepting hopen with rfl | hbefore
    · exact harrived
    · exact hissues.arrived number hbefore
  · obtain ⟨harrivedLater, hclosed⟩ := hqueued later (List.mem_cons_of_mem _ hlater)
    refine ⟨harrivedLater, fun hopen => ?_⟩
    rcases open_accepting hopen with hsame | hbefore
    · exact hne later hlater hsame.symm
    · exact hclosed hbefore

/-- After an accept one client is open exactly if none was, except in the new one's place. -/
theorem one_accepting_iff {server : TcpServer} {connection : Connection}
    {rest : List Connection} :
    (∀ id ∈ (accepting server connection rest).clientStreamMap,
      ∀ id' ∈ (accepting server connection rest).clientStreamMap, id = id') ↔
      ∀ id ∈ server.clientStreamMap, id = server.totalClients + 1 := by
  have hmem : ∀ id, id ∈ (accepting server connection rest).clientStreamMap ↔
      id = server.totalClients + 1 ∨ id ∈ server.clientStreamMap := fun id => Finmap.mem_insert
  constructor
  · intro hone id hid
    exact hone id ((hmem id).mpr (Or.inr hid)) _ ((hmem _).mpr (Or.inl rfl))
  · intro halone id hid id' hid'
    have hnew : ∀ id ∈ (accepting server connection rest).clientStreamMap,
        id = server.totalClients + 1 := by
      intro id hid
      rcases (hmem id).mp hid with hsame | hbefore
      · exact hsame
      · exact halone id hbefore
    rw [hnew id hid, hnew id' hid']

/-! ## A client connects -/

theorem Issues.connect {run : ClientRun} (hissues : run.Issues) (fd : Nat) :
    Issues { run with server := run.server.connect fd } := by
  unfold TcpServer.connect
  split
  · exact hissues
  · refine ⟨hissues.zero, hissues.issued, hissues.once,
      fun number hopen => Nat.lt_succ_of_lt (hissues.arrived number hopen),
      fun later hlater => ?_, ?_⟩
    · rcases List.mem_append.mp hlater with hlater | hlater
      · obtain ⟨harrived, hclosed⟩ := hissues.queued later hlater
        exact ⟨Nat.lt_succ_of_lt harrived, hclosed⟩
      · rw [List.mem_singleton.mp hlater]
        exact ⟨Nat.lt_succ_self _, fun hopen => absurd (hissues.arrived _ hopen) (lt_irrefl _)⟩
    · refine List.pairwise_append.mpr ⟨hissues.queuedOnce, List.pairwise_singleton _ _,
        fun earlier hearlier later hlater => ?_⟩
      rw [List.mem_singleton.mp hlater]
      exact Nat.ne_of_lt (hissues.queued earlier hearlier).1

theorem connect_clientStreamMap (server : TcpServer) (fd : Nat) :
    (server.connect fd).clientStreamMap = server.clientStreamMap := by
  unfold TcpServer.connect
  split <;> rfl

/-! ## Steps -/

theorem perform_issues {run : ClientRun} (hissues : run.Issues) (call : ClientCall) :
    (run.perform call).Issues := by
  cases call with
  | connect fd => exact hissues.connect fd
  | accept =>
      rcases run.server.acceptOne_cases with ⟨hfails, -⟩ | ⟨connection, rest, hopen, hfd, hpending⟩
      · rw [perform_accept_of_fails hfails]
        exact hissues
      · rw [perform_accept_of_ready hopen hfd hpending]
        exact hissues.accept hpending
  | closeClient clientId =>
      rw [perform, ioTcpServerCloseClient_server]
      exact hissues.eraseClient clientId

theorem Identify.distinct {run : ClientRun} {call : ClientCall} (hidentify : run.Identify call) :
    (run.perform call).Distinct := by
  cases call with
  | connect fd => exact hidentify
  | accept => exact hidentify
  | closeClient clientId => exact hidentify.1

/-- A call keeps the ids of the clients apart and closes well exactly if `Alone` says so. -/
theorem identify_iff_alone {run : ClientRun} (hissues : run.Issues) (hdistinct : run.Distinct)
    (call : ClientCall) : run.Identify call ↔ run.Alone call := by
  have hone := hissues.distinct_iff.mp hdistinct
  have hnext := (perform_issues hissues call).distinct_iff
  cases call with
  | connect fd =>
      refine iff_of_true (hnext.mpr ?_) trivial
      rw [perform, connect_clientStreamMap]
      exact hone
  | accept =>
      rw [Identify, hnext, Alone]
      rcases run.server.acceptOne_cases with
        ⟨hfails, hunready⟩ | ⟨connection, rest, hopen, hfd, hpending⟩
      · rw [perform_accept_of_fails hfails]
        exact iff_of_true hone fun hopen hfd hpending => absurd (hunready hopen hfd) hpending
      · rw [perform_accept_of_ready hopen hfd hpending, one_accepting_iff]
        have hne : run.server.pending ≠ [] := by simp [hpending]
        exact ⟨fun halone _ _ _ => halone, fun halone => halone hopen hfd hne⟩
  | closeClient clientId =>
      refine Iff.trans (and_iff_right (hnext.mpr ?_)) (closesOwn_iff hissues hdistinct clientId)
      rw [perform, ioTcpServerCloseClient_server]
      intro id hid id' hid'
      exact hone id (Finmap.mem_erase.mp hid).2 id' (Finmap.mem_erase.mp hid').2

/-! ## Runs -/

/-- **Client ids.**  On every server the ids identify the clients throughout a run exactly if
every accept that is to succeed finds no client registered, unless in the place of the new one,
and 0 is closed only while no client is registered under another id. -/
theorem client_ids_iff (bitStream sslCtx : Bool) (serverFd : Nat) (memory : UInt64)
    (calls : List ClientCall) :
    EachAllowed perform Identify { server := .listening bitStream sslCtx serverFd memory } calls ↔
      EachAllowed perform Alone
        { server := .listening bitStream sslCtx serverFd memory } calls := by
  refine eachAllowed_iff (fun run => run.Issues ∧ run.Distinct)
    (fun _ call hrun => identify_iff_alone hrun.1 hrun.2 call)
    (fun run call hrun halone => ⟨perform_issues hrun.1 call, Identify.distinct ?_⟩)
    ⟨issues_start bitStream sslCtx serverFd memory, fun _ hclient => nomatch hclient⟩
  exact (identify_iff_alone hrun.1 hrun.2 call).mpr halone

/-- The client that was accepted cannot be closed by its id, and a second one gets the same. -/
theorem not_client_ids :
    ¬EachAllowed perform Identify { server := .listening false false 0 0 }
        [.connect 5, .accept, .closeClient 0] ∧
      ¬EachAllowed perform Identify { server := .listening false false 0 0 }
        [.connect 5, .accept, .connect 6, .accept] := by
  constructor
  · rintro ⟨-, -, ⟨-, hcloses⟩, -⟩
    obtain ⟨hsuccess, -⟩ := hcloses _ List.mem_cons_self (Or.inl rfl) ⟨1, _, rfl, rfl⟩
    exact absurd hsuccess (by decide)
  · rintro ⟨-, -, -, hdistinct, -⟩
    have hsame := hdistinct _ List.mem_cons_self _ (List.mem_cons_of_mem _ List.mem_cons_self)
      ⟨2, _, rfl, rfl⟩ ⟨1, _, rfl, rfl⟩ (Or.inl rfl)
    exact absurd hsame (by decide)

end ClientRun
end Iostreams
