import Iostreams.Foundation.Ownership
import Iostreams.Tcp.Closing

/-!
# The sockets of clients

`tcp_client`, `udp_client`, `udpmc_sender` and `udpmc_receiver` obtain their socket before they are
constructed, and their stream buffers close it when they are destroyed.  Where a call after
`socket` fails the constructor throws, and nobody closes the socket or frees the `SSL`.

A program creates, uses, closes and destroys such objects in any order, with any results of the
system calls.  `lostBy` is what a constructor that throws leaves behind; and the members `fd` and
`ssl` of a buffer still name what `close` has given back, so that nobody may read or write then.
-/

namespace Iostreams

open Foundation

inductive SocketResource where
  | descriptor
  | ssl
  deriving DecidableEq, Repr

/-- A descriptor or an `SSL`; there is none for `-1` and for a null pointer. -/
abbrev SocketRef := Option (SocketResource × Nat)

/-! ## Constructors -/

/-- What the calls of `tcp_client::connect` return. -/
structure ConnectCalls where
  /-- What `resolve_host_or_ip_to_ip` throws. -/
  unresolved : Option String := none
  sslNew : Bool := true
  socket : Bool := true
  inetPton : Int := 1
  connect : Int := 0
  /-- `errno == EINPROGRESS` -/
  inProgress : Bool := false
  select : Int := 0
  isSet : Bool := false
  soError : Int := 0
  sslConnect : Int := 1
  /-- The texts of `ERR_get_error`. -/
  errStr : String := ""
  /-- `connect` on `-1` fails with `EBADF`. -/
  badDescriptor : socket = false → connect < 0 ∧ inProgress = false := by simp

namespace ConnectCalls

/-- What is thrown from `::connect` to the end of the wait for it. -/
def connectError (calls : ConnectCalls) : Option String :=
  if calls.connect < 0 then
    if calls.inProgress then
      if 0 < calls.select ∧ calls.isSet then
        if calls.soError = 0 then none else some "Connection failed with socket error"
      else if calls.select = 0 then some "Connection timed out"
      else some "Select failed"
    else some "Connection failed immediately"
  else none

/-- Whether there is an `SSL`; `secure` is whether the client has a context. -/
def ssl (calls : ConnectCalls) (secure : Bool) : Bool := secure && calls.sslNew

/-- What is thrown once the socket is there. -/
def error (calls : ConnectCalls) (secure : Bool) : Option String :=
  if calls.inetPton ≤ 0 then some "Invalid address/Address not supported!"
  else match calls.connectError with
    | some what => some what
    | none =>
        if calls.ssl secure ∧ calls.sslConnect < 0 then some ("SSL Connection failed: " ++ calls.errStr)
        else none

end ConnectCalls

/-- `tcp_client::connect` -/
def TcpClient.connect (secure : Bool) (calls : ConnectCalls) :
    Owning SocketResource (Except String (SocketRef × SocketRef)) :=
  match calls.unresolved with
  | some what => pure (.error what)
  | none => do
      let ssl ← Owning.obtainIf .ssl (calls.ssl secure)
      let fd ← Owning.obtainIf .descriptor calls.socket
      match calls.error secure with
      | some what => pure (.error what)
      | none => pure (.ok (fd, ssl))

/-- What the calls of the UDP constructors return. -/
structure DatagramCalls where
  socket : Bool := true
  setNonBlocking : Bool := true
  unresolved : Option String := none
  inetPton : Int := 1

/-- The end of a UDP constructor: the socket, or what is thrown. -/
def finish (fd : SocketRef) : Option String → Owning SocketResource (Except String SocketRef)
  | some what => pure (.error what)
  | none => pure (.ok fd)

/-- What `udp_client::connect` throws. -/
def UdpClient.error (calls : DatagramCalls) : Option String :=
  if calls.inetPton ≤ 0 then some "Invalid address/Address not supported!" else none

/-- `udp_client::connect` -/
def UdpClient.connect (calls : DatagramCalls) : Owning SocketResource (Except String SocketRef) := do
  let fd ← Owning.obtainIf .descriptor calls.socket
  finish fd (error calls)

/-- What `udpmc_sender::setup` throws. -/
def UdpmcSender.error (calls : DatagramCalls) : Option String :=
  if calls.socket then
    match calls.unresolved with
    | some what => some what
    | none =>
        -- populate_addr_from_ip
        if calls.inetPton ≤ 0 then some "Invalid address/Address not supported!" else none
  else some "Socket creation failed"

/-- `udpmc_sender::setup` -/
def UdpmcSender.setup (calls : DatagramCalls) : Owning SocketResource (Except String SocketRef) := do
  let fd ← Owning.obtainIf .descriptor calls.socket
  finish fd (error calls)

/-- What `udpmc_receiver::bind` throws; `bind` and `setsockopt` may fail. -/
def UdpmcReceiver.error (calls : DatagramCalls) : Option String :=
  if calls.setNonBlocking then calls.unresolved else some "SetNonBlocking failed"

/-- `udpmc_receiver::bind` -/
def UdpmcReceiver.bind (calls : DatagramCalls) : Owning SocketResource (Except String SocketRef) := do
  let fd ← Owning.obtainIf .descriptor calls.socket
  finish fd (error calls)

/-! ## Stream buffers -/

/-- The members of `tcp_streambuf` that `close` looks at. -/
structure TcpHandle where
  fd : SocketRef
  ssl : SocketRef
  ctxFdClosed : Bool := false

namespace TcpHandle

def socket (handle : TcpHandle) : TcpSocket where
  fd := match handle.fd with
    | some descriptor => descriptor.2
    | none => -1
  ssl := handle.ssl.isSome
  ctxFdClosed := handle.ctxFdClosed

/-- A system call on the members. -/
def execute (handle : TcpHandle) : SocketCall → Owning SocketResource Unit
  | .sslShutdown => Owning.ifPresent Owning.touch handle.ssl
  | .sslFree => Owning.ifPresent Owning.release handle.ssl
  | .close => Owning.ifPresent Owning.release handle.fd
  | .shutdown | .waitReadable | .recv => Owning.ifPresent Owning.touch handle.fd

def executeAll (handle : TcpHandle) (calls : List SocketCall) : Owning SocketResource Unit :=
  Owning.run (fun _ call => handle.execute call) () calls

/-- `tcp_streambuf::close()` on a peer, where the first `SSL_shutdown` returns `ret`: the buffer
afterwards, if it has returned within `fuel` rounds of draining. -/
def close (handle : TcpHandle) (fuel : Nat) (peer : Nat → DrainRound) (ret : Int) :
    Owning SocketResource (Option TcpHandle) := do
  let (calls, result) := handle.socket.close fuel peer ret
  handle.executeAll calls
  pure (result.map fun result => { handle with ctxFdClosed := result.2.ctxFdClosed })

/-- `xsgetn` and `xsputn` of at least one character: they do not look at `ctx_fd_closed`. -/
def transfer (handle : TcpHandle) : Owning SocketResource Unit := do
  Owning.ifPresent Owning.touch handle.fd
  Owning.ifPresent Owning.touch handle.ssl

end TcpHandle

/-- An object that owns a socket; a UDP buffer closes it in its destructor only. -/
inductive Endpoint where
  | tcp (handle : TcpHandle)
  /-- A TCP buffer whose `close` has not returned: its `SSL` is gone. -/
  | draining (fd : SocketRef)
  | udp (fd : SocketRef)

inductive Opening where
  | tcpClient (secure : Bool) (calls : ConnectCalls)
  | udpClient (calls : DatagramCalls)
  | udpmcSender (calls : DatagramCalls)
  | udpmcReceiver (calls : DatagramCalls)

/-- A constructor: the object, or what it throws. -/
def Opening.construct : Opening → Owning SocketResource (Except String Endpoint)
  | .tcpClient secure calls => do
      let result ← TcpClient.connect secure calls
      pure (result.map fun (fd, ssl) => .tcp { fd, ssl })
  | .udpClient calls => do
      let result ← UdpClient.connect calls
      pure (result.map .udp)
  | .udpmcSender calls => do
      let result ← UdpmcSender.setup calls
      pure (result.map .udp)
  | .udpmcReceiver calls => do
      let result ← UdpmcReceiver.bind calls
      pure (result.map .udp)

inductive EndpointCall where
  | create (opening : Opening)
  /-- Characters are read from the object or written to it. -/
  | transfer (index : Nat)
  | close (index fuel : Nat) (peer : Nat → DrainRound) (ret : Int)
  | destroy (index fuel : Nat) (peer : Nat → DrainRound) (ret : Int)

/-- A call of a program on the objects that it has. -/
def EndpointCall.perform (endpoints : List Endpoint) :
    EndpointCall → Owning SocketResource (List Endpoint)
  | .create opening => do
      match ← opening.construct with
      | .ok endpoint => pure (endpoints ++ [endpoint])
      | .error _ => pure endpoints
  | .transfer index =>
      match endpoints[index]? with
      | some (.tcp handle) => do
          handle.transfer
          pure endpoints
      | some (.udp fd) => do
          Owning.ifPresent Owning.touch fd
          pure endpoints
      | _ => pure endpoints
  | .close index fuel peer ret =>
      match endpoints[index]? with
      | some (.tcp handle) => do
          let result ← handle.close fuel peer ret
          pure (result.elim (endpoints.set index (.draining handle.fd)) fun next =>
            endpoints.set index (.tcp next))
      | _ => pure endpoints
  | .destroy index fuel peer ret =>
      match endpoints[index]? with
      | some (.tcp handle) => do
          let result ← handle.close fuel peer ret
          pure (result.elim (endpoints.set index (.draining handle.fd)) fun _ =>
            endpoints.eraseIdx index)
      | some (.udp fd) => do
          -- sync
          Owning.ifPresent Owning.touch fd
          Owning.ifPresent Owning.release fd
          pure (endpoints.eraseIdx index)
      | _ => pure endpoints

/-! ## What is owned and what is lost -/

def Endpoint.owned : Endpoint → Multiset (SocketResource × Nat)
  | .tcp handle => if handle.ctxFdClosed then 0 else present handle.fd + present handle.ssl
  | .draining fd | .udp fd => present fd

/-- What a closed buffer still names. -/
def Endpoint.spent : Endpoint → Multiset (SocketResource × Nat)
  | .tcp handle => if handle.ctxFdClosed then present handle.fd + present handle.ssl else 0
  | .draining _ | .udp _ => 0

def ownedBy (endpoints : List Endpoint) : Multiset (SocketResource × Nat) :=
  (endpoints.map Endpoint.owned).sum

def spentBy (endpoints : List Endpoint) : Multiset (SocketResource × Nat) :=
  (endpoints.map Endpoint.spent).sum

/-- A buffer that has something is not used after its `close`. -/
def EndpointCall.Allowed (endpoints : List Endpoint) : EndpointCall → Prop
  | .transfer index => ∀ handle, endpoints[index]? = some (.tcp handle) →
      handle.ctxFdClosed = true → handle.fd = none ∧ handle.ssl = none
  | _ => True

/-- What a constructor leaves behind: nothing where it returns or throws before it has a
socket. -/
def Opening.lost : Opening → Multiset SocketResource
  | .tcpClient secure calls =>
      if calls.unresolved = none ∧ (calls.error secure).isSome then
        kindIf .descriptor calls.socket + kindIf .ssl (calls.ssl secure)
      else 0
  | .udpClient calls =>
      if (UdpClient.error calls).isSome then kindIf .descriptor calls.socket else 0
  | .udpmcSender calls =>
      if (UdpmcSender.error calls).isSome then kindIf .descriptor calls.socket else 0
  | .udpmcReceiver calls =>
      if (UdpmcReceiver.error calls).isSome then kindIf .descriptor calls.socket else 0

def EndpointCall.lostBy : EndpointCall → Multiset SocketResource
  | .create opening => opening.lost
  | _ => 0

/-! ## Constructors -/

/-- What a result owns; an exception owns nothing. -/
def ownedByResult {α : Type} (owned : α → Multiset (SocketResource × Nat)) :
    Except String α → Multiset (SocketResource × Nat)
  | .ok result => owned result
  | .error _ => 0

theorem spends_connect (secure : Bool) (calls : ConnectCalls) :
    Spends 0 (TcpClient.connect secure calls)
      (ownedByResult fun (fd, ssl) => present fd + present ssl)
      (Opening.tcpClient secure calls).lost := by
  unfold TcpClient.connect
  cases hunresolved : calls.unresolved with
  | some what =>
      refine Spends.leave _ (add_zero 0).symm ?_
      simp [Opening.lost, hunresolved]
  | none =>
      have hssl := Spends.obtainIf SocketResource.ssl (calls.ssl secure) 0
      have hfd := fun owned => Spends.obtainIf SocketResource.descriptor calls.socket owned
      refine hssl.seqReturning (returns_obtainIf _ _) fun ssl hssl =>
        (hfd _).seqReturning (returns_obtainIf _ _) fun fd hfd => ?_
      cases herror : calls.error secure with
      | some what =>
          refine Spends.leave _ (zero_add _).symm ?_
          rw [Multiset.map_add, Multiset.map_add, hfd, hssl, Multiset.map_zero, add_zero]
          simp [Opening.lost, hunresolved, herror]
      | none =>
          have howned : present fd + (present ssl + 0) = present fd + present ssl + 0 := by
            rw [add_zero, add_zero]
          refine Spends.leave _ howned ?_
          simp [Opening.lost, hunresolved, herror]

/-- A UDP constructor that has its socket returns it or leaves it behind. -/
theorem spends_datagram (socket : Bool) (error : Option String) :
    Spends 0 (Owning.obtainIf .descriptor socket >>= fun fd => finish fd error)
      (ownedByResult present) (if error.isSome then kindIf .descriptor socket else 0) := by
  have hfd := Spends.obtainIf SocketResource.descriptor socket 0
  refine hfd.seqReturning (returns_obtainIf _ _) fun fd hfd => ?_
  cases error with
  | some what => exact Spends.leave _ (add_comm _ _) hfd
  | none => exact Spends.leave _ rfl rfl

/-- Wrapping what was obtained costs nothing. -/
theorem spends_map {α : Type} {program : Owning SocketResource (Except String α)}
    {owned : α → Multiset (SocketResource × Nat)} {lost : Multiset SocketResource}
    (hprogram : Spends 0 program (ownedByResult owned) lost) {wrap : α → Endpoint}
    (hwrap : ∀ result, (wrap result).owned = owned result) :
    Spends 0 (program >>= fun result => pure (result.map wrap))
      (ownedByResult Endpoint.owned) lost := by
  refine (hprogram.bind fun result => Spends.stop _ ?_).congr rfl (fun _ => rfl) (add_zero _)
  cases result with
  | ok result => exact (hwrap result).symm
  | error what => rfl

theorem spends_construct (opening : Opening) :
    Spends 0 opening.construct (ownedByResult Endpoint.owned) opening.lost := by
  cases opening with
  | tcpClient secure calls => exact spends_map (spends_connect secure calls) fun _ => rfl
  | udpClient calls => exact spends_map (spends_datagram _ _) fun _ => rfl
  | udpmcSender calls => exact spends_map (spends_datagram _ _) fun _ => rfl
  | udpmcReceiver calls => exact spends_map (spends_datagram _ _) fun _ => rfl

/-! ## Closing -/

namespace TcpHandle

variable {handle : TcpHandle}

/-- Draining uses the descriptor and keeps it. -/
theorem spends_draining (handle : TcpHandle) {calls : List SocketCall}
    (hcalls : ∀ call ∈ calls, call = .shutdown ∨ call = .waitReadable ∨ call = .recv)
    (owned : Multiset (SocketResource × Nat)) :
    Spends (present handle.fd + owned) (handle.executeAll calls)
      (fun _ => present handle.fd + owned) 0 := by
  refine Spends.run (fun _ call hcall => ?_) ()
  rcases hcalls call hcall with rfl | rfl | rfl
  all_goals exact Spends.touchPresent handle.fd owned

theorem drain_calls (fuel : Nat) (peer : Nat → DrainRound) :
    ∀ call ∈ (drain fuel peer).1, call = .shutdown ∨ call = .waitReadable ∨ call = .recv := by
  induction fuel generalizing peer with
  | zero => exact fun _ hcall => absurd hcall List.not_mem_nil
  | succ fuel ih =>
      rw [drain]
      split
      · simp only
        split
        · simp
        · split
          · simp
          · have hrest := ih fun round => peer (round + 1)
            simp only [List.mem_cons]
            rintro call (rfl | rfl | hcall)
            · exact Or.inr (Or.inl rfl)
            · exact Or.inr (Or.inr rfl)
            · exact hrest call hcall
      · simp

theorem spends_executeAll_append (handle : TcpHandle) {front back : List SocketCall}
    {pre mid post : Multiset (SocketResource × Nat)}
    (hfront : Spends pre (handle.executeAll front) (fun _ => mid) 0)
    (hback : Spends mid (handle.executeAll back) (fun _ => post) 0) :
    Spends pre (handle.executeAll (front ++ back)) (fun _ => post) 0 := by
  rw [executeAll, Owning.run_append]
  exact hfront.seq fun _ => hback

/-- One call. -/
theorem spends_execute (handle : TcpHandle) {call : SocketCall}
    {pre post : Multiset (SocketResource × Nat)}
    (hcall : Spends pre (handle.execute call) (fun _ => post) 0) :
    Spends pre (handle.executeAll [call]) (fun _ => post) 0 :=
  hcall.seq fun _ => Spends.pure () fun _ => post

/-- The `SSL` is used and freed. -/
theorem spends_closeSsl (handle : TcpHandle) (ret : Int)
    (owned : Multiset (SocketResource × Nat)) :
    Spends (present handle.ssl + owned) (handle.executeAll (handle.socket.closeSsl ret))
      (fun _ => owned) 0 := by
  have htouch : Spends (present handle.ssl + owned) (handle.executeAll [.sslShutdown])
      (fun _ => present handle.ssl + owned) 0 :=
    handle.spends_execute (Spends.touchPresent handle.ssl owned)
  have hfree : Spends (present handle.ssl + owned) (handle.executeAll [.sslFree])
      (fun _ => owned) 0 :=
    handle.spends_execute (Spends.releasePresent handle.ssl owned)
  unfold TcpSocket.closeSsl
  by_cases hssl : handle.socket.ssl = true
  · rw [if_pos hssl]
    split
    · exact handle.spends_executeAll_append htouch (handle.spends_executeAll_append htouch hfree)
    · exact handle.spends_executeAll_append htouch hfree
  · rw [if_neg hssl]
    have hnone : handle.ssl = none := by
      cases hcase : handle.ssl with
      | none => rfl
      | some ssl => exact absurd (congrArg Option.isSome hcase) hssl
    rw [hnone]
    exact (Spends.pure () fun _ => owned).congr (zero_add _) (fun _ => rfl) rfl

/-- The descriptor is closed where the draining ends. -/
theorem spends_closeSocket (handle : TcpHandle) (fuel : Nat) (peer : Nat → DrainRound) :
    Spends (present handle.fd)
      (handle.executeAll (closeSocket fuel peer handle.socket.fd).1)
      (fun _ => if (closeSocket fuel peer handle.socket.fd).2.isSome then 0
        else present handle.fd) 0 := by
  cases hfd : handle.fd with
  | none =>
      have hnegative : handle.socket.fd = -1 := by rw [socket, hfd]
      rw [hnegative]
      exact Spends.pure () fun _ => 0
  | some descriptor =>
      -- `shutdown` and the reads of the draining use the descriptor
      have hvalid : 0 ≤ handle.socket.fd := by
        rw [socket, hfd]
        exact Int.natCast_nonneg _
      have hopen : present (some descriptor) = present handle.fd + 0 := by rw [hfd, add_zero]
      have hdrain : Spends (present handle.fd + 0)
          (handle.executeAll (.shutdown :: (drain fuel peer).1))
          (fun _ => present handle.fd + 0) 0 := by
        apply handle.spends_draining
        intro call hcall
        rcases List.mem_cons.mp hcall with rfl | hrest
        · exact Or.inl rfl
        · exact drain_calls fuel peer call hrest
      rw [closeSocket, if_pos hvalid, hopen]
      simp only
      split
      · have hclose : Spends (present handle.fd + 0) (handle.executeAll [.close])
            (fun _ => 0) 0 := handle.spends_execute (Spends.releasePresent handle.fd 0)
        exact handle.spends_executeAll_append hdrain hclose
      · exact hdrain

/-- What `close` leaves: nothing if it has returned, the descriptor if it is draining. -/
def ownedAfter (handle : TcpHandle) : Option TcpHandle → Multiset (SocketResource × Nat)
  | some _ => 0
  | none => present handle.fd

/-- What `close` returns. -/
def afterClose (handle : TcpHandle) (fuel : Nat) (peer : Nat → DrainRound) (ret : Int) :
    Option TcpHandle :=
  (handle.socket.close fuel peer ret).2.map fun result =>
    { handle with ctxFdClosed := result.2.ctxFdClosed }

theorem close_eq (handle : TcpHandle) (fuel : Nat) (peer : Nat → DrainRound) (ret : Int) :
    handle.close fuel peer ret = handle.executeAll (handle.socket.close fuel peer ret).1 >>=
      fun _ => pure (handle.afterClose fuel peer ret) := rfl

theorem ctxFdClosed_afterClose {fuel : Nat} {peer : Nat → DrainRound} {ret : Int}
    {next : TcpHandle} (hafter : handle.afterClose fuel peer ret = some next) :
    next.ctxFdClosed = true := by
  obtain ⟨result, hresult, rfl⟩ := Option.map_eq_some_iff.mp hafter
  rw [TcpSocket.close] at hresult
  split at hresult
  · next hclosed =>
      cases hresult
      exact hclosed
  · obtain ⟨-, -, rfl⟩ := Option.map_eq_some_iff.mp hresult
    rfl

/-- `close` gives back what the buffer owns, the descriptor unless it is still draining. -/
theorem spends_close (handle : TcpHandle) (fuel : Nat) (peer : Nat → DrainRound) (ret : Int) :
    Spends (Endpoint.tcp handle).owned (handle.close fuel peer ret) handle.ownedAfter 0 := by
  rw [close_eq]
  by_cases hclosed : handle.ctxFdClosed = true
  -- the second `close` finds the flag and does nothing
  · have hclose : handle.socket.close fuel peer ret = ([], some (false, handle.socket)) :=
      if_pos hclosed
    have hnothing : Spends 0 (handle.executeAll []) (fun _ => 0) 0 := Spends.pure () fun _ => 0
    rw [Endpoint.owned, if_pos hclosed, afterClose, hclose]
    exact hnothing.seq fun _ => Spends.stop _ rfl
  · have hclose : handle.socket.close fuel peer ret =
        (handle.socket.closeSsl ret ++ (closeSocket fuel peer handle.socket.fd).1,
          (closeSocket fuel peer handle.socket.fd).2.map fun _ =>
            (true, { handle.socket with ctxFdClosed := true })) := if_neg hclosed
    have hssl := handle.spends_closeSsl ret (present handle.fd)
    have hcalls := handle.spends_executeAll_append hssl (handle.spends_closeSocket fuel peer)
    rw [Endpoint.owned, if_neg hclosed, afterClose, hclose, add_comm]
    refine hcalls.seq fun _ => Spends.stop _ ?_
    cases (closeSocket fuel peer handle.socket.fd).2 with
    | none => rfl
    | some result => rfl

end TcpHandle

/-! ## Programs -/

variable {endpoints : List Endpoint}

theorem ownedBy_of_getElem {index : Nat} {endpoint : Endpoint}
    (hget : endpoints[index]? = some endpoint) :
    ownedBy endpoints = endpoint.owned + ownedBy (endpoints.eraseIdx index) ∧
      ∀ other, ownedBy (endpoints.set index other) =
        other.owned + ownedBy (endpoints.eraseIdx index) :=
  sum_of_getElem hget Endpoint.owned

theorem spentBy_of_getElem {index : Nat} {endpoint : Endpoint}
    (hget : endpoints[index]? = some endpoint) :
    spentBy endpoints = endpoint.spent + spentBy (endpoints.eraseIdx index) ∧
      ∀ other, spentBy (endpoints.set index other) =
        other.spent + spentBy (endpoints.eraseIdx index) :=
  sum_of_getElem hget Endpoint.spent

/-- A constructor, with what the program has already. -/
theorem spends_create (endpoints : List Endpoint) (opening : Opening) :
    Spends (ownedBy endpoints) ((EndpointCall.create opening).perform endpoints) ownedBy
      opening.lost := by
  have hconstruct := (spends_construct opening).frame (ownedBy endpoints)
  refine (hconstruct.bind fun result => ?_).congr (zero_add _).symm (fun _ => rfl) (add_zero _)
  cases result with
  | ok endpoint => exact Spends.stop _ (sum_concat endpoints endpoint Endpoint.owned).symm
  | error what => exact Spends.stop _ (zero_add _)

theorem returns_close (handle : TcpHandle) (fuel : Nat) (peer : Nat → DrainRound) (ret : Int) :
    Returns (handle.close fuel peer ret) fun result =>
      result = handle.afterClose fuel peer ret := by
  rw [TcpHandle.close_eq]
  exact returns_fixed _ _

/-- `close` and what becomes of the object then: a buffer that goes on owns nothing. -/
theorem spends_closing {index : Nat} {handle : TcpHandle} (fuel : Nat)
    (peer : Nat → DrainRound) (ret : Int) (hget : endpoints[index]? = some (.tcp handle))
    {done : TcpHandle → List Endpoint} (hdone : ∀ next, next.ctxFdClosed = true →
      ownedBy (done next) = ownedBy (endpoints.eraseIdx index)) :
    Spends (ownedBy endpoints)
      (handle.close fuel peer ret >>= fun result =>
        pure (result.elim (endpoints.set index (.draining handle.fd)) done)) ownedBy 0 := by
  obtain ⟨hsplit, hset⟩ := ownedBy_of_getElem hget
  have hclose := (handle.spends_close fuel peer ret).frame (ownedBy (endpoints.eraseIdx index))
  rw [hsplit]
  refine hclose.seqReturning (returns_close handle fuel peer ret) fun result hresult =>
    Spends.stop _ ?_
  cases result with
  | none => exact (hset (.draining handle.fd)).symm
  | some next =>
      have hclosed : next.ctxFdClosed = true := TcpHandle.ctxFdClosed_afterClose hresult.symm
      exact (zero_add _).trans (hdone next hclosed).symm

/-- What an open buffer has may be used. -/
theorem spends_transfer (handle : TcpHandle) (hopen : ¬handle.ctxFdClosed = true) :
    Spends (Endpoint.tcp handle).owned handle.transfer
      (fun _ => (Endpoint.tcp handle).owned) 0 := by
  have hssl := Spends.touchPresent handle.ssl (present handle.fd)
  rw [Endpoint.owned, if_neg hopen]
  refine (Spends.touchPresent handle.fd (present handle.ssl)).seq fun _ => ?_
  exact hssl.congr (add_comm _ _) (fun _ => add_comm _ _) rfl

/-- What a call does to the resources of the program. -/
theorem spends_perform (endpoints : List Endpoint) (call : EndpointCall)
    (hallowed : call.Allowed endpoints) :
    Spends (ownedBy endpoints) (call.perform endpoints) ownedBy call.lostBy := by
  cases call with
  | create opening => exact spends_create endpoints opening
  | transfer index =>
      unfold EndpointCall.perform
      simp only
      split
      · next handle hget =>
          obtain ⟨hsplit, -⟩ := ownedBy_of_getElem hget
          -- a closed buffer may be used only if it has nothing to name
          have htransfer : Spends (Endpoint.tcp handle).owned handle.transfer
              (fun _ => (Endpoint.tcp handle).owned) 0 := by
            by_cases hclosed : handle.ctxFdClosed = true
            · obtain ⟨hfd, hssl⟩ := hallowed handle hget hclosed
              rw [Endpoint.owned, if_pos hclosed, TcpHandle.transfer, hfd, hssl]
              exact Spends.pure () fun _ => 0
            · exact spends_transfer handle hclosed
          have hframed := htransfer.frame (ownedBy (endpoints.eraseIdx index))
          rw [hsplit]
          exact hframed.seq fun _ => Spends.stop _ hsplit.symm
      · next fd hget =>
          obtain ⟨hsplit, -⟩ := ownedBy_of_getElem hget
          have htouch := Spends.touchPresent fd (ownedBy (endpoints.eraseIdx index))
          rw [hsplit]
          exact htouch.seq fun _ => Spends.stop _ hsplit.symm
      · exact Spends.pure _ ownedBy
  | close index fuel peer ret =>
      unfold EndpointCall.perform
      simp only
      split
      · next handle hget =>
          obtain ⟨-, hset⟩ := ownedBy_of_getElem hget
          refine spends_closing fuel peer ret hget fun next hclosed => ?_
          rw [hset, Endpoint.owned, if_pos hclosed, zero_add]
      · exact Spends.pure _ ownedBy
  | destroy index fuel peer ret =>
      unfold EndpointCall.perform
      simp only
      split
      · -- the destructor closes, and the object is gone
        next handle hget => exact spends_closing fuel peer ret hget fun _ _ => rfl
      · next fd hget =>
          obtain ⟨hsplit, -⟩ := ownedBy_of_getElem hget
          have htouch := Spends.touchPresent fd (ownedBy (endpoints.eraseIdx index))
          have hrelease := Spends.releasePresent fd (ownedBy (endpoints.eraseIdx index))
          rw [hsplit]
          exact htouch.seq fun _ => hrelease.seq fun _ => Spends.pure _ ownedBy
      · exact Spends.pure _ ownedBy

/-! ## What is remembered -/

/-- A new object is not closed. -/
theorem returns_construct (opening : Opening) :
    Returns opening.construct fun result => ∀ endpoint, result = .ok endpoint →
      endpoint.spent = 0 := by
  have hwrap {α : Type} (program : Owning SocketResource (Except String α))
      {wrap : α → Endpoint} (hfresh : ∀ result, (wrap result).spent = 0) :
      Returns (program >>= fun result => pure (result.map wrap)) fun result =>
        ∀ endpoint, result = .ok endpoint → endpoint.spent = 0 := by
    refine Returns.after _ fun result => Returns.pure ?_
    intro endpoint hendpoint
    cases result with
    | ok result =>
        cases hendpoint
        exact hfresh result
    | error what => cases hendpoint
  cases opening with
  | tcpClient secure calls => exact hwrap _ fun _ => rfl
  | udpClient calls => exact hwrap _ fun _ => rfl
  | udpmcSender calls => exact hwrap _ fun _ => rfl
  | udpmcReceiver calls => exact hwrap _ fun _ => rfl

/-- The members of a buffer that has just been closed name what it owned before, or what they
named before. -/
theorem spent_afterClose {handle next : TcpHandle} {fuel : Nat} {peer : Nat → DrainRound}
    {ret : Int} (hafter : handle.afterClose fuel peer ret = some next) :
    (Endpoint.tcp next).owned = 0 ∧
      ((Endpoint.tcp next).spent = (Endpoint.tcp handle).spent ∨
        (Endpoint.tcp next).spent = (Endpoint.tcp handle).owned) := by
  have hclosed := TcpHandle.ctxFdClosed_afterClose hafter
  obtain ⟨result, -, rfl⟩ := Option.map_eq_some_iff.mp hafter
  refine ⟨if_pos hclosed, ?_⟩
  rw [Endpoint.spent, if_pos hclosed]
  by_cases hbefore : handle.ctxFdClosed = true
  · exact Or.inl (if_pos hbefore).symm
  · exact Or.inr (if_neg hbefore).symm

theorem remembers_perform (endpoints : List Endpoint) (call : EndpointCall) :
    Returns (call.perform endpoints) fun next => ∀ resource ∈ spentBy next,
      resource ∈ spentBy endpoints ∨ call.lostBy = 0 ∧ ∃ returned,
        ownedBy endpoints = returned + ownedBy next ∧ resource ∈ returned := by
  have hsame : Returns (pure endpoints : Owning SocketResource _) fun next =>
      ∀ resource ∈ spentBy next, resource ∈ spentBy endpoints ∨ call.lostBy = 0 ∧ ∃ returned,
        ownedBy endpoints = returned + ownedBy next ∧ resource ∈ returned :=
    Returns.pure fun _ hmem => Or.inl hmem
  cases call with
  | create opening =>
      refine (returns_construct opening).bind fun result hfresh => ?_
      cases result with
      | ok endpoint =>
          refine Returns.pure fun resource hmem => Or.inl ?_
          rw [spentBy, sum_concat, hfresh endpoint rfl, zero_add] at hmem
          exact hmem
      | error what => exact hsame
  | transfer index =>
      unfold EndpointCall.perform
      simp only
      split
      · exact Returns.after _ fun _ => hsame
      · exact Returns.after _ fun _ => hsame
      · exact hsame
  | close index fuel peer ret =>
      unfold EndpointCall.perform
      simp only
      split
      · next handle hget =>
          obtain ⟨howned, hsetOwned⟩ := ownedBy_of_getElem hget
          obtain ⟨hspent, hsetSpent⟩ := spentBy_of_getElem hget
          refine (returns_close handle fuel peer ret).bind fun result hresult => Returns.pure ?_
          intro resource hmem
          cases result with
          | none =>
              -- a thread that is draining has given nothing back
              rw [Option.elim, hsetSpent, Endpoint.spent, zero_add] at hmem
              rw [hspent, Multiset.mem_add]
              exact Or.inl (Or.inr hmem)
          | some next =>
              -- the members keep the numbers that were given back
              obtain ⟨hnext, hnames⟩ := spent_afterClose hresult.symm
              rw [Option.elim, hsetSpent, Multiset.mem_add] at hmem
              rw [Option.elim, hsetOwned, hnext, zero_add, hspent, Multiset.mem_add]
              rcases hmem with hmem | hmem
              · rcases hnames with hbefore | hreturned
                · exact Or.inl (Or.inl (hbefore ▸ hmem))
                · exact Or.inr ⟨rfl, _, howned, hreturned ▸ hmem⟩
              · exact Or.inl (Or.inr hmem)
      · exact hsame
  | destroy index fuel peer ret =>
      unfold EndpointCall.perform
      simp only
      split
      · next handle hget =>
          obtain ⟨hspent, hsetSpent⟩ := spentBy_of_getElem hget
          refine (returns_close handle fuel peer ret).bind fun result hresult => Returns.pure ?_
          intro resource hmem
          rw [hspent, Multiset.mem_add]
          cases result with
          | none =>
              rw [Option.elim, hsetSpent, Endpoint.spent, zero_add] at hmem
              exact Or.inl (Or.inr hmem)
          | some next => exact Or.inl (Or.inr hmem)
      · next fd hget =>
          obtain ⟨hspent, -⟩ := spentBy_of_getElem hget
          refine Returns.after _ fun _ => Returns.after _ fun _ => Returns.pure ?_
          intro resource hmem
          rw [hspent, Multiset.mem_add]
          exact Or.inl (Or.inr hmem)
      · exact hsame

/-! ## Runs -/

/-- What a buffer names has been given back. -/
theorem transfer_eq_none {handle : TcpHandle} {ledger : Ledger SocketResource}
    (hsome : ¬(handle.fd = none ∧ handle.ssl = none))
    (hgone : ∀ resource ∈ present handle.fd + present handle.ssl, ledger.Gone resource) :
    handle.transfer ledger = none := by
  cases hfd : handle.fd with
  | some descriptor =>
      have hmem : descriptor ∈ present handle.fd + present handle.ssl := by
        rw [hfd]
        exact Multiset.mem_add.mpr (Or.inl (Multiset.mem_singleton_self _))
      rw [TcpHandle.transfer, hfd]
      exact Owning.bind_eq_none (Owning.touch_gone (hgone descriptor hmem)) _
  | none =>
      cases hssl : handle.ssl with
      | none => exact absurd ⟨hfd, hssl⟩ hsome
      | some ssl =>
          have hmem : ssl ∈ present handle.fd + present handle.ssl := by
            rw [hssl]
            exact Multiset.mem_add.mpr (Or.inr (Multiset.mem_singleton_self _))
          rw [TcpHandle.transfer, hfd, hssl]
          exact Owning.touch_gone (hgone ssl hmem)

/-- A buffer that is used after its `close`. -/
theorem faults_perform (endpoints : List Endpoint) (call : EndpointCall)
    {ledger : Ledger SocketResource} (hallowed : ¬call.Allowed endpoints)
    (hgone : ∀ resource ∈ spentBy endpoints, ledger.Gone resource) :
    call.perform endpoints ledger = none := by
  cases call with
  | transfer index =>
      simp only [EndpointCall.Allowed, not_forall] at hallowed
      obtain ⟨handle, hget, hclosed, hsome⟩ := hallowed
      obtain ⟨hspent, -⟩ := spentBy_of_getElem hget
      rw [Endpoint.spent, if_pos hclosed] at hspent
      have hnames : ∀ resource ∈ present handle.fd + present handle.ssl, ledger.Gone resource :=
        fun resource hmem => hgone resource (hspent ▸ Multiset.mem_add.mpr (Or.inl hmem))
      unfold EndpointCall.perform
      simp only [hget]
      exact Owning.bind_eq_none (transfer_eq_none hsome hnames) _
  | create opening => exact absurd trivial hallowed
  | close index fuel peer ret => exact absurd trivial hallowed
  | destroy index fuel peer ret => exact absurd trivial hallowed

theorem bookkeeping_endpoints :
    Bookkeeping EndpointCall.perform ownedBy spentBy (fun _ => EndpointCall.lostBy)
      EndpointCall.Allowed where
  spends endpoints call hallowed := spends_perform endpoints call hallowed
  remembers endpoints call _ := remembers_perform endpoints call
  faults endpoints call _ _ hallowed haccounted :=
    faults_perform endpoints call hallowed haccounted.gone

/-- In whatever order a program creates, uses, closes and destroys its objects, no descriptor is
closed twice and no `SSL` is freed twice: the only fault is to use a buffer after its `close`.  What
is still open in the end belongs to the objects that are left, or was left behind by constructors
that threw. -/
theorem clientSockets_balanced (calls : List EndpointCall) :
    (Owning.run EndpointCall.perform [] calls {} = none ↔
      Misuses EndpointCall.perform EndpointCall.Allowed [] calls {}) ∧
    ∀ endpoints ledger,
      Owning.run EndpointCall.perform [] calls {} = some (endpoints, ledger) →
      ledger.held.map Prod.fst =
        (ownedBy endpoints).map Prod.fst + (calls.map EndpointCall.lostBy).sum := by
  have hnone : ownedBy [] = 0 := rfl
  obtain ⟨hfault, hheld⟩ := bookkeeping_endpoints.balanced calls hnone rfl
  refine ⟨hfault, fun endpoints ledger hrun => ?_⟩
  rw [hheld endpoints ledger hrun, lostIn_const EndpointCall.lostBy hrun]

end Iostreams
