import Iostreams.Tcp.Server
import Mathlib.Data.Nat.Find

/-!
# Closing a socket

`close_socket` shuts down the sending side and then drains what the peer still sends: it waits for
at most a millisecond, receives one byte, and begins again, until a wait finds nothing to read or a
receive returns no byte.  Only then is the descriptor closed.

Each wait is short and no receive blocks, but nothing counts the rounds.  `DrainRound` is what the
system calls of one round return, and the peer is any sequence of rounds; draining ends exactly if
one of them ends it.  `Traffic` describes a peer by what it sends.
-/

namespace Iostreams

/-! ## The calls of `close_socket` -/

/-- `socket_wait_result` -/
structure SocketWaitResult where
  readable : Bool := false
  writable : Bool := false
  excepted : Bool := false

/-- What `select` returns, and whether the descriptor is in the sets it leaves. -/
structure SelectOutcome where
  res : Int
  readset : Bool
  writeset : Bool
  exceptset : Bool

/-- `wait_for_socket(fd, timeout_ms, want_read, want_write)`; a set that the descriptor was not
put into does not have it afterwards either. -/
def waitForSocket (outcome : SelectOutcome) (wantRead wantWrite : Bool) : SocketWaitResult :=
  if outcome.res < 0 then {}
  else if 0 < outcome.res then
    { readable := wantRead && outcome.readset
      writable := wantWrite && outcome.writeset
      excepted := outcome.exceptset }
  else {}

/-- `wait_readable(fd, timeout_ms)` -/
def waitReadable (outcome : SelectOutcome) : Bool := (waitForSocket outcome true false).readable

/-- What the calls of one round return. -/
structure DrainRound where
  select : SelectOutcome
  /-- The result of `recv(fd, &c, 1, IO_DONTWAIT)`. -/
  res : Int

/-- The calls that closing makes. -/
inductive SocketCall where
  | sslShutdown
  | sslFree
  | shutdown
  | waitReadable
  | recv
  | close
  deriving DecidableEq, Repr

/-- The loop of `close_socket`: its calls, and whether it has ended within `fuel` rounds. -/
def drain : Nat → (Nat → DrainRound) → List SocketCall × Bool
  | 0, _ => ([], false)
  | fuel + 1, peer =>
      if waitReadable (peer 0).select then
        let res := (peer 0).res
        if res < 0 then ([.waitReadable, .recv], true)
        else if res = 0 then ([.waitReadable, .recv], true)
        else
          let (calls, ended) := drain fuel fun round => peer (round + 1)
          (.waitReadable :: .recv :: calls, ended)
      else ([.waitReadable], true)

/-- `close_socket(fd)`: its calls and its result; `none` when it is still draining after `fuel`
rounds. -/
def closeSocket (fuel : Nat) (peer : Nat → DrainRound) (fd : Int) :
    List SocketCall × Option Bool :=
  if 0 ≤ fd then
    let (calls, ended) := drain fuel peer
    if ended then (.shutdown :: calls ++ [.close], some true) else (.shutdown :: calls, none)
  else ([], some false)

/-- Finitely many calls, of which the last closes the descriptor. -/
def Closes (peer : Nat → DrainRound) (fd : Int) : Prop :=
  ∃ fuel calls, closeSocket fuel peer fd = (calls ++ [.close], some true)

/-! ## Rounds that end the loop -/

/-- There is nothing to read, or what is read is an error or the end of the connection. -/
def DrainRound.Stops (round : DrainRound) : Prop :=
  waitReadable round.select = false ∨ round.res ≤ 0

/-- The calls of a round; one that finds nothing to read does not receive. -/
def DrainRound.calls (round : DrainRound) : List SocketCall :=
  if waitReadable round.select then [.waitReadable, .recv] else [.waitReadable]

/-- The calls of `n` rounds that go on. -/
def fullRounds : Nat → List SocketCall
  | 0 => []
  | n + 1 => .waitReadable :: .recv :: fullRounds n

theorem count_waitReadable_fullRounds (n : Nat) : (fullRounds n).count .waitReadable = n := by
  induction n with
  | zero => rfl
  | succ n ih => simp [fullRounds, ih]

theorem count_recv_fullRounds (n : Nat) : (fullRounds n).count .recv = n := by
  induction n with
  | zero => rfl
  | succ n ih => simp [fullRounds, ih]

theorem close_not_mem_fullRounds (n : Nat) : .close ∉ fullRounds n := by
  induction n with
  | zero => exact nofun
  | succ n ih => simp [fullRounds, ih]

variable {peer : Nat → DrainRound}

theorem drain_stops (hstops : (peer 0).Stops) (fuel : Nat) :
    drain (fuel + 1) peer = ((peer 0).calls, true) := by
  rw [drain, DrainRound.calls]
  by_cases hreadable : waitReadable (peer 0).select = true
  · have hres : (peer 0).res ≤ 0 := hstops.resolve_left (by simp [hreadable])
    simp only [hreadable, if_true]
    split
    · rfl
    · rw [if_pos (by omega)]
  · simp only [hreadable, if_false, Bool.false_eq_true]

theorem drain_succ (hgoes : ¬(peer 0).Stops) (fuel : Nat) :
    drain (fuel + 1) peer =
      (.waitReadable :: .recv :: (drain fuel fun round => peer (round + 1)).1,
        (drain fuel fun round => peer (round + 1)).2) := by
  rw [DrainRound.Stops, not_or, Bool.not_eq_false, Int.not_le] at hgoes
  have hfails : ¬(peer 0).res < 0 := by omega
  have hended : (peer 0).res ≠ 0 := by omega
  rw [drain, if_pos hgoes.1]
  simp only [if_neg hfails, if_neg hended]

/-- The first round that ends the loop ends it. -/
theorem drain_ends {n fuel : Nat} (hgoes : ∀ round < n, ¬(peer round).Stops)
    (hstops : (peer n).Stops) (hfuel : n < fuel) :
    drain fuel peer = (fullRounds n ++ (peer n).calls, true) := by
  obtain ⟨fuel, rfl⟩ := Nat.exists_eq_add_of_le' (show 1 ≤ fuel by omega)
  induction n generalizing peer fuel with
  | zero => exact drain_stops hstops fuel
  | succ n ih =>
      obtain ⟨fuel, rfl⟩ := Nat.exists_eq_add_of_le' (show 1 ≤ fuel by omega)
      have hlater : ∀ round < n, ¬(peer (round + 1)).Stops := by
        intro round hround
        exact hgoes (round + 1) (by omega)
      have hrest := ih hlater hstops fuel (by omega)
      rw [drain_succ (hgoes 0 (Nat.succ_pos n)), hrest, fullRounds]
      rfl

/-- As long as no round ends the loop it makes both calls of every round. -/
theorem drain_goes_on {fuel : Nat} (hgoes : ∀ round < fuel, ¬(peer round).Stops) :
    drain fuel peer = (fullRounds fuel, false) := by
  induction fuel generalizing peer with
  | zero => rfl
  | succ fuel ih =>
      have hlater : ∀ round < fuel, ¬(peer (round + 1)).Stops := by
        intro round hround
        exact hgoes (round + 1) (by omega)
      rw [drain_succ (hgoes 0 (Nat.succ_pos fuel)), ih hlater, fullRounds]

/-! ## `close_socket` -/

variable {fd : Int}

theorem closeSocket_ends (hfd : 0 ≤ fd) {n fuel : Nat} (hgoes : ∀ round < n, ¬(peer round).Stops)
    (hstops : (peer n).Stops) (hfuel : n < fuel) :
    closeSocket fuel peer fd =
      (.shutdown :: (fullRounds n ++ (peer n).calls) ++ [.close], some true) := by
  rw [closeSocket, if_pos hfd, drain_ends hgoes hstops hfuel]
  rfl

theorem closeSocket_goes_on (hfd : 0 ≤ fd) {fuel : Nat}
    (hgoes : ∀ round < fuel, ¬(peer round).Stops) :
    closeSocket fuel peer fd = (.shutdown :: fullRounds fuel, none) := by
  rw [closeSocket, if_pos hfd, drain_goes_on hgoes]
  rfl

theorem closeSocket_negative (hfd : fd < 0) (fuel : Nat) :
    closeSocket fuel peer fd = ([], some false) := by
  rw [closeSocket, if_neg (by omega)]

/-- A round that ends the loop is the first one or comes after the first one. -/
theorem exists_first_stop (hstops : ∃ n, (peer n).Stops) :
    ∃ n, (peer n).Stops ∧ ∀ round < n, ¬(peer round).Stops := by
  classical
  exact ⟨Nat.find hstops, Nat.find_spec hstops, fun _ hround => Nat.find_min hstops hround⟩

/-- The descriptor is closed exactly if a round ends the loop. -/
theorem closes_iff_stops (hfd : 0 ≤ fd) : Closes peer fd ↔ ∃ n, (peer n).Stops := by
  constructor
  · rintro ⟨fuel, calls, hclosed⟩
    by_contra hendless
    rw [not_exists] at hendless
    rw [closeSocket_goes_on hfd fun round _ => hendless round] at hclosed
    cases (Prod.mk.inj hclosed).2
  · intro hstops
    obtain ⟨n, hstop, hgoes⟩ := exists_first_stop hstops
    exact ⟨n + 1, _, closeSocket_ends hfd hgoes hstop (Nat.lt_succ_self n)⟩

/-- **Draining takes as long as the peer sends.**  A valid descriptor is closed after finitely many
waits and receives exactly if in some round nothing is readable or no byte is received, and the
first such round is the last one; without one it is never closed. -/
theorem closeSocket_closes_iff (peer : Nat → DrainRound) (fd : Int) :
    (Closes peer fd ↔ 0 ≤ fd ∧ ∃ n, (peer n).Stops) ∧
    (fd < 0 → ∀ fuel, closeSocket fuel peer fd = ([], some false)) ∧
    (0 ≤ fd → ∀ n, (peer n).Stops → (∀ round < n, ¬(peer round).Stops) → ∀ fuel, n < fuel →
      ∃ calls, closeSocket fuel peer fd = (calls ++ [.close], some true) ∧ .close ∉ calls ∧
        calls.count .waitReadable = n + 1 ∧
        calls.count .recv = if waitReadable (peer n).select then n + 1 else n) ∧
    (0 ≤ fd → (∀ n, ¬(peer n).Stops) → ∀ fuel,
      ∃ calls, closeSocket fuel peer fd = (calls, none) ∧ .close ∉ calls ∧
        calls.count .waitReadable = fuel ∧ calls.count .recv = fuel) := by
  refine ⟨⟨fun hcloses => ?_, ?_⟩, fun hfd fuel => closeSocket_negative hfd fuel, ?_, ?_⟩
  · have hfd : 0 ≤ fd := by
      by_contra hnegative
      obtain ⟨fuel, calls, hclosed⟩ := hcloses
      rw [closeSocket_negative (by omega)] at hclosed
      cases (Prod.mk.inj hclosed).2
    exact ⟨hfd, (closes_iff_stops hfd).mp hcloses⟩
  · rintro ⟨hfd, hstops⟩
    exact (closes_iff_stops hfd).mpr hstops
  · intro hfd n hstops hgoes fuel hfuel
    refine ⟨_, closeSocket_ends hfd hgoes hstops hfuel, ?_⟩
    have hnot := close_not_mem_fullRounds n
    rw [DrainRound.calls]
    split
    · simp [hnot, count_waitReadable_fullRounds, count_recv_fullRounds]
    · simp [hnot, count_waitReadable_fullRounds, count_recv_fullRounds]
  · intro hfd hgoes fuel
    refine ⟨_, closeSocket_goes_on hfd fun round _ => hgoes round, ?_⟩
    simp [close_not_mem_fullRounds, count_waitReadable_fullRounds, count_recv_fullRounds]

/-- One byte is there to be read in every round. -/
theorem not_closes : ¬∀ (peer : Nat → DrainRound) (fd : Int), 0 ≤ fd → Closes peer fd := by
  intro hclaim
  have hcloses := hclaim (fun _ => ⟨⟨1, true, false, false⟩, 1⟩) 3 (by decide)
  obtain ⟨n, hstops⟩ := (closes_iff_stops (by decide)).mp hcloses
  rcases hstops with hunreadable | hres
  · cases hunreadable
  · exact absurd hres (by decide)

/-! ## What the peer sends -/

/-- A peer by its traffic: the bytes that were there when the draining begins, those that come
before the wait of each round, and whether its end of the connection has come by then. -/
structure Traffic where
  pending : Nat
  sends : Nat → Nat
  finished : Nat → Bool

namespace Traffic

/-- The bytes that a round finds; each round before has taken one. -/
def queued (traffic : Traffic) : Nat → Nat
  | 0 => traffic.pending + traffic.sends 0
  | round + 1 => traffic.queued round - 1 + traffic.sends (round + 1)

/-- All the bytes that have come by a round. -/
def arrived (traffic : Traffic) : Nat → Nat
  | 0 => traffic.pending + traffic.sends 0
  | round + 1 => traffic.arrived round + traffic.sends (round + 1)

/-- What the kernel answers: the end of the connection is readable and delivers no byte. -/
def answers (traffic : Traffic) (round : Nat) : DrainRound :=
  if 0 < traffic.queued round then ⟨⟨1, true, false, false⟩, 1⟩
  else if traffic.finished round then ⟨⟨1, true, false, false⟩, 0⟩
  else ⟨⟨0, false, false, false⟩, -1⟩

variable (traffic : Traffic)

theorem stops_iff_queued (round : Nat) :
    (traffic.answers round).Stops ↔ traffic.queued round = 0 := by
  unfold answers DrainRound.Stops
  split
  · next hqueued =>
      have hgoes : ¬(waitReadable ⟨1, true, false, false⟩ = false ∨ (1 : Int) ≤ 0) := by decide
      exact iff_of_false hgoes (Nat.ne_of_gt hqueued)
  · next hempty =>
      have hnone : traffic.queued round = 0 := by omega
      split
      · exact iff_of_true (Or.inr (Int.le_refl 0)) hnone
      · exact iff_of_true (Or.inl rfl) hnone

/-- A round takes one byte at most. -/
theorem arrived_le (round : Nat) : traffic.arrived round ≤ traffic.queued round + round := by
  induction round with
  | zero => exact Nat.le_refl _
  | succ round ih =>
      rw [arrived, queued]
      omega

theorem arrived_eq (round : Nat) (hgoes : ∀ earlier < round, traffic.queued earlier ≠ 0) :
    traffic.arrived round = traffic.queued round + round := by
  induction round with
  | zero => rfl
  | succ round ih =>
      have hbefore := ih fun earlier hearlier => hgoes earlier (by omega)
      have hqueued := hgoes round (Nat.lt_succ_self round)
      rw [arrived, queued]
      omega

/-- A round finds nothing exactly if by some round no more bytes have come than rounds went
before it. -/
theorem queued_empty_iff :
    (∃ round, traffic.queued round = 0) ↔ ∃ round, traffic.arrived round ≤ round := by
  constructor
  · rintro ⟨round, hempty⟩
    have hle := traffic.arrived_le round
    exact ⟨round, by omega⟩
  · rintro ⟨round, hle⟩
    by_contra hfull
    rw [not_exists] at hfull
    have heq := traffic.arrived_eq round fun earlier _ => hfull earlier
    have hqueued := hfull round
    omega

/-- The socket of a peer is closed exactly if its bytes fall behind the rounds. -/
theorem closes_iff (hfd : 0 ≤ fd) :
    Closes traffic.answers fd ↔ ∃ round, traffic.arrived round ≤ round := by
  rw [closes_iff_stops hfd, ← traffic.queued_empty_iff]
  exact exists_congr traffic.stops_iff_queued

/-- A peer that sends a limited number of bytes in all is drained. -/
theorem closes_of_limited (hfd : 0 ≤ fd) {total : Nat}
    (htotal : ∀ round, traffic.arrived round ≤ total) : Closes traffic.answers fd :=
  (traffic.closes_iff hfd).mpr ⟨total, htotal total⟩

/-- A peer that sends at least a byte in every round is not. -/
theorem not_closes_of_steady (hfd : 0 ≤ fd) (hsends : ∀ round, 0 < traffic.sends round) :
    ¬Closes traffic.answers fd := by
  rw [traffic.closes_iff hfd, not_exists]
  intro round
  have hmore : round < traffic.arrived round := by
    induction round with
    | zero =>
        have hfirst := hsends 0
        rw [arrived]
        omega
    | succ round ih =>
        have hnext := hsends (round + 1)
        rw [arrived]
        omega
  omega

end Traffic

/-! ## The members that close -/

/-- The members of `tcp_streambuf` that `close` looks at. -/
structure TcpSocket where
  fd : Int
  ssl : Bool
  ctxFdClosed : Bool := false

namespace TcpSocket

/-- `SSL_shutdown`, a second time where it returned 0, and `SSL_free`. -/
def closeSsl (socket : TcpSocket) (ret : Int) : List SocketCall :=
  if socket.ssl then
    if ret = 0 then [.sslShutdown, .sslShutdown, .sslFree] else [.sslShutdown, .sslFree]
  else []

/-- `tcp_streambuf::close()`, where the first `SSL_shutdown` returns `ret`. -/
def close (fuel : Nat) (peer : Nat → DrainRound) (ret : Int) (socket : TcpSocket) :
    List SocketCall × Option (Bool × TcpSocket) :=
  if socket.ctxFdClosed then ([], some (false, socket))
  else
    let (calls, result) := closeSocket fuel peer socket.fd
    (socket.closeSsl ret ++ calls,
      result.map fun _ => (true, { socket with ctxFdClosed := true }))

/-- It returns where there is nothing to drain or the draining ends. -/
theorem close_returns_iff (peer : Nat → DrainRound) (ret : Int) (socket : TcpSocket) :
    (∃ fuel, (socket.close fuel peer ret).2 ≠ none) ↔
      socket.ctxFdClosed = true ∨ socket.fd < 0 ∨ ∃ n, (peer n).Stops := by
  by_cases hclosed : socket.ctxFdClosed = true
  · exact iff_of_true ⟨0, by simp [close, hclosed]⟩ (Or.inl hclosed)
  by_cases hfd : socket.fd < 0
  · exact iff_of_true ⟨0, by simp [close, hclosed, closeSocket_negative hfd]⟩ (Or.inr (Or.inl hfd))
  have hvalid : 0 ≤ socket.fd := by omega
  simp only [hclosed, hfd, false_or, Bool.false_eq_true]
  constructor
  · rintro ⟨fuel, hreturns⟩
    by_contra hendless
    rw [not_exists] at hendless
    apply hreturns
    simp [close, hclosed, closeSocket_goes_on hvalid fun round _ => hendless round]
  · intro hstops
    obtain ⟨n, hstop, hgoes⟩ := exists_first_stop hstops
    refine ⟨n + 1, ?_⟩
    simp [close, hclosed, closeSocket_ends hvalid hgoes hstop (Nat.lt_succ_self n)]

/-- A socket whose `close` has returned makes no call again. -/
theorem close_again {fuel : Nat} {peer : Nat → DrainRound} {ret : Int} {socket next : TcpSocket}
    {result : Bool} (hclose : (socket.close fuel peer ret).2 = some (result, next))
    (fuel' : Nat) (peer' : Nat → DrainRound) (ret' : Int) :
    next.close fuel' peer' ret' = ([], some (false, next)) := by
  have hclosed : next.ctxFdClosed = true := by
    rw [close] at hclose
    split at hclose
    · next hbefore =>
        cases hclose
        exact hbefore
    · obtain ⟨returned, -, hnext⟩ := Option.map_eq_some_iff.mp hclose
      cases hnext
      rfl
  rw [close, if_pos hclosed]

end TcpSocket

/-- `tcp_server::close()` with the draining of its socket; the mutex is held all the while. -/
def TcpServer.closeDraining (fuel : Nat) (peer : Nat → DrainRound) (server : TcpServer) :
    List SocketCall × Option (Bool × TcpServer) :=
  if server.fdClosed then ([], some (false, server))
  else
    let (calls, result) := closeSocket fuel peer server.serverFd
    (calls, result.map fun _ => (true, { server with
      pending := []
      fdClosed := true }))

/-- On a listening socket every receive fails, so that one round is enough. -/
theorem TcpServer.closeDraining_listening (server : TcpServer)
    (hlistening : ∀ round, (peer round).res < 0) (fuel : Nat) :
    (server.closeDraining (fuel + 1) peer).2 = some server.close := by
  rw [closeDraining, TcpServer.close]
  split
  · rfl
  · have hstops : (peer 0).Stops := Or.inr (Int.le_of_lt (hlistening 0))
    rw [closeSocket_ends (Int.natCast_nonneg _) (fun _ hround => absurd hround (Nat.not_lt_zero _))
      hstops (Nat.succ_pos fuel)]
    rfl

end Iostreams
