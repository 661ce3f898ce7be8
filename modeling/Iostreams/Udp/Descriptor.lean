import Iostreams.Udp.Streambuf
import Mathlib.Data.List.Nodup

/-!
# The descriptor of a UDP server

A server gives its descriptor to every stream it creates, and each of them closes it when it is
destroyed; the server itself has no destructor.  A stream is destroyed with the last reference to
it, be it the one in `clientStreams`, which goes with the server, or one that the program holds.

`DescriptorUse` keeps who refers to the streams, and of every `close` whether the server or
another stream was still there to use the descriptor.
-/

namespace Iostreams

/-- The references to the stream of a peer. -/
structure StreamRefs where
  peer : SockAddr
  /-- The one in `clientStreams`. -/
  registered : Bool := true
  /-- Those of the program. -/
  handles : Nat
  deriving DecidableEq, Repr

namespace StreamRefs

def live (refs : StreamRefs) : Bool := refs.registered || 0 < refs.handles

def addHandle (refs : StreamRefs) : StreamRefs := { refs with handles := refs.handles + 1 }

/-- Only what the program holds can be copied. -/
def copyHandle (refs : StreamRefs) : StreamRefs :=
  if 0 < refs.handles then refs.addHandle else refs

def dropHandle (refs : StreamRefs) : StreamRefs := { refs with handles := refs.handles - 1 }

def unregister (refs : StreamRefs) : StreamRefs := { refs with registered := false }

theorem live_iff {refs : StreamRefs} :
    refs.live = true ↔ refs.registered = true ∨ 0 < refs.handles := by
  simp [live]

theorem live_copyHandle {refs : StreamRefs} (hlive : refs.copyHandle.live = true) :
    refs.live = true := by
  unfold copyHandle at hlive
  split at hlive
  · next hhandles => exact live_iff.mpr (Or.inr hhandles)
  · exact hlive

theorem live_dropHandle {refs : StreamRefs} (hlive : refs.dropHandle.live = true) :
    refs.live = true := by
  rw [live_iff] at hlive ⊢
  exact hlive.imp_right fun hhandles => Nat.lt_of_lt_of_le hhandles (Nat.sub_le refs.handles 1)

theorem live_unregister {refs : StreamRefs} (hlive : refs.unregister.live = true) :
    refs.live = true :=
  live_iff.mpr (Or.inr ((live_iff.mp hlive).resolve_left Bool.false_ne_true))

theorem live_of_registered {refs : StreamRefs} (hregistered : refs.registered = true) :
    refs.live = true :=
  live_iff.mpr (Or.inl hregistered)

theorem copyHandle_frame (refs : StreamRefs) :
    refs.copyHandle.peer = refs.peer ∧ refs.copyHandle.registered = refs.registered := by
  unfold copyHandle
  split <;> exact ⟨rfl, rfl⟩

end StreamRefs

structure DescriptorUse where
  serverAlive : Bool := true
  clients : List StreamRefs := []
  /-- Of every `close(fd)`, whether something could still use the descriptor. -/
  closes : List Bool := []

/-- What a program does with a server and the streams it was given. -/
inductive DescriptorEvent where
  /-- A datagram of the peer is received, and its stream returned. -/
  | receive (peer : SockAddr)
  /-- `recvfrom` fails, and `receiveOne` throws when it has registered the residual address. -/
  | receiveFailing (uninitialized : SockAddr)
  | copy (client : Nat)
  | release (client : Nat)
  | destroyServer
  deriving DecidableEq

/-- The address under which an event registers a stream. -/
def DescriptorEvent.address : DescriptorEvent → Option SockAddr
  | .receive peer => some peer
  | .receiveFailing uninitialized => some uninitialized
  | _ => none

namespace DescriptorUse

def inUse (state : DescriptorUse) : Bool := state.serverAlive || state.clients.any StreamRefs.live

/-- The references to a stream change; the last one that goes takes the stream with it, and
`~udp_streambuf` closes the descriptor. -/
def update (state : DescriptorUse) (client : Nat) (change : StreamRefs → StreamRefs) :
    DescriptorUse :=
  let next := { state with clients := state.clients.modify client change }
  match state.clients[client]? with
  | none => next
  | some old =>
      if old.live && !(change old).live then
        { next with closes := state.closes ++ [next.inUse] }
      else next

/-- `clientStreams[key]`, created if there is none; `change` is what the call does with it. -/
def lookUp (state : DescriptorUse) (peer : SockAddr) (change : StreamRefs → StreamRefs) :
    DescriptorUse :=
  match state.clients.findIdx? (·.peer = peer) with
  | some client => state.update client change
  | none => { state with clients := state.clients ++ [change { peer, handles := 0 }] }

/-- The map goes with the server, one reference after the other. -/
def destroyServer (state : DescriptorUse) : DescriptorUse :=
  (List.range state.clients.length).foldl (fun state client => state.update client .unregister)
    { state with serverAlive := false }

def perform (state : DescriptorUse) : DescriptorEvent → DescriptorUse
  | .receive peer => if state.serverAlive then state.lookUp peer .addHandle else state
  | .receiveFailing uninitialized =>
      if state.serverAlive then state.lookUp uninitialized id else state
  | .copy client => state.update client .copyHandle
  | .release client => state.update client .dropHandle
  | .destroyServer => if state.serverAlive then state.destroyServer else state

/-- The server and all references to its streams are gone. -/
def Done (state : DescriptorUse) : Prop :=
  state.serverAlive = false ∧ ∀ refs ∈ state.clients, refs.live = false

/-- The descriptor was closed once, when nothing could use it any more. -/
def ClosedOnce (state : DescriptorUse) : Prop := state.closes = [false]

/-- The addresses under which streams are registered, as long as the server is there. -/
def registers (events : List DescriptorEvent) : List SockAddr :=
  (events.takeWhile (· ≠ .destroyServer)).filterMap DescriptorEvent.address

/-! ## Invariants -/

/-- Every stream that is gone has closed the descriptor, and one that is alone did so when
nothing could use it. -/
structure Accounted (state : DescriptorUse) : Prop where
  closes_eq : state.closes.length + state.clients.countP StreamRefs.live = state.clients.length
  unused : state.clients.length ≤ 1 → ∀ used ∈ state.closes, used = false

/-- The references in the map are there as long as the server is, one for each address. -/
structure Registered (state : DescriptorUse) : Prop where
  registered : ∀ refs ∈ state.clients, refs.registered = state.serverAlive
  nodup : (state.clients.map StreamRefs.peer).Nodup

variable {state : DescriptorUse}

@[simp] theorem clients_update (client : Nat) (change : StreamRefs → StreamRefs) :
    (state.update client change).clients = state.clients.modify client change := by
  unfold update
  cases state.clients[client]? with
  | none => rfl
  | some old => simp only; split <;> rfl

@[simp] theorem serverAlive_update (client : Nat) (change : StreamRefs → StreamRefs) :
    (state.update client change).serverAlive = state.serverAlive := by
  unfold update
  cases state.clients[client]? with
  | none => rfl
  | some old => simp only; split <;> rfl

/-- The other streams are as they were. -/
theorem modify_eq {client : Nat} {old : StreamRefs} (hold : state.clients[client]? = some old)
    (change : StreamRefs → StreamRefs) :
    ∃ front back, state.clients = front ++ old :: back ∧
      state.clients.modify client change = front ++ change old :: back := by
  obtain ⟨hlt, hget⟩ := List.getElem?_eq_some_iff.mp hold
  refine ⟨state.clients.take client, state.clients.drop (client + 1), ?_, ?_⟩
  · rw [← hget, List.getElem_cons_drop, List.take_append_drop]
  · rw [List.modify_eq_take_cons_drop hlt, hget]

/-- A stream that goes closes the descriptor, and while there is a server no stream goes. -/
theorem Accounted.update (haccounted : state.Accounted) (client : Nat)
    {change : StreamRefs → StreamRefs}
    (hkeeps : ∀ old ∈ state.clients, (change old).live = true → old.live = true)
    (hserver : state.serverAlive = true → ∀ old ∈ state.clients, (change old).live = true) :
    (state.update client change).Accounted := by
  have hcloses := haccounted.closes_eq
  have hunused := haccounted.unused
  unfold DescriptorUse.update
  cases hold : state.clients[client]? with
  | none =>
      have hsame : state.clients.modify client change = state.clients :=
        List.modify_eq_self (List.getElem?_eq_none_iff.mp hold)
      simp only [hsame]
      exact haccounted
  | some old =>
      obtain ⟨front, back, hclients, hmodify⟩ := modify_eq hold change
      have hmem : old ∈ state.clients := List.mem_of_getElem? hold
      have hkept := hkeeps old hmem
      simp only [hmodify]
      rw [hclients, List.countP_append, List.countP_cons, List.length_append,
        List.length_cons] at hcloses
      by_cases hgoes : (old.live && !(change old).live) = true
      · rw [if_pos hgoes]
        rw [Bool.and_eq_true, Bool.not_eq_true'] at hgoes
        constructor
        · simp only [List.countP_append, List.countP_cons, List.length_append, List.length_cons,
            List.length_nil, hgoes.1, hgoes.2, if_true, Bool.false_eq_true, if_false] at hcloses ⊢
          omega
        · -- the only stream goes, and the server has gone before
          intro hone used hused
          rw [List.length_append, List.length_cons] at hone
          obtain rfl : front = [] := List.length_eq_zero_iff.mp (by omega)
          obtain rfl : back = [] := List.length_eq_zero_iff.mp (by omega)
          rcases List.mem_append.mp hused with hbefore | hnew
          · exact hunused (by rw [hclients]; exact Nat.le_refl 1) used hbefore
          · rw [List.mem_singleton.mp hnew]
            cases halive : state.serverAlive with
            | true =>
                have hlive := hserver halive old hmem
                rw [hgoes.2] at hlive
                cases hlive
            | false => simp [inUse, hgoes.2]
      · rw [if_neg hgoes]
        have hsame : (change old).live = old.live := by
          cases hlive : (change old).live with
          | true => exact (hkept hlive).symm
          | false =>
              cases hbefore : old.live with
              | true => simp [hlive, hbefore] at hgoes
              | false => rfl
        constructor
        · rw [List.countP_append, List.countP_cons, List.length_append, List.length_cons, hsame]
          exact hcloses
        · intro hone
          rw [List.length_append, List.length_cons] at hone
          apply hunused
          rw [hclients, List.length_append, List.length_cons]
          exact hone

theorem map_peer_update (client : Nat) {change : StreamRefs → StreamRefs}
    (hpeer : ∀ refs, (change refs).peer = refs.peer) :
    (state.update client change).clients.map StreamRefs.peer =
      state.clients.map StreamRefs.peer := by
  rw [clients_update]
  cases hold : state.clients[client]? with
  | none => rw [List.modify_eq_self (List.getElem?_eq_none_iff.mp hold)]
  | some old =>
      obtain ⟨front, back, hclients, hmodify⟩ := modify_eq hold change
      rw [hmodify, hclients, List.map_append, List.map_append, List.map_cons, List.map_cons, hpeer]

theorem Registered.update (hregistered : state.Registered) (client : Nat)
    {change : StreamRefs → StreamRefs}
    (hframe : ∀ refs, (change refs).peer = refs.peer ∧
      (change refs).registered = refs.registered) :
    (state.update client change).Registered := by
  constructor
  · intro refs hrefs
    rw [clients_update] at hrefs
    rw [serverAlive_update]
    cases hold : state.clients[client]? with
    | none =>
        rw [List.modify_eq_self (List.getElem?_eq_none_iff.mp hold)] at hrefs
        exact hregistered.registered refs hrefs
    | some old =>
        obtain ⟨front, back, hclients, hmodify⟩ := modify_eq hold change
        have hall := hregistered.registered
        rw [hclients, List.forall_mem_append, List.forall_mem_cons] at hall
        rw [hmodify, List.mem_append, List.mem_cons] at hrefs
        rcases hrefs with hfront | rfl | hback
        · exact hall.1 refs hfront
        · exact (hframe old).2.trans hall.2.1
        · exact hall.2.2 refs hback
  · rw [map_peer_update client fun refs => (hframe refs).1]
    exact hregistered.nodup

/-- A call that looks up an address changes one stream of a server, or adds one. -/
theorem Accounted.lookUp (haccounted : state.Accounted) (hregistered : state.Registered)
    (halive : state.serverAlive = true) (peer : SockAddr) {change : StreamRefs → StreamRefs}
    (hframe : ∀ refs, (change refs).peer = refs.peer ∧
      (change refs).registered = refs.registered) :
    (state.lookUp peer change).Accounted := by
  have hlive : ∀ old ∈ state.clients, old.registered = true := fun old hold =>
    (hregistered.registered old hold).trans halive
  unfold DescriptorUse.lookUp
  cases state.clients.findIdx? (·.peer = peer) with
  | some client =>
      apply haccounted.update client
      · intro old hold _
        exact StreamRefs.live_of_registered (hlive old hold)
      · intro _ old hold
        exact StreamRefs.live_of_registered ((hframe old).2.trans (hlive old hold))
  | none =>
      have hnew : (change { peer, handles := 0 }).live = true :=
        StreamRefs.live_of_registered (hframe _).2
      have hcloses := haccounted.closes_eq
      constructor
      · simp only [List.countP_append, List.countP_singleton, List.length_append,
          List.length_singleton, hnew, if_true]
        omega
      · intro hone
        apply haccounted.unused
        rw [List.length_append, List.length_singleton] at hone
        omega

theorem mem_peers_lookUp (peer : SockAddr) {change : StreamRefs → StreamRefs}
    (hpeer : ∀ refs, (change refs).peer = refs.peer) (other : SockAddr) :
    other ∈ (state.lookUp peer change).clients.map StreamRefs.peer ↔
      other = peer ∨ other ∈ state.clients.map StreamRefs.peer := by
  unfold lookUp
  cases hfind : state.clients.findIdx? (·.peer = peer) with
  | some client =>
      obtain ⟨hlt, hfound, -⟩ := List.findIdx?_eq_some_iff_getElem.mp hfind
      have hmem : peer ∈ state.clients.map StreamRefs.peer :=
        List.mem_map.mpr ⟨_, List.getElem_mem hlt, of_decide_eq_true hfound⟩
      simp only [map_peer_update client hpeer]
      exact ⟨Or.inr, fun hother => hother.elim (fun hsame => hsame ▸ hmem) id⟩
  | none =>
      rw [List.map_append, List.mem_append, List.map_singleton, List.mem_singleton, hpeer]
      exact or_comm

theorem Registered.lookUp (hregistered : state.Registered)
    (halive : state.serverAlive = true) (peer : SockAddr) {change : StreamRefs → StreamRefs}
    (hframe : ∀ refs, (change refs).peer = refs.peer ∧
      (change refs).registered = refs.registered) :
    (state.lookUp peer change).Registered := by
  unfold DescriptorUse.lookUp
  cases hfind : state.clients.findIdx? (·.peer = peer) with
  | some client => exact hregistered.update client hframe
  | none =>
      have hfresh : peer ∉ state.clients.map StreamRefs.peer := by
        intro hmem
        obtain ⟨refs, hrefs, hpeer⟩ := List.mem_map.mp hmem
        have hnot := List.findIdx?_eq_none_iff.mp hfind refs hrefs
        rw [decide_eq_false_iff_not] at hnot
        exact hnot hpeer
      constructor
      · intro refs hrefs
        rcases List.mem_append.mp hrefs with hold | hnew
        · exact hregistered.registered refs hold
        · rw [List.mem_singleton.mp hnew]
          exact (hframe _).2.trans halive.symm
      · rw [List.map_append, List.map_singleton, (hframe _).1, ← List.concat_eq_append]
        exact List.Nodup.concat hfresh hregistered.nodup

/-! ## The end of the server -/

/-- The first streams have lost their reference in the map. -/
theorem getElem?_unregisterFirst (count : Nat) (client : Nat) :
    ((List.range count).foldl (fun state client => state.update client .unregister)
        state).clients[client]? =
      (state.clients[client]?).map fun refs =>
        if client < count then refs.unregister else refs := by
  induction count with
  | zero => simp
  | succ count ih =>
      rw [List.range_succ, List.foldl_append, List.foldl_cons, List.foldl_nil, clients_update,
        List.getElem?_modify, ih]
      cases state.clients[client]? with
      | none => rfl
      | some refs =>
          simp only [Option.map_some, Option.map_eq_map]
          by_cases hlast : count = client
          · subst hlast
            rw [if_pos rfl, if_neg (Nat.lt_irrefl count), if_pos (Nat.lt_succ_self count)]
          · have hlt : client < count + 1 ↔ client < count := by omega
            simp only [if_neg hlast, hlt]

theorem serverAlive_unregisterFirst (clients : List Nat) :
    (clients.foldl (fun state client => state.update client .unregister) state).serverAlive =
      state.serverAlive := by
  induction clients generalizing state with
  | nil => rfl
  | cons client clients ih => exact ih.trans (serverAlive_update client _)

theorem peers_unregisterFirst (clients : List Nat) :
    (clients.foldl (fun state client => state.update client .unregister)
        state).clients.map StreamRefs.peer = state.clients.map StreamRefs.peer := by
  induction clients generalizing state with
  | nil => rfl
  | cons client clients ih => exact ih.trans (map_peer_update client fun _ => rfl)

theorem Accounted.destroyServer (haccounted : state.Accounted) :
    state.destroyServer.Accounted := by
  have hgone : ∀ (clients : List Nat) (later : DescriptorUse), later.Accounted →
      later.serverAlive = false →
      (clients.foldl (fun state client => state.update client .unregister) later).Accounted := by
    intro clients
    induction clients with
    | nil => exact fun later hlater _ => hlater
    | cons client clients ih =>
        intro later hlater hdead
        apply ih
        · apply hlater.update client
          · exact fun old _ hlive => StreamRefs.live_unregister hlive
          · intro halive
            rw [hdead] at halive
            cases halive
        · rw [serverAlive_update, hdead]
  exact hgone _ _ ⟨haccounted.closes_eq, haccounted.unused⟩ rfl

theorem serverAlive_destroyServer : state.destroyServer.serverAlive = false :=
  serverAlive_unregisterFirst _

theorem Registered.destroyServer (hregistered : state.Registered) :
    state.destroyServer.Registered := by
  constructor
  · intro refs hrefs
    rw [serverAlive_destroyServer]
    obtain ⟨client, hlt, hget⟩ := List.mem_iff_getElem.mp hrefs
    have hlook := List.getElem?_eq_getElem hlt
    rw [hget, DescriptorUse.destroyServer, getElem?_unregisterFirst] at hlook
    obtain ⟨old, hold, hold'⟩ := Option.map_eq_some_iff.mp hlook
    have hbefore := (List.getElem?_eq_some_iff.mp hold).1
    rw [if_pos hbefore] at hold'
    rw [← hold']
    rfl
  · have hpeers : state.destroyServer.clients.map StreamRefs.peer =
        state.clients.map StreamRefs.peer := peers_unregisterFirst _
    rw [hpeers]
    exact hregistered.nodup

/-! ## Runs -/

/-- Every event keeps the invariants. -/
theorem invariants_perform (haccounted : state.Accounted) (hregistered : state.Registered)
    (event : DescriptorEvent) :
    (state.perform event).Accounted ∧ (state.perform event).Registered := by
  cases event with
  | receive peer =>
      by_cases halive : state.serverAlive = true
      · simp only [perform, if_pos halive]
        exact ⟨haccounted.lookUp hregistered halive peer fun _ => ⟨rfl, rfl⟩,
          hregistered.lookUp halive peer fun _ => ⟨rfl, rfl⟩⟩
      · simp only [perform, if_neg halive]
        exact ⟨haccounted, hregistered⟩
  | receiveFailing uninitialized =>
      by_cases halive : state.serverAlive = true
      · simp only [perform, if_pos halive]
        exact ⟨haccounted.lookUp hregistered halive uninitialized fun _ => ⟨rfl, rfl⟩,
          hregistered.lookUp halive uninitialized fun _ => ⟨rfl, rfl⟩⟩
      · simp only [perform, if_neg halive]
        exact ⟨haccounted, hregistered⟩
  | copy client =>
      refine ⟨haccounted.update client (fun old _ => StreamRefs.live_copyHandle) ?_,
        hregistered.update client StreamRefs.copyHandle_frame⟩
      intro halive old hold
      apply StreamRefs.live_of_registered
      rw [(StreamRefs.copyHandle_frame old).2, hregistered.registered old hold, halive]
  | release client =>
      refine ⟨haccounted.update client (fun old _ => StreamRefs.live_dropHandle) ?_,
        hregistered.update client fun _ => ⟨rfl, rfl⟩⟩
      intro halive old hold
      exact StreamRefs.live_of_registered ((hregistered.registered old hold).trans halive)
  | destroyServer =>
      by_cases halive : state.serverAlive = true
      · simp only [perform, if_pos halive]
        exact ⟨haccounted.destroyServer, hregistered.destroyServer⟩
      · simp only [perform, if_neg halive]
        exact ⟨haccounted, hregistered⟩

theorem serverAlive_lookUp (peer : SockAddr) (change : StreamRefs → StreamRefs) :
    (state.lookUp peer change).serverAlive = state.serverAlive := by
  unfold lookUp
  cases state.clients.findIdx? (·.peer = peer) with
  | some client => exact serverAlive_update client change
  | none => rfl

theorem serverAlive_perform (event : DescriptorEvent) :
    (state.perform event).serverAlive = true ↔
      state.serverAlive = true ∧ event ≠ .destroyServer := by
  have hclients : ∀ later : DescriptorUse, later.serverAlive = state.serverAlive →
      event ≠ .destroyServer → (later.serverAlive = true ↔
        state.serverAlive = true ∧ event ≠ .destroyServer) := by
    intro later hsame hother
    rw [hsame]
    exact (and_iff_left hother).symm
  cases event with
  | receive peer =>
      apply hclients _ _ nofun
      rw [perform]
      split
      · exact serverAlive_lookUp _ _
      · rfl
  | receiveFailing uninitialized =>
      apply hclients _ _ nofun
      rw [perform]
      split
      · exact serverAlive_lookUp _ _
      · rfl
  | copy client => exact hclients _ (serverAlive_update client _) nofun
  | release client => exact hclients _ (serverAlive_update client _) nofun
  | destroyServer =>
      refine iff_of_false ?_ fun hother => hother.2 rfl
      rw [perform]
      split
      · rw [serverAlive_destroyServer]
        exact Bool.false_ne_true
      · assumption

theorem mem_peers_perform (event : DescriptorEvent) (peer : SockAddr) :
    peer ∈ (state.perform event).clients.map StreamRefs.peer ↔
      (state.serverAlive = true ∧ event.address = some peer) ∨
        peer ∈ state.clients.map StreamRefs.peer := by
  -- what looks up an address, and what does not
  have hregisters : ∀ (other : SockAddr) (change : StreamRefs → StreamRefs),
      (∀ refs, (change refs).peer = refs.peer) →
      (peer ∈ (if state.serverAlive then state.lookUp other change else state).clients.map
          StreamRefs.peer ↔
        (state.serverAlive = true ∧ some other = some peer) ∨
          peer ∈ state.clients.map StreamRefs.peer) := by
    intro other change hpeer
    by_cases halive : state.serverAlive = true
    · rw [if_pos halive, mem_peers_lookUp other hpeer, and_iff_right halive, Option.some.injEq,
        eq_comm]
    · rw [if_neg halive]
      exact (or_iff_right fun hserver => halive hserver.1).symm
  have hkeeps : ∀ later : DescriptorUse,
      later.clients.map StreamRefs.peer = state.clients.map StreamRefs.peer →
      event.address = none → (peer ∈ later.clients.map StreamRefs.peer ↔
        (state.serverAlive = true ∧ event.address = some peer) ∨
          peer ∈ state.clients.map StreamRefs.peer) := by
    intro later hsame haddress
    rw [hsame, haddress]
    exact (or_iff_right fun hnone => nomatch hnone.2).symm
  cases event with
  | receive other => exact hregisters other .addHandle fun _ => rfl
  | receiveFailing other => exact hregisters other id fun _ => rfl
  | copy client =>
      exact hkeeps _ (map_peer_update client fun refs => (StreamRefs.copyHandle_frame refs).1) rfl
  | release client => exact hkeeps _ (map_peer_update client fun _ => rfl) rfl
  | destroyServer =>
      apply hkeeps _ _ rfl
      rw [perform]
      split
      · exact peers_unregisterFirst _
      · rfl

/-- The streams of a run are those that its calls of `receiveOne` registered. -/
theorem mem_peers_run (events : List DescriptorEvent) (peer : SockAddr) :
    peer ∈ (events.foldl perform state).clients.map StreamRefs.peer ↔
      (state.serverAlive = true ∧ peer ∈ registers events) ∨
        peer ∈ state.clients.map StreamRefs.peer := by
  induction events generalizing state with
  | nil => simp [registers]
  | cons event events ih =>
      have hregisters : peer ∈ registers (event :: events) ↔
          event.address = some peer ∨ (event ≠ .destroyServer ∧ peer ∈ registers events) := by
        by_cases hdestroys : event = .destroyServer
        · subst hdestroys
          simp [registers, DescriptorEvent.address]
        · rw [registers, List.takeWhile_cons, if_pos (decide_eq_true hdestroys),
            and_iff_right hdestroys, registers]
          cases haddress : event.address with
          | none => simp [haddress]
          | some other => simp [haddress, eq_comm]
      rw [List.foldl_cons, ih, serverAlive_perform, mem_peers_perform, hregisters]
      tauto

/-- One address was registered exactly if there is one stream. -/
theorem length_eq_one_iff (hregistered : state.Registered) {addresses : List SockAddr}
    (hpeers : ∀ peer, peer ∈ state.clients.map StreamRefs.peer ↔ peer ∈ addresses) :
    state.clients.length = 1 ↔ ∃ peer, ∀ other, other ∈ addresses ↔ other = peer := by
  rw [← List.length_map (f := StreamRefs.peer)]
  constructor
  · intro hlength
    obtain ⟨peer, hpeer⟩ := List.length_eq_one_iff.mp hlength
    refine ⟨peer, fun other => ?_⟩
    rw [← hpeers, hpeer, List.mem_singleton]
  · rintro ⟨peer, hpeer⟩
    have hsame : state.clients.map StreamRefs.peer = [peer] := by
      apply List.perm_singleton.mp
      apply (List.perm_ext_iff_of_nodup hregistered.nodup (List.nodup_singleton peer)).mpr
      intro other
      rw [hpeers, hpeer, List.mem_singleton]
    rw [hsame]
    rfl

/-- **The descriptor of a server.**  When the server and all references to its streams are gone, in
whatever order they went, the descriptor was closed once, when nothing could use it any more,
exactly if `receiveOne` registered streams under one address. -/
theorem closedOnce_iff (events : List DescriptorEvent) (hdone : (events.foldl perform {}).Done) :
    (events.foldl perform {}).ClosedOnce ↔
      ∃ peer, ∀ other, other ∈ registers events ↔ other = peer := by
  have hstart : Accounted {} ∧ Registered {} := by
    refine ⟨⟨rfl, fun _ used hused => nomatch hused⟩, ?_, List.nodup_nil⟩
    intro refs hrefs
    cases hrefs
  obtain ⟨haccounted, hregistered⟩ : (events.foldl perform {}).Accounted ∧
      (events.foldl perform {}).Registered :=
    List.foldlRecOn (motive := fun state => state.Accounted ∧ state.Registered) events perform
      hstart fun _ hstate event _ => invariants_perform hstate.1 hstate.2 event
  have hpeers : ∀ peer, peer ∈ (events.foldl perform {}).clients.map StreamRefs.peer ↔
      peer ∈ registers events := by
    intro peer
    rw [mem_peers_run]
    simp
  rw [← length_eq_one_iff hregistered hpeers]
  have hnone : (events.foldl perform {}).clients.countP StreamRefs.live = 0 := by
    apply List.countP_eq_zero.mpr
    intro refs hrefs
    rw [hdone.2 refs hrefs]
    exact Bool.false_ne_true
  have hcloses := haccounted.closes_eq
  rw [hnone, Nat.add_zero] at hcloses
  constructor
  · intro honce
    rw [← hcloses, honce]
    rfl
  · intro hlength
    rw [hlength] at hcloses
    obtain ⟨used, hused⟩ := List.length_eq_one_iff.mp hcloses
    have hunused := haccounted.unused (Nat.le_of_eq hlength) used
      (by rw [hused]; exact List.mem_singleton_self used)
    rw [ClosedOnce, hused, hunused]

/-- One peer, whose stream outlives the server. -/
theorem closedOnce_iff_one :
    let events := [.receive ⟨1, 10⟩, .destroyServer, .release 0]
    (events.foldl perform {}).ClosedOnce ↔
      ∃ peer, ∀ other, other ∈ registers events ↔ other = peer :=
  closedOnce_iff _ (by unfold Done; decide)

/-- Without a datagram the descriptor is never closed, and with two peers it is closed under the
stream of the second. -/
theorem not_closedOnce :
    ([.destroyServer].foldl perform {}).Done ∧ ([.destroyServer].foldl perform {}).closes = [] ∧
      ¬([.destroyServer].foldl perform {}).ClosedOnce ∧
      let final := [.receive ⟨1, 10⟩, .receive ⟨2, 20⟩, .destroyServer, .release 0,
        .release 1].foldl perform {}
      final.Done ∧ final.closes = [true, false] ∧ ¬final.ClosedOnce := by
  unfold Done ClosedOnce
  decide

end DescriptorUse
end Iostreams
