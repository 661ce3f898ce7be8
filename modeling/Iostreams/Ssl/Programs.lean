import Iostreams.Foundation.Run
import Iostreams.Ssl.Requests

/-!
# Contexts of the C API

A program creates a context, creates, closes and destroys clients with it, and frees it,
in any order.  Each client frees the context when it is destroyed, although the program
frees it as well.

`excess` is the count less what the handles of the program will still release.  Only the
creation of clients changes it, so in the end the count is the number of `SSL` objects
that were lost less the number of clients.
-/

namespace Iostreams

/-! ## Handles and calls -/

/-- The context handle of a program. -/
inductive SslCtxHandle where
  | null
  | live
  | freed
  deriving DecidableEq, Repr

/-- What `io_ssl_create_client_ctx` meets. -/
inductive CreateCtxOutcome where
  /-- The host is null, or `SSL_CTX_new` fails. -/
  | refused
  /-- The handle cannot be allocated. -/
  | noHandle
  | created
  deriving DecidableEq, Repr

/-- What `io_tcp_client_create_ssl` meets. -/
inductive CreateSslOutcome where
  | noHost
  /-- The client cannot be allocated; the handle is for none. -/
  | noClient
  /-- The constructor throws before `SSL_new`. -/
  | unresolved
  /-- The constructor throws after `SSL_new`. -/
  | failed
  /-- The client is connected, and its handle cannot be allocated. -/
  | noHandle
  | connected
  deriving DecidableEq, Repr

/-- A client handle. -/
inductive TcpClientHandle where
  | null
  /-- A handle whose client, if any, has no context. -/
  | plain
  /-- A client with a context and its `SSL`. -/
  | open
  /-- The same after `io_tcp_client_close`. -/
  | closed
  | destroyed
  deriving DecidableEq, Repr

/-- Calls of a program. -/
inductive SslApiCall where
  | createSsl (outcome : CreateSslOutcome)
  | close (client : Nat)
  | destroy (client : Nat)
  | freeCtx
  deriving DecidableEq, Repr

/-- The handles of a program, and the calls on the context it asked for. -/
structure SslProgram where
  context : SslCtxHandle
  clients : List TcpClientHandle := []
  calls : List SslCall

/-- Whether the constructor gets to `SSL_new`. -/
def CreateSslOutcome.hasSsl : CreateSslOutcome → Bool
  | .noHost | .noClient | .unresolved => false
  | .failed | .noHandle | .connected => true

/-- The handle a program gets, with a context. -/
def CreateSslOutcome.handle : CreateSslOutcome → TcpClientHandle
  | .noHost | .unresolved | .failed | .noHandle => .null
  | .noClient => .plain
  | .connected => .open

namespace SslProgram

/-- `io_ssl_create_client_ctx` -/
def create : CreateCtxOutcome → SslProgram
  | .refused => { context := .null, calls := [] }
  | .noHandle => { context := .null, calls := [.ctxNew] }
  | .created => { context := .live, calls := [.ctxNew] }

/-- `io_tcp_client_create_ssl` with the context; a null context gives a plain client. -/
def createSsl (program : SslProgram) (outcome : CreateSslOutcome) : SslProgram :=
  if program.context = .null then
    { program with clients := program.clients ++
        [if outcome.handle = .open then .plain else outcome.handle] }
  else
    { program with
      clients := program.clients ++ [outcome.handle]
      calls := program.calls ++ if outcome.hasSsl then [.sslNew] else [] }

/-- `io_tcp_client_close`: the first close of a client frees its `SSL`. -/
def close (program : SslProgram) (client : Nat) : SslProgram :=
  match program.clients[client]? with
  | some .open =>
      { program with
        clients := program.clients.set client .closed
        calls := program.calls ++ [.sslFree] }
  | _ => program

/-- `io_tcp_client_destroy`: `~tcp_client`, then `close` unless there was one. -/
def destroy (program : SslProgram) (client : Nat) : SslProgram :=
  match program.clients[client]? with
  | some .plain => { program with clients := program.clients.set client .destroyed }
  | some .open =>
      { program with
        clients := program.clients.set client .destroyed
        calls := program.calls ++ [.ctxFree, .sslFree] }
  | some .closed =>
      { program with
        clients := program.clients.set client .destroyed
        calls := program.calls ++ [.ctxFree] }
  | _ => program

/-- `io_ssl_free_ctx` -/
def freeCtx (program : SslProgram) : SslProgram :=
  if program.context = .live then
    { program with context := .freed, calls := program.calls ++ [.ctxFree] }
  else
    program

def perform (program : SslProgram) : SslApiCall → SslProgram
  | .createSsl outcome => program.createSsl outcome
  | .close client => program.close client
  | .destroy client => program.destroy client
  | .freeCtx => program.freeCtx

/-- No freed handle is used. -/
def Legal (program : SslProgram) : SslApiCall → Prop
  | .createSsl _ | .freeCtx => program.context ≠ .freed
  | .close client | .destroy client => program.clients[client]? ≠ some .destroyed

/-- The program has freed its context and destroyed its clients. -/
def Done (program : SslProgram) : Prop :=
  program.context ≠ .live ∧ ∀ handle ∈ program.clients, handle = .null ∨ handle = .destroyed

/-- The clients a program was given with an `SSL`. -/
def connections (calls : List SslApiCall) : Nat := calls.count (.createSsl .connected)

/-- The `SSL` objects that no one can free. -/
def losses (calls : List SslApiCall) : Nat :=
  calls.count (.createSsl .failed) + calls.count (.createSsl .noHandle)

end SslProgram

/-! ## The count -/

/-- The releases that a handle still owes. -/
def TcpClientHandle.owes : TcpClientHandle → Int
  | .open => 2
  | .closed => 1
  | .null | .plain | .destroyed => 0

/-- The same of the context handle. -/
def SslCtxHandle.owes : SslCtxHandle → Int
  | .live => 1
  | .null | .freed => 0

namespace SslProgram

/-- The references beyond those that the handles of the program will release. -/
def excess (program : SslProgram) : Int :=
  (program.calls.map SslCall.change).sum - program.context.owes -
    (program.clients.map TcpClientHandle.owes).sum

theorem owes_set {clients : List TcpClientHandle} {client : Nat} {old : TcpClientHandle}
    (hold : clients[client]? = some old) (new : TcpClientHandle) :
    ((clients.set client new).map TcpClientHandle.owes).sum =
      (clients.map TcpClientHandle.owes).sum - old.owes + new.owes := by
  obtain ⟨hlt, hget⟩ := List.getElem?_eq_some_iff.mp hold
  rw [List.map_set, List.sum_set', dif_pos (by simpa using hlt), List.getElem_map, hget]
  omega

/-- Creating clients changes the excess, and nothing else does. -/
theorem excess_perform {program : SslProgram} (hcontext : program.context ≠ .null)
    (call : SslApiCall) :
    (program.perform call).context ≠ .null ∧
      (program.perform call).excess =
        program.excess + (losses [call] : Int) - (connections [call] : Int) := by
  cases call with
  | createSsl outcome =>
      refine ⟨?_, ?_⟩
      · simp only [perform, createSsl, if_neg hcontext]
        exact hcontext
      · simp only [perform, createSsl, if_neg hcontext, excess, List.map_append, List.sum_append]
        cases outcome <;> simp [CreateSslOutcome.hasSsl, CreateSslOutcome.handle, losses,
          connections, SslCall.change, TcpClientHandle.owes] <;> omega
  | close client =>
      simp only [perform, close]
      split
      · next hopen =>
          -- the release and what the handle no longer owes cancel, here and in `destroy`
          refine ⟨hcontext, ?_⟩
          simp only [excess, owes_set hopen, List.map_append, List.sum_append]
          simp [losses, connections, SslCall.change, TcpClientHandle.owes]
          omega
      · exact ⟨hcontext, by simp [losses, connections]⟩
  | destroy client =>
      simp only [perform, destroy]
      split
      · next hplain =>
          refine ⟨hcontext, ?_⟩
          simp only [excess, owes_set hplain]
          simp [losses, connections, TcpClientHandle.owes]
      · next hopen =>
          refine ⟨hcontext, ?_⟩
          simp only [excess, owes_set hopen, List.map_append, List.sum_append]
          simp [losses, connections, SslCall.change, TcpClientHandle.owes]
          omega
      · next hclosed =>
          refine ⟨hcontext, ?_⟩
          simp only [excess, owes_set hclosed, List.map_append, List.sum_append]
          simp [losses, connections, SslCall.change, TcpClientHandle.owes]
          omega
      · exact ⟨hcontext, by simp [losses, connections]⟩
  | freeCtx =>
      simp only [perform, freeCtx]
      by_cases hlive : program.context = .live
      · rw [if_pos hlive]
        refine ⟨by simp, ?_⟩
        simp [excess, hlive, losses, connections, SslCall.change, SslCtxHandle.owes]
        omega
      · rw [if_neg hlive]
        exact ⟨hcontext, by simp [losses, connections]⟩

theorem counts_cons (call : SslApiCall) (rest : List SslApiCall) :
    losses (call :: rest) = losses [call] + losses rest ∧
      connections (call :: rest) = connections [call] + connections rest := by
  constructor
  · simp only [losses, List.count_cons, List.count_nil]
    omega
  · simp only [connections, List.count_cons, List.count_nil]
    omega

theorem excess_run {program : SslProgram} (hcontext : program.context ≠ .null)
    (calls : List SslApiCall) :
    (calls.foldl perform program).context ≠ .null ∧
      (calls.foldl perform program).excess =
        program.excess + (losses calls : Int) - (connections calls : Int) := by
  -- by induction on the calls, from the program that the first of them leaves
  induction calls generalizing program with
  | nil => exact ⟨hcontext, by simp [losses, connections]⟩
  | cons call rest ih =>
      obtain ⟨hnext, hexcess⟩ := excess_perform hcontext call
      obtain ⟨hlast, hrest⟩ := ih hnext
      obtain ⟨hlosses, hconnections⟩ := counts_cons call rest
      refine ⟨hlast, ?_⟩
      rw [List.foldl_cons, hrest, hexcess, hlosses, hconnections]
      push_cast
      omega

/-- In the end the count is what was lost, less the clients that were given the context. -/
theorem total_done {calls : List SslApiCall}
    (hdone : (calls.foldl perform (create .created)).Done) :
    ((calls.foldl perform (create .created)).calls.map SslCall.change).sum =
      (losses calls : Int) - (connections calls : Int) := by
  have hlive : (create .created).context ≠ .null := by simp [create]
  obtain ⟨-, hexcess⟩ := excess_run hlive calls
  obtain ⟨hreleased, hclients⟩ := hdone
  have hcontext : (calls.foldl perform (create .created)).context.owes = 0 := by
    cases hhandle : (calls.foldl perform (create .created)).context with
    | null => rfl
    | live => exact absurd hhandle hreleased
    | freed => rfl
  have hhandles : ((calls.foldl perform (create .created)).clients.map
      TcpClientHandle.owes).sum = 0 := by
    apply List.sum_eq_zero
    intro owed howed
    obtain ⟨handle, hhandle, rfl⟩ := List.mem_map.mp howed
    rcases hclients handle hhandle with rfl | rfl <;> rfl
  have hstart : (create .created).excess = 0 := by decide
  rw [excess, hcontext, hhandles, hstart] at hexcess
  omega

/-! ## Programs without an `SSL` object -/

/-- No client has an `SSL`. -/
def Plain (program : SslProgram) : Prop := ∀ handle ∈ program.clients, handle.owes = 0

theorem Plain.getElem? {program : SslProgram} (hplain : program.Plain) {client : Nat}
    {handle : TcpClientHandle} (hhandle : program.clients[client]? = some handle) :
    handle.owes = 0 :=
  hplain handle (List.mem_of_getElem? hhandle)

theorem Plain.close {program : SslProgram} (hplain : program.Plain) (client : Nat) :
    program.close client = program := by
  unfold SslProgram.close
  split
  · next hopen => exact absurd (hplain.getElem? hopen) (by decide)
  · rfl

/-- Destroying such clients concerns no context. -/
theorem Plain.destroy {program : SslProgram} (hplain : program.Plain) (client : Nat) :
    (program.destroy client).Plain ∧ (program.destroy client).context = program.context ∧
      (program.destroy client).calls = program.calls := by
  unfold SslProgram.destroy
  split
  · refine ⟨fun handle hhandle => ?_, rfl, rfl⟩
    rcases List.mem_or_eq_of_mem_set hhandle with hold | rfl
    · exact hplain handle hold
    · rfl
  · next hopen => exact absurd (hplain.getElem? hopen) (by decide)
  · next hclosed => exact absurd (hplain.getElem? hclosed) (by decide)
  · exact ⟨hplain, rfl, rfl⟩

theorem Plain.append {program : SslProgram} (hplain : program.Plain) {handle : TcpClientHandle}
    (hhandle : handle.owes = 0) : ∀ other ∈ program.clients ++ [handle], other.owes = 0 := by
  intro other hother
  rcases List.mem_append.mp hother with hold | hnew
  · exact hplain other hold
  · rw [List.mem_singleton.mp hnew]
    exact hhandle

/-- The calls on a context that no client shares. -/
def ownCalls : SslCtxHandle → List SslCall
  | .null => []
  | .live => [.ctxNew]
  | .freed => [.ctxNew, .ctxFree]

theorem perform_plain {program : SslProgram} (hcontext : program.context ≠ .null)
    (hplain : program.Plain) (hcalls : program.calls = ownCalls program.context)
    {call : SslApiCall} (hcall : ∀ outcome, call = .createSsl outcome → outcome.hasSsl = false) :
    (program.perform call).context ≠ .null ∧ (program.perform call).Plain ∧
      (program.perform call).calls = ownCalls (program.perform call).context := by
  cases call with
  | createSsl outcome =>
      -- a client without an `SSL` calls nothing when it is created, nor later
      have hnone := hcall outcome rfl
      have howes : outcome.handle.owes = 0 := by
        cases outcome <;> first | rfl | cases hnone
      simp only [perform, createSsl, if_neg hcontext, hnone, Bool.false_eq_true, if_false,
        List.append_nil]
      exact ⟨hcontext, hplain.append howes, hcalls⟩
  | close client =>
      rw [perform, hplain.close]
      exact ⟨hcontext, hplain, hcalls⟩
  | destroy client =>
      obtain ⟨hplain', hcontext', hcalls'⟩ := hplain.destroy client
      rw [perform, hcontext', hcalls']
      exact ⟨hcontext, hplain', hcalls⟩
  | freeCtx =>
      rw [perform, freeCtx]
      by_cases hlive : program.context = .live
      · rw [if_pos hlive]
        rw [hlive] at hcalls
        exact ⟨by simp, hplain, by rw [hcalls]; rfl⟩
      · rw [if_neg hlive]
        exact ⟨hcontext, hplain, hcalls⟩

/-- Without a context nothing is ever called. -/
theorem perform_null {program : SslProgram} (hcontext : program.context = .null)
    (hplain : program.Plain) (call : SslApiCall) :
    (program.perform call).context = .null ∧ (program.perform call).Plain ∧
      (program.perform call).calls = program.calls := by
  cases call with
  | createSsl outcome =>
      rw [perform, createSsl, if_pos hcontext]
      refine ⟨hcontext, hplain.append ?_, rfl⟩
      cases outcome <;> rfl
  | close client =>
      rw [perform, hplain.close]
      exact ⟨hcontext, hplain, rfl⟩
  | destroy client =>
      obtain ⟨hplain', hcontext', hcalls'⟩ := hplain.destroy client
      exact ⟨hcontext'.trans hcontext, hplain', hcalls'⟩
  | freeCtx =>
      rw [perform, freeCtx, if_neg (by simp [hcontext])]
      exact ⟨hcontext, hplain, rfl⟩

theorem run_plain {calls : List SslApiCall}
    (hcalls : ∀ outcome, .createSsl outcome ∈ calls → outcome.hasSsl = false)
    {program : SslProgram} (hcontext : program.context ≠ .null) (hplain : program.Plain)
    (hown : program.calls = ownCalls program.context) :
    (calls.foldl perform program).context ≠ .null ∧
      (calls.foldl perform program).calls = ownCalls (calls.foldl perform program).context := by
  induction calls generalizing program with
  | nil => exact ⟨hcontext, hown⟩
  | cons call rest ih =>
      obtain ⟨hcontext', hplain', hown'⟩ := perform_plain hcontext hplain hown
        (fun outcome hcall => hcalls outcome (hcall ▸ List.mem_cons_self))
      exact ih (fun outcome hmem => hcalls outcome (List.mem_cons_of_mem _ hmem)) hcontext'
        hplain' hown'

theorem run_null (calls : List SslApiCall) {program : SslProgram}
    (hcontext : program.context = .null) (hplain : program.Plain) :
    (calls.foldl perform program).calls = program.calls := by
  induction calls generalizing program with
  | nil => rfl
  | cons call rest ih =>
      obtain ⟨hcontext', hplain', hsame⟩ := perform_null hcontext hplain call
      exact (ih hcontext' hplain').trans hsame

theorem plain_create (outcome : CreateCtxOutcome) : (create outcome).Plain := by
  cases outcome <;> exact fun _ hhandle => nomatch hhandle

/-! ## Whole programs -/

/-- The context's count settles if its handle was given to the program and no client got as far
as `SSL_new`. -/
theorem settles_of_plain {outcome : CreateCtxOutcome} {calls : List SslApiCall}
    (hdone : (calls.foldl perform (create outcome)).Done) (houtcome : outcome ≠ .noHandle)
    (hcalls : outcome = .created → ∀ o, .createSsl o ∈ calls → o.hasSsl = false) :
    Settles 0 ((calls.foldl perform (create outcome)).calls.map SslCall.change) := by
  cases outcome with
  | refused =>
      rw [run_null calls rfl (plain_create .refused)]
      exact rfl
  | noHandle => exact absurd rfl houtcome
  | created =>
      obtain ⟨hcontext, hown⟩ := run_plain (hcalls rfl) (by simp [create])
        (plain_create .created) rfl
      rw [hown]
      cases hhandle : (calls.foldl perform (create .created)).context with
      | null => exact absurd hhandle hcontext
      | live => exact absurd hhandle hdone.1
      | freed => exact (by decide)

theorem of_settles {outcome : CreateCtxOutcome} {calls : List SslApiCall}
    (hdone : (calls.foldl perform (create outcome)).Done)
    (hsettles : Settles 0 ((calls.foldl perform (create outcome)).calls.map SslCall.change)) :
    outcome ≠ .noHandle ∧ (outcome = .created → losses calls = connections calls) := by
  refine ⟨?_, ?_⟩
  · rintro rfl
    rw [run_null calls rfl (plain_create .noHandle)] at hsettles
    exact absurd hsettles (by decide)
  · rintro rfl
    -- the count ends at zero, and the handles account for all but losses and connections
    have htotal := hsettles.sum_eq
    rw [total_done hdone] at htotal
    omega

end SslProgram

/-- **Ownership of contexts.**  `restSync` balances every context exactly if no secure request
fails in the constructor of its client, and the task of `restAsync` exactly if in addition it
does not free a context that its client frees.  In the C API the count of a context settles if
no client gets as far as `SSL_new`, and only if the clients are as many as the `SSL` objects
that were lost. -/
theorem contexts_balanced_iff (run : HttpRun) (outcome : CreateCtxOutcome)
    (calls : List SslApiCall) :
    (Balanced (run.restSync {}).2.calls ↔ run.Constructs) ∧
    (Balanced (run.restAsync {}).2.calls ↔ run.Constructs ∧ run.KeepsContext) ∧
    (Foundation.EachAllowed SslProgram.perform SslProgram.Legal (SslProgram.create outcome) calls →
      (calls.foldl SslProgram.perform (SslProgram.create outcome)).Done →
      ((outcome ≠ .noHandle ∧
          (outcome = .created → ∀ o, .createSsl o ∈ calls → o.hasSsl = false)) →
        Settles 0 ((calls.foldl SslProgram.perform (SslProgram.create outcome)).calls.map
          SslCall.change)) ∧
      (Settles 0 ((calls.foldl SslProgram.perform (SslProgram.create outcome)).calls.map
          SslCall.change) →
        outcome ≠ .noHandle ∧ (outcome = .created →
          SslProgram.losses calls = SslProgram.connections calls))) := by
  refine ⟨?_, ?_, fun _ hdone => ⟨fun hcalls => ?_, SslProgram.of_settles hdone⟩⟩
  · obtain ⟨calls, hextends, hiff⟩ := run.restSync_extends {}
    rw [hextends.calls_eq]
    exact hiff
  · obtain ⟨calls, hextends, hiff⟩ := run.restAsync_extends {}
    rw [hextends.calls_eq]
    exact hiff
  · exact SslProgram.settles_of_plain hdone hcalls.1 hcalls.2

/-- A plain request, and a program whose one client does not resolve its host. -/
theorem contexts_balanced_iff_plain :
    Balanced ((HttpRun.answered false).restAsync {}).2.calls ∧
      Settles 0 (([.createSsl .unresolved, .freeCtx].foldl SslProgram.perform
        (SslProgram.create .created)).calls.map SslCall.change) := by
  obtain ⟨-, hasync, hprogram⟩ := contexts_balanced_iff (.answered false) .created
    [.createSsl .unresolved, .freeCtx]
  have hlive : (SslProgram.create .created).context ≠ .freed := by decide
  refine ⟨hasync.mpr ⟨trivial, rfl⟩, (hprogram ?_ ?_).1 ⟨by decide, fun _ o ho => ?_⟩⟩
  · exact ⟨hlive, hlive, trivial⟩
  · exact ⟨by decide, by decide⟩
  · have hunresolved : o = .unresolved := by simpa using ho
    rw [hunresolved]
    rfl

/-- A secure request that is answered, in the task of `restAsync`; and a program with one client
that destroys it and frees the context. -/
theorem not_contexts_balanced :
    ¬Balanced ((HttpRun.answered true).restAsync {}).2.calls ∧
      ¬Settles 0 (([.createSsl .connected, .destroy 0, .freeCtx].foldl SslProgram.perform
        (SslProgram.create .created)).calls.map SslCall.change) := by
  constructor
  · intro hbalanced
    exact absurd (hbalanced 0) (by decide)
  · decide

end Iostreams
