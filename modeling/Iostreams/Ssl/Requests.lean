import Iostreams.Ssl.References

/-!
# Contexts of HTTP requests

`restSync` and the task of `restAsync` create a context for a secure URI and give it to
a `tcp_client`, which frees it when it is destroyed.  What the network does to each
request of a chain of redirections is their input.

The calls of a request lie around those of the requests it is redirected to, so they are
balanced together exactly if each is (`balanced_around_iff`).  The task frees its context
once more, and a constructor that throws frees nothing.
-/

namespace Iostreams

/-! ## The client -/

namespace SslLedger

/-- A call on a context, if there is one. -/
def record (l : SslLedger) (ctx : Option Nat) (call : SslCall) : SslLedger :=
  match ctx with
  | none => l
  | some ctx => { l with calls := l.calls ++ [(ctx, call)] }

/-- `ssl_factory::createClient`, for a secure URI. -/
def createClient (l : SslLedger) (secure : Bool) : Option Nat × SslLedger :=
  if secure then
    (some l.contexts, { l with contexts := l.contexts + 1 }.record (some l.contexts) .ctxNew)
  else
    (none, l)

/-- `SSL_new` in `tcp_client::connect` -/
def sslNew (l : SslLedger) (ctx : Option Nat) : SslLedger := l.record ctx .sslNew

/-- `~tcp_client`, then `tcp_streambuf::close` through the destructors of its bases. -/
def destroyClient (l : SslLedger) (ctx : Option Nat) : SslLedger :=
  (l.record ctx .ctxFree).record ctx .sslFree

/-- The scope of a `tcp_client` that connected; the body returns or throws. -/
def withClient (secure : Bool) (body : Option Nat → SslLedger → Bool × SslLedger)
    (l : SslLedger) : Bool × SslLedger :=
  let (ctx, l) := l.createClient secure
  let (returned, l) := body ctx (l.sslNew ctx)
  (returned, l.destroyClient ctx)

end SslLedger

/-! ## Requests -/

/-- What a request meets. -/
inductive HttpRun where
  /-- `extractUri` throws. -/
  | invalid
  /-- `ssl_factory::createClient` throws. -/
  | refused
  /-- The constructor throws before `SSL_new`: the host is not resolved. -/
  | unresolved (secure : Bool)
  /-- The constructor throws later. -/
  | failed (secure : Bool)
  /-- The request is sent or its response is read with an exception. -/
  | broken (secure : Bool)
  | answered (secure : Bool)
  /-- The response is a redirection, and the next request meets this. -/
  | redirected (secure : Bool) (next : HttpRun)
  deriving Repr

namespace HttpRun

open SslLedger

/-- `restSync`: whether it returns a response. -/
def restSync : HttpRun → SslLedger → Bool × SslLedger
  | .invalid, l => (false, l)
  | .refused, l => (false, l)
  | .unresolved secure, l => (false, (l.createClient secure).2)
  | .failed secure, l =>
      let (ctx, l) := l.createClient secure
      (false, l.sslNew ctx)
  | .broken secure, l => withClient secure (fun _ l => (false, l)) l
  | .answered secure, l => withClient secure (fun _ l => (true, l)) l
  | .redirected secure next, l => withClient secure (fun _ l => restSync next l) l

/-- The task of `restAsync`: like `restSync`, and `SSL_CTX_free` before it returns. -/
def restAsync : HttpRun → SslLedger → Bool × SslLedger
  | .answered secure, l => withClient secure (fun ctx l => (true, l.record ctx .ctxFree)) l
  | .redirected secure next, l =>
      withClient secure (fun ctx l =>
        match restSync next l with
        | (true, l) => (true, l.record ctx .ctxFree)
        | (false, l) => (false, l)) l
  | other, l => restSync other l

/-- No secure request of the chain fails in the constructor of its client. -/
def Constructs : HttpRun → Prop
  | .unresolved secure | .failed secure => secure = false
  | .redirected _ next => next.Constructs
  | _ => True

/-- The chain ends with an exception. -/
def Throws : HttpRun → Prop
  | .answered _ => False
  | .redirected _ next => next.Throws
  | _ => True

/-- The task does not get to its `SSL_CTX_free` with a context.  An exception passes by it; it is
followed to the end of the task, and out of the thread of the task it is `std::terminate`. -/
def KeepsContext : HttpRun → Prop
  | .answered secure => secure = false
  | .redirected secure next => secure = false ∨ next.Throws
  | _ => True

end HttpRun

/-! ## Scopes -/

/-- All calls are on later contexts. -/
def OnLater (first : Nat) (calls : List (Nat × SslCall)) : Prop := ∀ call ∈ calls, first ≤ call.1

/-- Calls on one context. -/
def onContext (ctx : Nat) (calls : List SslCall) : List (Nat × SslCall) :=
  calls.map fun call => (ctx, call)

theorem changes_append (ctx : Nat) (front back : List (Nat × SslCall)) :
    changes ctx (front ++ back) = changes ctx front ++ changes ctx back := by
  rw [changes, List.filter_append, List.map_append]
  rfl

theorem changes_onContext_self (ctx : Nat) (calls : List SslCall) :
    changes ctx (onContext ctx calls) = calls.map SslCall.change := by
  simp [changes, onContext, List.filter_map, Function.comp_def]

theorem changes_onContext_of_ne {ctx other : Nat} (hne : other ≠ ctx) (calls : List SslCall) :
    changes other (onContext ctx calls) = [] := by
  have hctx : ¬ctx = other := fun hsame => hne hsame.symm
  simp [changes, onContext, List.filter_map, Function.comp_def, hctx]

theorem changes_onLater {first ctx : Nat} {calls : List (Nat × SslCall)}
    (hlater : OnLater first calls) (hctx : ctx < first) : changes ctx calls = [] := by
  have hnone : calls.filter (fun call => call.1 = ctx) = [] := by
    apply List.filter_eq_nil_iff.mpr
    intro call hcall
    have hfirst := hlater call hcall
    simp only [decide_eq_true_eq]
    omega
  rw [changes, hnone, List.map_nil]

/-- The calls on a context around calls on later ones. -/
theorem balanced_around_iff {ctx : Nat} {inner : List (Nat × SslCall)}
    (hlater : OnLater (ctx + 1) inner) (opening closing : List SslCall) :
    Balanced (onContext ctx opening ++ (inner ++ onContext ctx closing)) ↔
      Settles 0 ((opening ++ closing).map SslCall.change) ∧ Balanced inner := by
  have hself : changes ctx (onContext ctx opening ++ (inner ++ onContext ctx closing)) =
      (opening ++ closing).map SslCall.change := by
    rw [changes_append, changes_append, changes_onContext_self, changes_onContext_self,
      changes_onLater hlater (Nat.lt_succ_self ctx), List.nil_append, List.map_append]
  have hothers : ∀ other, other ≠ ctx →
      changes other (onContext ctx opening ++ (inner ++ onContext ctx closing)) =
        changes other inner := by
    intro other hne
    rw [changes_append, changes_append, changes_onContext_of_ne hne, changes_onContext_of_ne hne,
      List.nil_append, List.append_nil]
  constructor
  · intro hbalanced
    refine ⟨hself ▸ hbalanced ctx, fun other => ?_⟩
    -- on the context itself the inner calls are none
    by_cases hsame : other = ctx
    · rw [hsame, changes_onLater hlater (Nat.lt_succ_self ctx)]
      rfl
    · exact hothers other hsame ▸ hbalanced other
  · rintro ⟨hsettles, hinner⟩ other
    by_cases hsame : other = ctx
    · rw [hsame, hself]
      exact hsettles
    · rw [hothers other hsame]
      exact hinner other

/-- The later ledger has these calls more, all on contexts it created. -/
structure SslLedger.Extends (l : SslLedger) (calls : List (Nat × SslCall)) (l' : SslLedger) :
    Prop where
  calls_eq : l'.calls = l.calls ++ calls
  later : OnLater l.contexts calls
  contexts_le : l.contexts ≤ l'.contexts

namespace SslLedger

theorem Extends.refl (l : SslLedger) : l.Extends [] l := by
  refine ⟨(List.append_nil _).symm, ?_, Nat.le_refl _⟩
  intro call hcall
  cases hcall

/-- The ledger when a secure client has its context and its `SSL`. -/
def opened (l : SslLedger) : SslLedger :=
  { contexts := l.contexts + 1
    calls := l.calls ++ onContext l.contexts [.ctxNew, .sslNew] }

/-- The ledger with further calls on a context. -/
def closed (l : SslLedger) (ctx : Nat) (calls : List SslCall) : SslLedger :=
  { l with calls := l.calls ++ onContext ctx calls }

theorem createClient_secure (l : SslLedger) :
    l.createClient true = (some l.contexts,
      { contexts := l.contexts + 1, calls := l.calls ++ onContext l.contexts [.ctxNew] }) := rfl

theorem sslNew_secure (l : SslLedger) :
    sslNew { contexts := l.contexts + 1, calls := l.calls ++ onContext l.contexts [.ctxNew] }
      (some l.contexts) = l.opened := by
  simp [sslNew, record, opened, onContext]

theorem destroyClient_secure (l : SslLedger) (ctx : Nat) :
    l.destroyClient (some ctx) = l.closed ctx [.ctxFree, .sslFree] := by
  simp [destroyClient, record, closed, onContext]

theorem withClient_secure (body : Option Nat → SslLedger → Bool × SslLedger) (l : SslLedger) :
    withClient true body l = ((body (some l.contexts) l.opened).1,
      (body (some l.contexts) l.opened).2.closed l.contexts [.ctxFree, .sslFree]) := by
  simp only [withClient, createClient_secure, sslNew_secure, destroyClient_secure]

theorem withClient_plain (body : Option Nat → SslLedger → Bool × SslLedger) (l : SslLedger) :
    withClient false body l = body none l := rfl

/-- What happens while a secure client is open lies between its calls. -/
theorem Extends.around {l l' : SslLedger} {inner : List (Nat × SslCall)}
    (hinner : l.opened.Extends inner l') (closing : List SslCall) :
    l.Extends (onContext l.contexts [.ctxNew, .sslNew] ++ (inner ++ onContext l.contexts closing))
      (l'.closed l.contexts closing) := by
  have hcontexts := hinner.contexts_le
  refine ⟨?_, ?_, ?_⟩
  · simp [closed, hinner.calls_eq, opened]
  · intro call hcall
    simp only [List.mem_append] at hcall
    rcases hcall with hopening | hin | hclosing
    · obtain ⟨_, -, rfl⟩ := List.mem_map.mp hopening
      exact Nat.le_refl _
    · have hlater := hinner.later call hin
      simp only [opened] at hlater
      omega
    · obtain ⟨_, -, rfl⟩ := List.mem_map.mp hclosing
      exact Nat.le_refl _
  · simp only [opened] at hcontexts
    simp only [closed]
    omega

end SslLedger

/-! ## Whole requests -/

namespace HttpRun

open SslLedger

theorem returned_restSync (run : HttpRun) (l : SslLedger) :
    (restSync run l).1 = true ↔ ¬run.Throws := by
  induction run generalizing l with
  | invalid | refused | unresolved secure | failed secure => simp [restSync, Throws]
  | broken secure => cases secure <;> simp [restSync, Throws, withClient]
  | answered secure => cases secure <;> simp [restSync, Throws, withClient]
  | redirected secure next ih => simp [restSync, Throws, withClient, ih]

/-- The calls of a scope are balanced exactly if those inside are and its own are. -/
theorem scope_balanced_iff {l l' : SslLedger} {inner : List (Nat × SslCall)}
    (hinner : l.opened.Extends inner l') (closing : List SslCall) :
    Balanced (onContext l.contexts [.ctxNew, .sslNew] ++
        (inner ++ onContext l.contexts closing)) ↔
      Settles 0 ((SslCall.ctxNew :: .sslNew :: closing).map SslCall.change) ∧ Balanced inner :=
  balanced_around_iff hinner.later _ _

theorem balanced_nil : Balanced [] := fun _ => rfl

/-- A client that fails to be constructed leaves its context behind. -/
theorem not_balanced_unclosed (ctx : Nat) {opening : List SslCall}
    (hopening : ¬Settles 0 (opening.map SslCall.change)) : ¬Balanced (onContext ctx opening) := by
  intro hbalanced
  have hself := hbalanced ctx
  rw [changes_onContext_self] at hself
  exact hopening hself

theorem extends_onContext (l : SslLedger) (opening : List SslCall) :
    l.Extends (onContext l.contexts opening)
      ⟨l.contexts + 1, l.calls ++ onContext l.contexts opening⟩ := by
  refine ⟨rfl, ?_, Nat.le_succ _⟩
  intro call hcall
  obtain ⟨_, -, rfl⟩ := List.mem_map.mp hcall
  exact Nat.le_refl _

theorem restSync_extends (run : HttpRun) (l : SslLedger) :
    ∃ calls, l.Extends calls (restSync run l).2 ∧ (Balanced calls ↔ run.Constructs) := by
  induction run generalizing l with
  | invalid | refused => exact ⟨[], Extends.refl l, iff_of_true balanced_nil trivial⟩
  | unresolved secure =>
      cases secure with
      | false => exact ⟨[], Extends.refl l, iff_of_true balanced_nil rfl⟩
      | true =>
          exact ⟨_, extends_onContext l [.ctxNew],
            iff_of_false (not_balanced_unclosed _ (by decide))
              (fun hplain => Bool.noConfusion hplain)⟩
  | failed secure =>
      cases secure with
      | false => exact ⟨[], Extends.refl l, iff_of_true balanced_nil rfl⟩
      | true =>
          refine ⟨onContext l.contexts [.ctxNew, .sslNew], ?_,
            iff_of_false (not_balanced_unclosed _ ?_) (fun hplain => Bool.noConfusion hplain)⟩
          · simp only [restSync, createClient_secure, sslNew_secure]
            exact extends_onContext l [.ctxNew, .sslNew]
          · decide
  | broken secure | answered secure =>
      cases secure with
      | false => exact ⟨[], Extends.refl l, iff_of_true balanced_nil trivial⟩
      | true =>
          have hinner := Extends.refl l.opened
          have hbalanced := (scope_balanced_iff hinner [.ctxFree, .sslFree]).mpr
            ⟨by decide, balanced_nil⟩
          refine ⟨_, ?_, iff_of_true hbalanced trivial⟩
          rw [restSync, withClient_secure]
          exact hinner.around [.ctxFree, .sslFree]
  | redirected secure next ih =>
      cases secure with
      | false => exact ih l
      | true =>
          -- the next request runs while the client of this one is still in scope
          obtain ⟨inner, hextends, hiff⟩ := ih l.opened
          have hscope := scope_balanced_iff hextends [.ctxFree, .sslFree]
          refine ⟨_, ?_, hscope.trans ((and_iff_right (by decide)).trans hiff)⟩
          rw [restSync, withClient_secure]
          exact hextends.around [.ctxFree, .sslFree]

theorem closed_record (l : SslLedger) (ctx : Nat) (calls : List SslCall) :
    (l.record (some ctx) .ctxFree).closed ctx calls = l.closed ctx (.ctxFree :: calls) := by
  simp [record, closed, onContext]

/-- Freed by the task, the context is freed once more by its client. -/
theorem not_balanced_freedTwice {l l' : SslLedger} {inner : List (Nat × SslCall)}
    (hinner : l.opened.Extends inner l') :
    ¬Balanced (onContext l.contexts [.ctxNew, .sslNew] ++
      (inner ++ onContext l.contexts [.ctxFree, .ctxFree, .sslFree])) := by
  rw [scope_balanced_iff hinner]
  exact fun hbalanced => absurd hbalanced.1 (by decide)

theorem restAsync_extends (run : HttpRun) (l : SslLedger) :
    ∃ calls, l.Extends calls (restAsync run l).2 ∧
      (Balanced calls ↔ run.Constructs ∧ run.KeepsContext) := by
  cases run with
  | invalid | refused | broken secure | unresolved secure | failed secure =>
      obtain ⟨calls, hextends, hiff⟩ := restSync_extends _ l
      exact ⟨calls, hextends, hiff.trans (and_iff_left trivial).symm⟩
  | answered secure =>
      cases secure with
      | false => exact ⟨[], Extends.refl l, iff_of_true balanced_nil ⟨trivial, rfl⟩⟩
      | true =>
          have hinner := Extends.refl l.opened
          refine ⟨_, ?_, iff_of_false (not_balanced_freedTwice hinner)
            (fun hkeeps => Bool.noConfusion hkeeps.2)⟩
          simp only [restAsync, withClient_secure, closed_record]
          exact hinner.around [.ctxFree, .ctxFree, .sslFree]
  | redirected secure next =>
      cases secure with
      | false =>
          obtain ⟨calls, hextends, hiff⟩ := restSync_extends next l
          refine ⟨calls, ?_, hiff.trans (and_iff_left (Or.inl rfl)).symm⟩
          simp only [restAsync, withClient_plain]
          cases hnext : restSync next l with
          | mk returned l' =>
              rw [hnext] at hextends
              cases returned <;> exact hextends
      | true =>
          obtain ⟨inner, hextends, hiff⟩ := restSync_extends next l.opened
          have hreturned := returned_restSync next l.opened
          simp only [restAsync, withClient_secure]
          cases hnext : restSync next l.opened with
          | mk returned l' =>
              rw [hnext] at hextends hreturned
              cases returned with
              | true =>
                  -- the task frees the context, and its client frees it once more
                  refine ⟨_, ?_, iff_of_false (not_balanced_freedTwice hextends) ?_⟩
                  · simp only [closed_record]
                    exact hextends.around [.ctxFree, .ctxFree, .sslFree]
                  · rintro ⟨-, hplain | hthrows⟩
                    · cases hplain
                    · exact hreturned.mp rfl hthrows
              | false =>
                  -- the exception passes over the `SSL_CTX_free` of the task
                  have hthrows : next.Throws := by
                    by_contra hreturns
                    cases hreturned.mpr hreturns
                  have hscope := scope_balanced_iff hextends [.ctxFree, .sslFree]
                  refine ⟨_, hextends.around [.ctxFree, .sslFree], ?_⟩
                  exact (hscope.trans ((and_iff_right (by decide)).trans hiff)).trans
                    (and_iff_left (Or.inr hthrows)).symm

end HttpRun

end Iostreams
