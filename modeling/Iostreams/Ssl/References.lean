import Mathlib.Algebra.BigOperators.Group.List.Basic
import Mathlib.Tactic.Ring

/-!
# References to an `SSL_CTX`

A context is counted as OpenSSL counts it: `SSL_CTX_new` and `SSL_new` add a
reference, `SSL_free` and `SSL_CTX_free` drop one.  `Settles` says of a sequence of
changes that the count never goes below zero and ends there, and `Balanced` says it of
every context of a ledger.
-/

namespace Iostreams

/-- A count that starts at `count`, takes these changes without going below zero, and ends at
zero. -/
def Settles : (count : Int) → List Int → Prop
  | count, [] => count = 0
  | count, change :: rest => 0 ≤ count + change ∧ Settles (count + change) rest

instance decidableSettles : (count : Int) → (changes : List Int) → Decidable (Settles count changes)
  | count, [] => inferInstanceAs (Decidable (count = 0))
  | count, change :: rest =>
      @instDecidableAnd _ _ (inferInstance) (decidableSettles (count + change) rest)

theorem Settles.sum_eq {count : Int} {changes : List Int} (hsettles : Settles count changes) :
    count + changes.sum = 0 := by
  induction changes generalizing count with
  | nil => exact (Int.add_zero count).trans hsettles
  | cons change rest ih =>
      rw [List.sum_cons, ← Int.add_assoc]
      exact ih hsettles.2

inductive SslCall where
  | ctxNew
  | sslNew
  | sslFree
  | ctxFree
  deriving DecidableEq, Repr

def SslCall.change : SslCall → Int
  | .ctxNew | .sslNew => 1
  | .sslFree | .ctxFree => -1

/-- The contexts created so far, which are numbered, and the calls on them. -/
structure SslLedger where
  contexts : Nat := 0
  calls : List (Nat × SslCall) := []

/-- The changes of one context's count. -/
def changes (ctx : Nat) (calls : List (Nat × SslCall)) : List Int :=
  (calls.filter fun call => call.1 = ctx).map fun call => call.2.change

/-- Every context is released exactly as often as it was acquired, and never earlier. -/
def Balanced (calls : List (Nat × SslCall)) : Prop := ∀ ctx, Settles 0 (changes ctx calls)

end Iostreams
