import Mathlib.Tactic.Common
import Mathlib.Data.Nat.Bitwise
import Mathlib.Tactic.Ring

/-!
# Fixed-width integers and their object representation

Quantities are kept as mathematical integers; this file supplies the
conversions a 64-bit C++ program performs between them.  A conversion to a
signed type is the balanced remainder, a conversion to an unsigned type the
ordinary remainder.  In-range values are fixed points, which is the only fact
most of the development needs.

The second half describes how an unsigned integer lies in memory: its bytes in
little-endian order, and the value a byte string denotes.
-/

namespace Iostreams
namespace Foundation

/-- Conversion to a signed 64-bit integer. -/
def toInt64 (x : Int) : Int := x.bmod (2 ^ 64)

/-- Conversion to a signed 32-bit integer. -/
def toInt32 (x : Int) : Int := x.bmod (2 ^ 32)

/-- Conversion to an unsigned 64-bit integer. -/
def toSizeT (x : Int) : Nat := (x % 2 ^ 64).toNat

theorem toInt64_of_bounds {x : Int} (hlow : -2 ^ 63 ≤ x) (hhigh : x < 2 ^ 63) :
    toInt64 x = x := by
  rw [toInt64, Int.bmod_def]
  omega

@[simp] theorem toInt64_zero : toInt64 0 = 0 := rfl

theorem toInt64_natCast {n : Nat} (hn : n < 2 ^ 63) : toInt64 (n : Int) = n :=
  toInt64_of_bounds (by omega) (by omega)

theorem toInt64_lt (x : Int) : toInt64 x < 2 ^ 63 := by
  rw [toInt64, Int.bmod_def]
  omega

theorem toInt64_natCast_le (n : Nat) : toInt64 (n : Int) ≤ n := by
  rw [toInt64, Int.bmod_def]
  omega

theorem toInt32_le {x : Int} (hpos : 0 < x) : toInt32 x ≤ x := by
  rw [toInt32, Int.bmod_def]
  omega

theorem toInt32_eq_iff {x : Int} (hnonneg : 0 ≤ x) : toInt32 x = x ↔ x < 2 ^ 31 := by
  rw [toInt32, Int.bmod_def]
  omega

theorem toInt32_natCast_iff {n : Nat} : toInt32 (n : Int) = n ↔ n < 2 ^ 31 := by
  rw [toInt32_eq_iff (Int.natCast_nonneg n)]
  omega

/-- An unsigned value whose conversion is not negative was in range. -/
theorem eq_of_toInt64_eq {count n : Nat} (hcount : count < 2 ^ 64)
    (heq : toInt64 (count : Int) = n) : count = n := by
  rw [toInt64, Int.bmod_def] at heq
  omega

/-- Only the low 64 bits of a value matter. -/
theorem toInt64_toSizeT (x : Int) : toInt64 (toSizeT x) = toInt64 x := by
  have hnonneg : 0 ≤ x % 2 ^ 64 := Int.emod_nonneg x (by norm_num)
  rw [toSizeT, Int.toNat_of_nonneg hnonneg]
  exact Int.emod_bmod x (2 ^ 64)

theorem toSizeT_natCast {n : Nat} (hn : n < 2 ^ 64) : toSizeT (n : Int) = n := by
  unfold toSizeT
  omega

theorem toSizeT_lt (x : Int) : toSizeT x < 2 ^ 64 := by
  unfold toSizeT
  omega

/-- A negative number is `2 ^ 64` too large after the conversion. -/
theorem toSizeT_eq_add {x : Int} (hlow : -2 ^ 64 ≤ x) (hhigh : x < 2 ^ 64) :
    (toSizeT x : Int) = x + if x < 0 then 2 ^ 64 else 0 := by
  unfold toSizeT
  split <;> omega

/-! ## Little-endian object representation -/

/-- The `count` low-order bytes of `value`, least significant first. -/
def leBytes : Nat → Nat → List UInt8
  | 0, _ => []
  | count + 1, value => UInt8.ofNat (value % 256) :: leBytes count (value / 256)

/-- The value of a little-endian byte string. -/
def leValue : List UInt8 → Nat
  | [] => 0
  | byte :: rest => byte.toNat + 256 * leValue rest

@[simp] theorem leBytes_length (count value : Nat) :
    (leBytes count value).length = count := by
  induction count generalizing value with
  | zero => rfl
  | succ count ih => simp [leBytes, ih]

theorem leBytes_length_eq (count left right : Nat) :
    (leBytes count left).length = (leBytes count right).length := by
  rw [leBytes_length, leBytes_length]

theorem leValue_leBytes {count value : Nat} (hvalue : value < 256 ^ count) :
    leValue (leBytes count value) = value := by
  induction count generalizing value with
  | zero =>
      rw [Nat.pow_zero] at hvalue
      simp [leBytes, leValue]
      omega
  | succ count ih =>
      have hdiv : value / 256 < 256 ^ count := by
        rw [Nat.pow_succ] at hvalue
        exact Nat.div_lt_of_lt_mul (by omega)
      rw [leBytes, leValue, ih hdiv, UInt8.toNat_ofNat']
      omega

theorem leBytes_leValue (bytes : List UInt8) : leBytes bytes.length (leValue bytes) = bytes := by
  induction bytes with
  | nil => rfl
  | cons byte rest ih =>
      have hlow : (byte.toNat + 256 * leValue rest) % 256 = byte.toNat := by
        have hbyte := byte.toNat_lt
        omega
      have hhigh : (byte.toNat + 256 * leValue rest) / 256 = leValue rest := by
        have hbyte := byte.toNat_lt
        omega
      rw [List.length_cons, leBytes, leValue, hlow, hhigh, ih, UInt8.ofNat_toNat]

/-- As many bytes denote a value exactly if they are its representation. -/
theorem leValue_eq_iff {bytes : List UInt8} {value : Nat} (hvalue : value < 256 ^ bytes.length) :
    leValue bytes = value ↔ bytes = leBytes bytes.length value := by
  constructor
  · rintro rfl
    exact (leBytes_leValue bytes).symm
  · intro hbytes
    rw [hbytes]
    exact leValue_leBytes hvalue

theorem leValue_append (front back : List UInt8) :
    leValue (front ++ back) = leValue front + 256 ^ front.length * leValue back := by
  induction front with
  | nil => simp [leValue]
  | cons byte rest ih =>
      simp only [List.cons_append, leValue, List.length_cons, Nat.pow_succ, ih]
      ring

theorem leValue_lt (bytes : List UInt8) : leValue bytes < 256 ^ bytes.length := by
  induction bytes with
  | nil => exact Nat.zero_lt_one
  | cons byte rest ih =>
      have hbyte := byte.toNat_lt
      simp only [leValue, List.length_cons, Nat.pow_succ]
      omega

theorem leBytes_zero (count : Nat) : leBytes count 0 = List.replicate count 0 := by
  induction count with
  | zero => rfl
  | succ count ih => simp [leBytes, ih, List.replicate_succ]

theorem leValue_replicate_zero (count : Nat) : leValue (List.replicate count 0) = 0 := by
  induction count with
  | zero => rfl
  | succ count ih => simp [leValue, List.replicate_succ, ih]

end Foundation
end Iostreams
