import Mathlib.Data.Nat.Bitwise
import Mathlib.Tactic.Common
import Mathlib.Tactic.Ring

/-!
# Packing bits into bytes, least significant bit first

`byteBits` lists the eight bits of a byte, `ofBits` builds the byte whose low
bits are given and whose remaining bits are zero.  `pack` cuts a bit sequence
into bytes and zero-pads the last one; `unpack` is the concatenation of the
bits of all bytes.

An incremental writer keeps a whole number of packed bytes and fewer than
eight pending bits.  The lemmas below say what appending one bit to the
pending ones does (`ofBits_concat`), that packing distributes over a prefix of
whole bytes (`pack_append`), and that unpacking returns the packed bits
followed by the padding (`unpack_pack`).
-/

namespace Iostreams
namespace Foundation

/-- The bits of a byte, least significant first. -/
def byteBits (byte : UInt8) : List Bool :=
  (List.range 8).map fun index => byte.toNat.testBit index

/-- The number denoted by a bit sequence, least significant first. -/
def bitsValue : List Bool → Nat
  | [] => 0
  | bit :: rest => bit.toNat + 2 * bitsValue rest

/-- The byte with the given low bits and zeroes above them. -/
def ofBits (bits : List Bool) : UInt8 := UInt8.ofNat (bitsValue bits)

@[simp] theorem byteBits_length (byte : UInt8) : (byteBits byte).length = 8 := by
  simp [byteBits]

@[simp] theorem ofBits_nil : ofBits [] = 0 := rfl

theorem bitsValue_lt (bits : List Bool) : bitsValue bits < 2 ^ bits.length := by
  induction bits with
  | nil => simp [bitsValue]
  | cons bit rest ih =>
      have hbit : bit.toNat ≤ 1 := Bool.toNat_le bit
      simp only [bitsValue, List.length_cons, Nat.pow_succ]
      omega

theorem bitsValue_append (front back : List Bool) :
    bitsValue (front ++ back) = bitsValue front + 2 ^ front.length * bitsValue back := by
  induction front with
  | nil => simp [bitsValue]
  | cons bit rest ih =>
      simp only [List.cons_append, bitsValue, List.length_cons, Nat.pow_succ, ih]
      ring

theorem ofBits_toNat {bits : List Bool} (hlength : bits.length ≤ 8) :
    (ofBits bits).toNat = bitsValue bits := by
  have hlt := bitsValue_lt bits
  have hpow : 2 ^ bits.length ≤ 2 ^ 8 := Nat.pow_le_pow_right (by omega) hlength
  rw [ofBits, UInt8.toNat_ofNat']
  omega

theorem testBit_bitsValue (bits : List Bool) (index : Nat) :
    (bitsValue bits).testBit index = bits.getD index false := by
  induction bits generalizing index with
  | nil => simp [bitsValue]
  | cons bit rest ih =>
      cases index with
      | zero =>
          cases bit <;> simp [bitsValue, Nat.testBit_zero]
      | succ index =>
          have hhalf : (bit.toNat + 2 * bitsValue rest) / 2 = bitsValue rest := by
            have hbit : bit.toNat ≤ 1 := Bool.toNat_le bit
            omega
          rw [bitsValue, ← Nat.testBit_div_two, hhalf, ih]
          rfl

/-- Setting bit `pending.length` above the pending bits appends to them. -/
theorem ofBits_concat {pending : List Bool} (hlength : pending.length < 8) (bit : Bool) :
    ofBits pending ||| UInt8.ofNat (bit.toNat <<< pending.length) =
      ofBits (pending ++ [bit]) := by
  have hlt := bitsValue_lt pending
  apply UInt8.toNat_inj.mp
  rw [UInt8.toNat_or, ofBits_toNat (by omega), ofBits_toNat (by simp; omega),
    bitsValue_append, UInt8.toNat_ofNat']
  have hshift : bit.toNat <<< pending.length % 2 ^ 8 = bit.toNat <<< pending.length := by
    apply Nat.mod_eq_of_lt
    have hpow : 2 ^ pending.length ≤ 2 ^ 7 := Nat.pow_le_pow_right (by omega) (by omega)
    cases bit with
    | false => simp
    | true =>
        simp only [Bool.toNat_true, Nat.shiftLeft_eq, one_mul]
        omega
  rw [hshift, Nat.lor_comm, ← Nat.shiftLeft_add_eq_or_of_lt hlt, Nat.shiftLeft_eq]
  cases bit with
  | false => simp [bitsValue]
  | true =>
      simp only [bitsValue, Bool.toNat_true, one_mul]
      omega

/-- The bits of a byte built from at most eight bits are those bits, padded. -/
theorem byteBits_ofBits {bits : List Bool} (hlength : bits.length ≤ 8) :
    byteBits (ofBits bits) = bits ++ List.replicate (8 - bits.length) false := by
  apply List.ext_getElem
  · simp
    omega
  · intro index hleft hright
    simp only [byteBits, List.getElem_map, List.getElem_range]
    rw [ofBits_toNat hlength, testBit_bitsValue]
    by_cases hindex : index < bits.length
    · rw [List.getD_eq_getElem _ _ hindex, List.getElem_append_left hindex]
    · rw [List.getD_eq_default _ _ (by omega), List.getElem_append_right (by omega),
        List.getElem_replicate]

theorem ofBits_byteBits (byte : UInt8) : ofBits (byteBits byte) = byte := by
  apply UInt8.toNat_inj.mp
  rw [ofBits_toNat (by simp)]
  apply Nat.eq_of_testBit_eq
  intro index
  rw [testBit_bitsValue]
  by_cases hindex : index < 8
  · rw [List.getD_eq_getElem _ _ (by simpa using hindex)]
    simp [byteBits]
  · have hbyte : byte.toNat < 2 ^ index := by
      have hpow : 2 ^ 8 ≤ 2 ^ index := Nat.pow_le_pow_right (by omega) (by omega)
      have hlt := byte.toNat_lt
      omega
    rw [List.getD_eq_default _ _ (by simp; omega), Nat.testBit_lt_two_pow hbyte]

/-! ## Whole sequences -/

/-- Cut a bit sequence into bytes; the last byte is zero-padded. -/
def pack : List Bool → List UInt8
  | [] => []
  | b0 :: b1 :: b2 :: b3 :: b4 :: b5 :: b6 :: b7 :: rest =>
      ofBits [b0, b1, b2, b3, b4, b5, b6, b7] :: pack rest
  | bits => [ofBits bits]

/-- The bits of all bytes, in order. -/
def unpack (bytes : List UInt8) : List Bool := bytes.flatMap byteBits

/-- Zeroes added to a sequence of `count` bits to fill its last byte. -/
def padding (count : Nat) : List Bool := List.replicate ((8 - count % 8) % 8) false

/-- Induction over a bit sequence one whole byte at a time. -/
@[elab_as_elim]
theorem byteInduction {motive : List Bool → Prop}
    (short : ∀ bits : List Bool, bits.length < 8 → motive bits)
    (byte : ∀ front rest : List Bool, front.length = 8 → motive rest → motive (front ++ rest))
    (bits : List Bool) : motive bits := by
  induction hlength : bits.length using Nat.strong_induction_on generalizing bits with
  | _ length ih =>
      by_cases hshort : bits.length < 8
      · exact short bits hshort
      · rw [← List.take_append_drop 8 bits]
        refine byte _ _ (by simp; omega) (ih _ ?_ _ rfl)
        simp
        omega

@[simp] theorem pack_nil : pack [] = [] := rfl

theorem pack_byte {byte : List Bool} (hlength : byte.length = 8) (rest : List Bool) :
    pack (byte ++ rest) = ofBits byte :: pack rest := by
  match byte, hlength with
  | [_, _, _, _, _, _, _, _], _ => rfl

/-- Fewer than eight bits occupy one byte. -/
theorem pack_short {bits : List Bool} (hne : bits ≠ []) (hlength : bits.length < 8) :
    pack bits = [ofBits bits] := by
  unfold pack
  split
  · contradiction
  · simp only [List.length_cons] at hlength
    omega
  · rfl

/-- A prefix of whole bytes is packed on its own. -/
theorem pack_append {front : List Bool} (hfront : 8 ∣ front.length) (back : List Bool) :
    pack (front ++ back) = pack front ++ pack back := by
  induction front using byteInduction with
  | short bits hshort =>
      have hnil : bits = [] := List.length_eq_zero_iff.mp (by omega)
      simp [hnil]
  | byte front rest hlength ih =>
      have hrest : 8 ∣ rest.length := by
        rw [List.length_append] at hfront
        omega
      rw [List.append_assoc, pack_byte hlength, pack_byte hlength, ih hrest, List.cons_append]

/-- The packed length is the bit count divided by eight, rounded up. -/
theorem pack_length (bits : List Bool) : (pack bits).length = (bits.length + 7) / 8 := by
  induction bits using byteInduction with
  | short bits hshort =>
      by_cases hnil : bits = []
      · simp [hnil]
      · have hpos : 0 < bits.length := List.length_pos_iff.mpr hnil
        rw [pack_short hnil hshort, List.length_singleton]
        omega
  | byte front rest hlength ih =>
      rw [pack_byte hlength, List.length_cons, List.length_append, ih]
      omega

/-- More bits fill at least as many bytes. -/
theorem length_div_le_append (front back : List Bool) :
    front.length / 8 ≤ (front ++ back).length / 8 := by
  rw [List.length_append]
  omega

theorem pack_length_of_dvd {bits : List Bool} (hbits : 8 ∣ bits.length) :
    (pack bits).length = bits.length / 8 := by
  rw [pack_length]
  omega

/-- Zeroes that fill the last byte do not change the packing. -/
theorem pack_padding (bits : List Bool) : pack (bits ++ padding bits.length) = pack bits := by
  induction bits using byteInduction with
  | short bits hshort =>
      by_cases hnil : bits = []
      · subst hnil
        rfl
      · have hpos : 0 < bits.length := List.length_pos_iff.mpr hnil
        have hcount : (8 - bits.length % 8) % 8 = 8 - bits.length := by omega
        have hbyte := pack_byte
          (show (bits ++ List.replicate (8 - bits.length) false).length = 8 by simp; omega) []
        rw [padding, hcount, pack_short hnil hshort, ← ofBits_byteBits (ofBits bits),
          byteBits_ofBits (by omega)]
        simpa using hbyte
  | byte front rest hlength ih =>
      have hpadding : padding (front ++ rest).length = padding rest.length := by
        simp only [padding, List.length_append, hlength, Nat.add_mod_left]
      rw [hpadding, List.append_assoc, pack_byte hlength, pack_byte hlength, ih]

@[simp] theorem unpack_nil : unpack [] = [] := rfl

@[simp] theorem unpack_cons (byte : UInt8) (rest : List UInt8) :
    unpack (byte :: rest) = byteBits byte ++ unpack rest := rfl

@[simp] theorem unpack_append (front back : List UInt8) :
    unpack (front ++ back) = unpack front ++ unpack back := by
  simp [unpack]

/-- Unpacking returns the packed bits followed by the padding. -/
theorem unpack_pack (bits : List Bool) :
    unpack (pack bits) = bits ++ padding bits.length := by
  induction bits using byteInduction with
  | short bits hshort =>
      by_cases hnil : bits = []
      · subst hnil
        rfl
      · have hpos : 0 < bits.length := List.length_pos_iff.mpr hnil
        rw [pack_short hnil hshort, unpack_cons, unpack_nil, List.append_nil,
          byteBits_ofBits (by omega), padding]
        congr 2
        omega
  | byte front rest hlength ih =>
      have hpadding : padding (front ++ rest).length = padding rest.length := by
        simp only [padding, List.length_append, hlength, Nat.add_mod_left]
      rw [pack_byte hlength, unpack_cons, ih, hpadding, byteBits_ofBits (by omega)]
      simp [hlength]

@[simp] theorem unpack_length (bytes : List UInt8) : (unpack bytes).length = 8 * bytes.length := by
  induction bytes with
  | nil => rfl
  | cons byte rest ih =>
      rw [unpack_cons, List.length_append, byteBits_length, ih, List.length_cons]
      omega

/-- Whole bytes are packed as they were. -/
theorem pack_unpack (bytes : List UInt8) : pack (unpack bytes) = bytes := by
  induction bytes with
  | nil => rfl
  | cons byte rest ih =>
      rw [unpack_cons, pack_byte (byteBits_length byte), ofBits_byteBits, ih]

theorem unpack_injective {left right : List UInt8} (hsame : unpack left = unpack right) :
    left = right := by
  rw [← pack_unpack left, hsame, pack_unpack]

theorem unpack_pack_of_dvd {bits : List Bool} (hbits : 8 ∣ bits.length) :
    unpack (pack bits) = bits := by
  have hnone : (8 - bits.length % 8) % 8 = 0 := by omega
  rw [unpack_pack, padding, hnone, List.replicate_zero, List.append_nil]

end Foundation
end Iostreams
