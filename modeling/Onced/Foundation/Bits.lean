import Onced.Foundation.LittleEndian

/-! # Bit strings

A number as a string of bits, the most significant one first, and a byte string as
the bits of its bytes one after the other. How many of the first bits are zero says
how large the number can be.
-/

namespace Onced.Foundation

/-- The `width` low bits of `n`, most significant first. -/
def toBits : Nat → Nat → List Bool
  | 0, _ => []
  | width + 1, n => n.testBit width :: toBits width n

/-- The number a bit string denotes, most significant bit first. -/
def ofBits : List Bool → Nat
  | [] => 0
  | bit :: bits => bit.toNat * 2 ^ bits.length + ofBits bits

/-- The bits of a byte string. -/
def bitsOf (bytes : List UInt8) : List Bool := bytes.flatMap fun byte => toBits 8 byte.toNat

section Numbers

@[simp] theorem toBits_length (width n : Nat) : (toBits width n).length = width := by
  induction width with
  | zero => rfl
  | succ width ih => simp [toBits, ih]

theorem ofBits_toBits (width n : Nat) : ofBits (toBits width n) = n % 2 ^ width := by
  induction width with
  | zero => simp [toBits, ofBits, Nat.mod_one]
  | succ width ih =>
      rw [toBits, ofBits, toBits_length, ih, Nat.toNat_testBit, Nat.mod_pow_succ]
      ring

theorem ofBits_lt (bits : List Bool) : ofBits bits < 2 ^ bits.length := by
  induction bits with
  | nil => simp [ofBits]
  | cons bit bits ih =>
      have hbit : bit.toNat ≤ 1 := Bool.toNat_le bit
      have hhigh : bit.toNat * 2 ^ bits.length ≤ 1 * 2 ^ bits.length := Nat.mul_le_mul_right _ hbit
      rw [ofBits, List.length_cons, pow_succ]
      omega

theorem ofBits_append (high low : List Bool) :
    ofBits (high ++ low) = ofBits high * 2 ^ low.length + ofBits low := by
  induction high with
  | nil => simp [ofBits]
  | cons bit high ih =>
      rw [List.cons_append, ofBits, ih, ofBits, List.length_append, pow_add]
      ring

theorem toBits_append (high low n : Nat) :
    toBits (high + low) n = toBits high (n / 2 ^ low) ++ toBits low n := by
  induction high with
  | zero => simp [toBits]
  | succ high ih =>
      rw [Nat.add_right_comm, toBits, ih, toBits, Nat.testBit_div_two_pow]
      rfl

/-- Higher bits are not looked at. -/
theorem toBits_mod {width bound : Nat} (hwidth : width ≤ bound) (n : Nat) :
    toBits width (n % 2 ^ bound) = toBits width n := by
  induction width with
  | zero => rfl
  | succ width ih =>
      rw [toBits, toBits, ih (by omega), Nat.testBit_mod_two_pow, decide_eq_true (by omega),
        Bool.true_and]

/-- At least so many bits are zero exactly if the number is small enough. -/
theorem le_clz_iff {width count : Nat} (hcount : count ≤ width) (x : BitVec width) :
    count ≤ x.clz.toNat ↔ x.toNat < 2 ^ (width - count) := by
  by_cases hzero : x = BitVec.ofNat width 0
  · have hclz : x.clz.toNat = width := by
      rw [BitVec.clz_eq_iff_eq_zero.mpr hzero]
      exact Nat.mod_eq_of_lt Nat.lt_two_pow_self
    rw [hclz, hzero]
    exact iff_of_true hcount (by simp)
  · constructor
    · intro hle
      exact Nat.lt_of_lt_of_le BitVec.toNat_lt_two_pow_sub_clz
        (Nat.pow_le_pow_right (by decide) (by omega))
    · intro hsmall
      by_contra hfewer
      have hlarge := BitVec.two_pow_sub_clz_le_toNat_of_ne_zero (by omega) hzero
      have hpower : 2 ^ (width - count) ≤ 2 ^ (width - 1 - x.clz.toNat) :=
        Nat.pow_le_pow_right (by decide) (by omega)
      omega

end Numbers

section Bytes

@[simp] theorem bitsOf_nil : bitsOf [] = [] := rfl

@[simp] theorem bitsOf_cons (byte : UInt8) (bytes : List UInt8) :
    bitsOf (byte :: bytes) = toBits 8 byte.toNat ++ bitsOf bytes := rfl

@[simp] theorem bitsOf_append (one other : List UInt8) :
    bitsOf (one ++ other) = bitsOf one ++ bitsOf other := List.flatMap_append

@[simp] theorem bitsOf_length (bytes : List UInt8) : (bitsOf bytes).length = 8 * bytes.length := by
  induction bytes with
  | nil => rfl
  | cons byte bytes ih =>
      rw [bitsOf_cons, List.length_append, toBits_length, ih, List.length_cons]
      omega

theorem bitsOf_replicate_zero (count : Nat) :
    bitsOf (List.replicate count 0) = List.replicate (8 * count) false := by
  induction count with
  | zero => rfl
  | succ count ih =>
      rw [List.replicate_succ, bitsOf_cons, ih, Nat.mul_succ, Nat.add_comm, List.replicate_add]
      rfl

theorem bitsOf_drop (bytes : List UInt8) (count : Nat) :
    bitsOf (bytes.drop count) = (bitsOf bytes).drop (8 * count) := by
  induction count generalizing bytes with
  | zero => rfl
  | succ count ih =>
      cases bytes with
      | nil => simp
      | cons byte bytes =>
          rw [List.drop_succ_cons, ih, bitsOf_cons, Nat.mul_succ, Nat.add_comm, ← List.drop_drop,
            List.drop_left' (toBits_length 8 _)]

theorem bitsOf_take (bytes : List UInt8) (count : Nat) :
    bitsOf (bytes.take count) = (bitsOf bytes).take (8 * count) := by
  have hsplit : bitsOf (bytes.take count) ++ bitsOf (bytes.drop count) = bitsOf bytes := by
    rw [← bitsOf_append, List.take_append_drop]
  rw [bitsOf_drop] at hsplit
  exact List.append_cancel_right (hsplit.trans (List.take_append_drop _ _).symm)

/-- A number that is written with its high byte first has its bits in order. -/
theorem bitsOf_beBytes (width n : Nat) : bitsOf (beBytes width n) = toBits (8 * width) n := by
  induction width generalizing n with
  | zero => rfl
  | succ width ih =>
      have hlast : beBytes (width + 1) n = beBytes width (n / 256) ++ [UInt8.ofNat n] := by
        rw [beBytes, leBytes, List.reverse_cons]
        rfl
      rw [hlast, bitsOf_append, ih, bitsOf_cons, bitsOf_nil, List.append_nil, UInt8.toNat_ofNat',
        toBits_mod (le_refl 8), Nat.mul_succ, toBits_append]
      rfl

theorem ofLeBytes_reverse (bytes : List UInt8) :
    ofLeBytes bytes.reverse = ofBits (bitsOf bytes) := by
  induction bytes using List.reverseRecOn with
  | nil => rfl
  | append_singleton bytes byte ih =>
      rw [List.reverse_append, List.reverse_singleton, List.singleton_append, ofLeBytes, ih,
        bitsOf_append, ofBits_append, bitsOf_cons, bitsOf_nil, List.append_nil, toBits_length,
        ofBits_toBits, Nat.mod_eq_of_lt byte.toNat_lt]
      ring

end Bytes

end Onced.Foundation
