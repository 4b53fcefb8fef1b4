import Mathlib

/-! # Fixed-width little-endian numbers

A number occupies a fixed number of bytes, least significant first. Writing
reduces modulo the width, and reading what was written recovers the reduced
number. Nothing here depends on which record the bytes belong to.
-/

namespace Onced.Foundation

/-- The `width` low bytes of `n`, least significant first. -/
def leBytes : Nat → Nat → List UInt8
  | 0, _ => []
  | width + 1, n => UInt8.ofNat n :: leBytes width (n / 256)

/-- The number a byte string denotes, least significant byte first. -/
def ofLeBytes : List UInt8 → Nat
  | [] => 0
  | byte :: rest => byte.toNat + 256 * ofLeBytes rest

@[simp] theorem leBytes_length (width n : Nat) : (leBytes width n).length = width := by
  induction width generalizing n with
  | zero => rfl
  | succ width ih => simp [leBytes, ih]

theorem ofLeBytes_leBytes (width n : Nat) :
    ofLeBytes (leBytes width n) = n % 256 ^ width := by
  induction width generalizing n with
  | zero => simp [leBytes, ofLeBytes, Nat.mod_one]
  | succ width ih =>
      have hsplit : n % 256 ^ (width + 1) = n % 256 + 256 * (n / 256 % 256 ^ width) := by
        rw [pow_succ, mul_comm (256 ^ width), Nat.mod_mul]
      simp only [leBytes, ofLeBytes, ih, hsplit, UInt8.toNat_ofNat']

theorem ofLeBytes_lt (bytes : List UInt8) : ofLeBytes bytes < 256 ^ bytes.length := by
  induction bytes with
  | nil => simp [ofLeBytes]
  | cons byte rest ih =>
      have hbyte := byte.toNat_lt
      simp only [ofLeBytes, List.length_cons, pow_succ]
      omega

/-- Reading is injective at a fixed width: the number determines its bytes. -/
theorem leBytes_ofLeBytes (bytes : List UInt8) :
    leBytes bytes.length (ofLeBytes bytes) = bytes := by
  induction bytes with
  | nil => rfl
  | cons byte rest ih =>
      have hbyte := byte.toNat_lt
      have hhead : UInt8.ofNat (byte.toNat + 256 * ofLeBytes rest) = byte := by
        apply UInt8.toNat_inj.mp
        simp only [UInt8.toNat_ofNat']
        omega
      have htail : (byte.toNat + 256 * ofLeBytes rest) / 256 = ofLeBytes rest := by omega
      simp only [List.length_cons, ofLeBytes, leBytes, hhead, htail, ih]

theorem ofLeBytes_injective_on_length {one other : List UInt8} (hlength : one.length = other.length)
    (hsame : ofLeBytes one = ofLeBytes other) : one = other := by
  rw [← leBytes_ofLeBytes one, ← leBytes_ofLeBytes other, hlength, hsame]

/-- The `width` low bytes of `n`, most significant first. -/
def beBytes (width n : Nat) : List UInt8 := (leBytes width n).reverse

@[simp] theorem beBytes_length (width n : Nat) : (beBytes width n).length = width := by
  simp [beBytes]

end Onced.Foundation
