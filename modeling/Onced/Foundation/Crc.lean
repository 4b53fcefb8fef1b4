import Mathlib

/-! # Cyclic redundancy registers

A reflected register shifts down one bit at a time and adds its polynomial when
a one falls out. Shifting is linear, and invertible when the polynomial has its
top bit, so as many symbols as fill the register leave it in a state that
determines them: no change confined to that many consecutive symbols goes
unnoticed, however long the data around it.
-/

namespace Onced.Foundation.Crc

variable {w k : Nat}

/-- One bit step of a register with the given polynomial. -/
def shift (poly crc : BitVec w) : BitVec w :=
  (crc >>> 1) ^^^ (if crc.getLsbD 0 then poly else 0#w)

/-- Take in one symbol of `k` bits. -/
def absorb (poly crc : BitVec w) (symbol : BitVec k) : BitVec w :=
  (shift poly)^[k] (crc ^^^ symbol.setWidth w)

/-- The symbols side by side in one register, the first lowest. -/
def word : List (BitVec k) → BitVec w
  | [] => 0#w
  | symbol :: symbols => symbol.setWidth w ^^^ (word symbols <<< k)

section Shift

variable {poly : BitVec w}

theorem shift_xor (poly one other : BitVec w) :
    shift poly (one ^^^ other) = shift poly one ^^^ shift poly other := by
  simp only [shift, BitVec.getLsbD_xor, BitVec.ushiftRight_xor_distrib]
  cases one.getLsbD 0 <;> cases other.getLsbD 0 <;>
    simp only [Bool.false_xor, Bool.true_xor, Bool.not_true, Bool.not_false, if_true, if_false,
      Bool.false_eq_true, BitVec.xor_zero]
  · rw [BitVec.xor_assoc]
  · rw [BitVec.xor_assoc, BitVec.xor_assoc, BitVec.xor_comm poly]
  · -- the polynomial is added on both sides and cancels
    rw [BitVec.xor_comm (other >>> 1), BitVec.xor_assoc, ← BitVec.xor_assoc poly, BitVec.xor_self,
      BitVec.zero_xor]

theorem iterate_shift_xor (poly : BitVec w) (n : Nat) (one other : BitVec w) :
    (shift poly)^[n] (one ^^^ other) = (shift poly)^[n] one ^^^ (shift poly)^[n] other := by
  induction n generalizing one other with
  | zero => rfl
  | succ n ih => rw [Function.iterate_succ_apply, shift_xor, ih]; rfl

/-- The top bit of the polynomial brings the lost low bit back. -/
theorem shift_injective (hpoly : poly.msb = true) : Function.Injective (shift poly) := by
  intro one other hsame
  have hbit : ∀ place, (shift poly one).getLsbD place = (shift poly other).getLsbD place := by
    intro place
    rw [hsame]
  have htop : poly.getLsbD (w - 1) = true := by rwa [← BitVec.msb_eq_getLsbD_last]
  have hwidth : w ≠ 0 := by
    rintro rfl
    simp at htop
  have hout : ∀ crc : BitVec w, crc.getLsbD (1 + (w - 1)) = false := fun crc =>
    BitVec.getLsbD_of_ge crc _ (by omega)
  -- nothing is shifted into the top bit, so it says whether the polynomial was added
  have hlow : one.getLsbD 0 = other.getLsbD 0 := by
    have hlast := hbit (w - 1)
    simp only [shift, BitVec.getLsbD_xor, BitVec.getLsbD_ushiftRight, hout, Bool.false_xor] at hlast
    cases hone : one.getLsbD 0 <;> cases hother : other.getLsbD 0 <;>
      simp [hone, hother, htop] at hlast ⊢
  apply BitVec.eq_of_getLsbD_eq
  intro place hplace
  cases place with
  | zero => exact hlow
  | succ place =>
      have hnext := hbit place
      simp only [shift, BitVec.getLsbD_xor, BitVec.getLsbD_ushiftRight, hlow] at hnext
      rw [Nat.add_comm place 1]
      exact Bool.xor_left_inj.mp hnext

/-- A register whose low bits are clear only moves down. -/
theorem iterate_shift_of_clear {n : Nat} {crc : BitVec w}
    (hclear : ∀ place < n, crc.getLsbD place = false) : (shift poly)^[n] crc = crc >>> n := by
  induction n with
  | zero => simp
  | succ n ih =>
      have hlow : (crc >>> n).getLsbD 0 = false := by
        rw [BitVec.getLsbD_ushiftRight, Nat.add_zero]
        exact hclear n (Nat.lt_succ_self n)
      rw [Function.iterate_succ_apply', ih fun place hplace => hclear place (by omega), shift, hlow]
      simp [BitVec.shiftRight_add]

end Shift

section Words

variable {poly : BitVec w}

/-- A word has no bits beyond those of its symbols. -/
theorem getLsbD_word_of_ge {symbols : List (BitVec k)} {place : Nat}
    (hplace : k * symbols.length ≤ place) : (word symbols : BitVec w).getLsbD place = false := by
  induction symbols generalizing place with
  | nil => simp [word]
  | cons symbol symbols ih =>
      rw [List.length_cons, Nat.mul_succ] at hplace
      have hrest : (word symbols : BitVec w).getLsbD (place - k) = false := ih (by omega)
      simp [word, hrest, BitVec.getLsbD_of_ge symbol place (by omega)]

/-- A symbol and the word behind it, moved down past the symbol. -/
theorem word_ushiftRight {symbols : List (BitVec k)} (hfits : k + k * symbols.length ≤ w) :
    ((word symbols : BitVec w) <<< k) >>> k = word symbols := by
  apply BitVec.eq_of_getLsbD_eq
  intro place hplace
  by_cases hroom : k + place < w
  · simp [BitVec.getLsbD_eq_getElem, hplace, hroom]
  · rw [getLsbD_word_of_ge (by omega)]
    simp [BitVec.getLsbD_ushiftRight, BitVec.getLsbD_shiftLeft, hroom]

/-- Symbols that fit the register are taken in as one word. -/
theorem foldl_absorb (crc : BitVec w) {symbols : List (BitVec k)}
    (hfits : k * symbols.length ≤ w) :
    symbols.foldl (absorb poly) crc =
      (shift poly)^[k * symbols.length] (crc ^^^ word symbols) := by
  induction symbols generalizing crc with
  | nil => simp [word]
  | cons symbol symbols ih =>
      rw [List.length_cons, Nat.mul_succ] at hfits ⊢
      -- the later symbols wait above the first one and move down while it is taken in
      have hclear : ∀ place < k, ((word symbols : BitVec w) <<< k).getLsbD place = false := by
        intro place hplace
        simp [hplace]
      rw [List.foldl_cons, ih _ (by omega), Function.iterate_add_apply, word, ← BitVec.xor_assoc,
        iterate_shift_xor poly k, iterate_shift_of_clear hclear, word_ushiftRight (by omega)]
      rfl

theorem word_injective {one other : List (BitVec k)} (hlength : one.length = other.length)
    (hfits : k * one.length ≤ w) (hsame : (word one : BitVec w) = word other) : one = other := by
  induction one generalizing other with
  | nil => exact (List.length_eq_zero_iff.mp hlength.symm).symm
  | cons symbol one ih =>
      cases other with
      | nil => simp at hlength
      | cons another other =>
          rw [List.length_cons, Nat.mul_succ] at hfits
          have hlengths : one.length = other.length := Nat.succ.inj hlength
          have hbit : ∀ place, (word (symbol :: one) : BitVec w).getLsbD place =
              (word (another :: other) : BitVec w).getLsbD place := by
            intro place
            rw [hsame]
          have hhead : symbol = another := by
            apply BitVec.eq_of_getLsbD_eq
            intro place hplace
            have hlow := hbit place
            simpa [word, hplace, show place < w by omega] using hlow
          have htail : (word one : BitVec w) = word other := by
            rw [← @word_ushiftRight w k one (by omega),
              ← @word_ushiftRight w k other (hlengths ▸ by omega)]
            congr 1
            rw [word, word, hhead] at hsame
            exact (BitVec.xor_right_inj _).mp hsame
          rw [hhead, ih hlengths (by omega) htail]

/-- Different symbols that fit the register leave it in different states. -/
theorem foldl_absorb_ne (hpoly : poly.msb = true) (crc : BitVec w) {one other : List (BitVec k)}
    (hlength : one.length = other.length) (hfits : k * one.length ≤ w) (hne : one ≠ other) :
    one.foldl (absorb poly) crc ≠ other.foldl (absorb poly) crc := by
  rw [foldl_absorb crc hfits, foldl_absorb crc (hlength ▸ hfits), hlength]
  intro hsame
  have hword := (shift_injective hpoly).iterate _ hsame
  exact hne (word_injective hlength hfits ((BitVec.xor_right_inj crc).mp hword))

/-- The data taken in later does not bring different states together. -/
theorem foldl_absorb_injective (hpoly : poly.msb = true) (symbols : List (BitVec k)) :
    Function.Injective fun crc => symbols.foldl (absorb poly) crc := by
  induction symbols with
  | nil => exact fun _ _ hsame => hsame
  | cons symbol symbols ih =>
      intro one other hsame
      have hstate := (shift_injective hpoly).iterate k (ih hsame)
      exact (BitVec.xor_left_inj _).mp hstate

/-- A change confined to as many consecutive symbols as fit the register changes
the state it is left in. -/
theorem foldl_absorb_burst (hpoly : poly.msb = true) (crc : BitVec w)
    {one other : List (BitVec k)} (hlength : one.length = other.length)
    (hfits : k * one.length ≤ w) (hne : one ≠ other) (before after : List (BitVec k)) :
    (before ++ one ++ after).foldl (absorb poly) crc ≠
      (before ++ other ++ after).foldl (absorb poly) crc := by
  rw [List.foldl_append, List.foldl_append, List.foldl_append, List.foldl_append]
  intro hsame
  exact foldl_absorb_ne hpoly _ hlength hfits hne (foldl_absorb_injective hpoly after hsame)

end Words

end Onced.Foundation.Crc
