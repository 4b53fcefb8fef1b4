import Mathlib

/-! # Words xored with shifted copies of themselves

The steps of a xorshift generator. A nonzero word differs from each of its
shifted copies, so no two words are sent to the same word.
-/

namespace Onced.Foundation

variable {width distance : Nat}

theorem eq_zero_of_shiftLeft_eq {word : BitVec width} (hpos : 0 < distance)
    (hword : word <<< distance = word) : word = 0 := by
  apply BitVec.eq_of_getLsbD_eq
  intro i hi
  -- a bit is the one `distance` places below it, and below the lowest are zeros
  induction i using Nat.strong_induction_on with
  | _ i ih =>
      rw [← hword, BitVec.getLsbD_shiftLeft]
      by_cases hlow : i < distance
      · simp [hlow]
      · rw [ih (i - distance) (by omega) (by omega)]
        simp

theorem eq_zero_of_ushiftRight_eq {word : BitVec width} (hpos : 0 < distance)
    (hword : word >>> distance = word) : word = 0 := by
  apply BitVec.eq_of_getLsbD_eq
  intro i hi
  induction hrest : width - i using Nat.strong_induction_on generalizing i with
  | _ rest ih =>
      rw [← hword, BitVec.getLsbD_ushiftRight]
      by_cases hhigh : distance + i < width
      · rw [ih (width - (distance + i)) (by omega) (distance + i) hhigh rfl]
        simp
      · simp [BitVec.getLsbD_of_ge _ _ (Nat.le_of_not_lt hhigh)]

/-- Xoring with a copy under a map that respects xor and fixes only zero is injective. -/
theorem xor_copy_injective {copy : BitVec width → BitVec width}
    (hxor : ∀ word other, copy (word ^^^ other) = copy word ^^^ copy other)
    (hfixed : ∀ word, copy word = word → word = 0) :
    Function.Injective fun word => word ^^^ copy word := by
  intro word other hsame
  have hsum : copy (word ^^^ other) = word ^^^ other := by
    apply BitVec.xor_eq_zero_iff.mp
    calc copy (word ^^^ other) ^^^ (word ^^^ other)
        = word ^^^ copy word ^^^ (other ^^^ copy other) := by rw [hxor]; ac_rfl
      _ = 0 := BitVec.xor_eq_zero_iff.mpr hsame
  exact BitVec.xor_eq_zero_iff.mp (hfixed _ hsum)

theorem xor_shiftLeft_injective (hpos : 0 < distance) :
    Function.Injective fun word : BitVec width => word ^^^ (word <<< distance) :=
  xor_copy_injective (fun word other => BitVec.shiftLeft_xor_distrib word other distance)
    fun _ hword => eq_zero_of_shiftLeft_eq hpos hword

theorem xor_ushiftRight_injective (hpos : 0 < distance) :
    Function.Injective fun word : BitVec width => word ^^^ (word >>> distance) :=
  xor_copy_injective (fun word other => BitVec.ushiftRight_xor_distrib word other distance)
    fun _ hword => eq_zero_of_ushiftRight_eq hpos hword

end Onced.Foundation
