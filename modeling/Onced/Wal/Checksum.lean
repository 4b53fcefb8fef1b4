import Onced.Foundation.Crc
import Onced.Wal.Codec

/-! # What the checksum notices

The bitwise loop of the record checksum is a cyclic redundancy register of 32
bits, so data of one length that differ in at most four consecutive bytes have
different checksums.
-/

namespace Onced.Wal

open Foundation

/-- The reflected polynomial of the checksum. -/
def polynomial : BitVec 32 := 0xEDB88320#32

theorem toBitVec_crcBit (crc : UInt32) :
    (crcBit crc).toBitVec = Crc.shift polynomial crc.toBitVec := by
  have hlow : (crc &&& 1).toBitVec = (BitVec.ofBool (crc.toBitVec.getLsbD 0)).setWidth 32 :=
    BitVec.and_one_eq_setWidth_ofBool_getLsbD
  have hmask : (0xEDB88320 &&& (0 - (crc &&& 1)) : UInt32).toBitVec =
      if crc.toBitVec.getLsbD 0 then polynomial else 0#32 := by
    rw [UInt32.toBitVec_and, UInt32.toBitVec_sub, hlow]
    cases crc.toBitVec.getLsbD 0 <;> decide
  rw [crcBit, UInt32.toBitVec_xor, hmask, Crc.shift]
  rfl

theorem toBitVec_repeat_crcBit (n : Nat) (crc : UInt32) :
    (Nat.repeat crcBit n crc).toBitVec = (Crc.shift polynomial)^[n] crc.toBitVec := by
  induction n with
  | zero => rfl
  | succ n ih => rw [Nat.repeat, toBitVec_crcBit, ih, Function.iterate_succ_apply']

theorem toBitVec_foldl_crcByte (data : List UInt8) (crc : UInt32) :
    (data.foldl crcByte crc).toBitVec =
      (data.map UInt8.toBitVec).foldl (Crc.absorb polynomial) crc.toBitVec := by
  induction data generalizing crc with
  | nil => rfl
  | cons byte data ih =>
      rw [List.foldl_cons, ih, crcByte, toBitVec_repeat_crcBit]
      rfl

/-- The checksum tells apart data that differ in at most four consecutive bytes. -/
theorem crc32_burst_ne {one other : List UInt8} (hlength : one.length = other.length)
    (hfour : one.length ≤ 4) (hne : one ≠ other) (before after : List UInt8) :
    crc32 (before ++ one ++ after) ≠ crc32 (before ++ other ++ after) := by
  intro hsame
  have hstate := congrArg UInt32.toBitVec (UInt32.not_inj.mp hsame)
  rw [toBitVec_foldl_crcByte, toBitVec_foldl_crcByte] at hstate
  simp only [List.map_append] at hstate
  refine Crc.foldl_absorb_burst (by decide) _ (by simpa using hlength) ?_ ?_ _ _ hstate
  · rw [List.length_map]
    omega
  · intro hbytes
    exact hne (List.map_injective_iff.mpr (fun _ _ => UInt8.toBitVec_inj.mp) hbytes)

theorem crc32_substituted_ne {one other : UInt8} (hne : one ≠ other) (before after : List UInt8) :
    crc32 (before ++ one :: after) ≠ crc32 (before ++ other :: after) := by
  have hburst := @crc32_burst_ne [one] [other] rfl (by simp) (by simpa using hne) before after
  simpa using hburst

/-- Bytes of one length that agree outside four consecutive places from `start` on. -/
structure Confined (start : Nat) (one other : List UInt8) : Prop where
  length : one.length = other.length
  outside : ∀ place, place < start ∨ start + 4 ≤ place → one[place]? = other[place]?

namespace Confined

variable {start : Nat} {one other : List UInt8}

/-- The bytes before the four are the same. -/
theorem take_eq (hconfined : Confined start one other) {count : Nat} (hcount : count ≤ start) :
    one.take count = other.take count := by
  apply List.ext_getElem?
  intro place
  by_cases hplace : place < count
  · rw [List.getElem?_take_of_lt hplace, List.getElem?_take_of_lt hplace,
      hconfined.outside place (Or.inl (by omega))]
  · rw [List.getElem?_take_eq_none (by omega), List.getElem?_take_eq_none (by omega)]

/-- The bytes after the four are the same. -/
theorem drop_eq (hconfined : Confined start one other) {count : Nat} (hcount : start + 4 ≤ count) :
    one.drop count = other.drop count := by
  apply List.ext_getElem?
  intro place
  rw [List.getElem?_drop, List.getElem?_drop, hconfined.outside _ (Or.inr (by omega))]

/-- The bytes from some place on are altered in four consecutive places too. -/
theorem drop (hconfined : Confined start one other) (count : Nat) :
    Confined (start - count) (one.drop count) (other.drop count) := by
  refine ⟨by rw [List.length_drop, List.length_drop, hconfined.length], ?_⟩
  intro place hplace
  rw [List.getElem?_drop, List.getElem?_drop, hconfined.outside]
  omega

/-- The bytes before the four, the four and the bytes after them. -/
theorem take_append_four (bytes : List UInt8) (place : Nat) :
    bytes.take place ++ (bytes.drop place).take 4 ++ bytes.drop (place + 4) = bytes := by
  rw [List.append_assoc, ← List.drop_drop, List.take_append_drop, List.take_append_drop]

/-- Unless nothing was altered, the checksums differ. -/
theorem crc32_ne (hconfined : Confined start one other) (hne : one ≠ other) :
    crc32 one ≠ crc32 other := by
  have hbefore := hconfined.take_eq (le_refl start)
  have hafter := hconfined.drop_eq (le_refl (start + 4))
  have hwindow : (one.drop start).take 4 ≠ (other.drop start).take 4 := by
    intro hsame
    rw [← take_append_four one start, ← take_append_four other start, hbefore, hsame, hafter] at hne
    contradiction
  have hburst := crc32_burst_ne (by simp [hconfined.length]) (by simp) hwindow (one.take start)
    (one.drop (start + 4))
  rwa [take_append_four, hbefore, hafter, take_append_four] at hburst

end Confined

end Onced.Wal
