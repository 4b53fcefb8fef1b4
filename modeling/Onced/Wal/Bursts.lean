import Onced.Wal.Checksum
import Onced.Wal.CodecLaws

/-! # Damage within four consecutive bytes

Four consecutive bytes of a record lie in its length and checksum, in its
checksum and chain, or in its chain and payload. The checksum covers the payload
only, so an altered length is left to the parser, which finds a shortened
payload cut off; an altered chain field is not the business of the decoder.
-/

namespace Onced.Wal

open Foundation

section Fields

variable {lenBytes crcBytes : List UInt8} (hlen : lenBytes.length = 4) (hcrc : crcBytes.length = 4)

include hlen hcrc

theorem take_header (rest : List UInt8) :
    (lenBytes ++ (crcBytes ++ rest)).take 8 = lenBytes ++ crcBytes := by
  rw [← List.append_assoc]
  exact List.take_left' (by simp [hlen, hcrc])

theorem drop_header {chainBytes : List UInt8} (hchain : chainBytes.length = 32)
    (payload : List UInt8) :
    (lenBytes ++ (crcBytes ++ (chainBytes ++ payload))).drop headerLen = payload := by
  rw [← List.append_assoc, ← List.append_assoc]
  exact List.drop_left' (by simp [headerLen, hlen, hcrc, hchain])

end Fields

section Damaged

variable {key : IdempotencyKey} {state : KeyState}
variable {lenBytes crcBytes chainBytes payload : List UInt8}
variable (hlen : lenBytes.length = 4) (hcrc : crcBytes.length = 4)
variable (hchain : chainBytes.length = 32)

include hlen hcrc hchain

/-- Whatever its header says, an intact payload decodes to its own entry. -/
theorem decodeRecord_intact (hfits : Fits (key, state)) {decoded : Decoded}
    (hdecoded : decodeRecord (lenBytes ++ (crcBytes ++ (chainBytes ++ encodePayload key state))) =
      some decoded) : decoded.entry = (key, state) := by
  obtain ⟨next, hrun, -⟩ := Reader.entry_consumes hfits.entryFits
    (Reader.new (encodePayload key state)) [] (by simp [Reader.new, Reader.remaining])
  rw [decodeRecord_header _ hlen hcrc hchain] at hdecoded
  split at hdecoded
  next hframe =>
    by_cases hwhole : (encodePayload key state).take (ofLeBytes lenBytes) = encodePayload key state
    · rw [hwhole, hrun] at hdecoded
      cases hdecoded
      rfl
    · -- a smaller length leaves the parser with a payload that is cut short
      rw [Reader.entry_rejects_strict hfits.entryFits (List.take_prefix _ _) hwhole] at hdecoded
      cases hdecoded
  next => cases hdecoded

/-- A damaged payload under an intact length and checksum is refused. -/
theorem decodeRecord_damaged (hlength : ofLeBytes lenBytes = payload.length)
    (hchecksum : UInt32.ofNat (ofLeBytes crcBytes) = crc32 (encodePayload key state)) {start : Nat}
    (hconfined : Confined start payload (encodePayload key state))
    (hne : payload ≠ encodePayload key state) :
    decodeRecord (lenBytes ++ (crcBytes ++ (chainBytes ++ payload))) = none := by
  rw [decodeRecord_header _ hlen hcrc hchain, hlength, List.take_length, hchecksum]
  exact if_neg fun hframe => hconfined.crc32_ne hne hframe.2

end Damaged

/-- A record altered in at most four consecutive bytes decodes to nothing, or to the
entry that was written. -/
theorem burst_detected {key : IdempotencyKey} {state : KeyState}
    (hfits : (encodePayload key state).length < 2 ^ 32) (prevChain : Bytes32) {start : Nat}
    {altered : List UInt8} (hconfined : Confined start altered (encodeRecord key state prevChain)) :
    decodeRecord altered = none ∨
      ∃ decoded, decodeRecord altered = some decoded ∧ decoded.entry = (key, state) := by
  cases hdecoded : decodeRecord altered with
  | none => exact Or.inl rfl
  | some decoded =>
      refine Or.inr ⟨decoded, rfl, ?_⟩
      have hlong : headerLen ≤ altered.length := by
        rw [hconfined.length, encodeRecord_length]
        exact Nat.le_add_right _ _
      obtain ⟨lenBytes, crcBytes, chainBytes, payload, hlen, hcrc, hchain, rfl⟩ :=
        exists_header hlong
      rw [encodeRecord_eq] at hconfined
      have hpayload := hconfined.drop headerLen
      rw [drop_header hlen hcrc hchain, drop_header (leBytes_length _ _) (leBytes_length _ _)
        (List.Vector.toList_length _)] at hpayload
      by_cases hintact : payload = encodePayload key state
      · rw [hintact] at hdecoded
        exact decodeRecord_intact hlen hcrc hchain hfits hdecoded
      -- damage that reaches the payload starts behind the checksum
      have hstart : 8 ≤ start := by
        by_contra hearly
        have hsame := hconfined.drop_eq (show start + 4 ≤ headerLen by simp [headerLen]; omega)
        rw [drop_header hlen hcrc hchain, drop_header (leBytes_length _ _) (leBytes_length _ _)
          (List.Vector.toList_length _)] at hsame
        contradiction
      have hfront := hconfined.take_eq hstart
      rw [take_header hlen hcrc, take_header (leBytes_length _ _) (leBytes_length _ _)] at hfront
      obtain ⟨rfl, rfl⟩ := List.append_inj hfront (by simp [hlen])
      have hlength := (ofLeBytes_length_field hfits).trans hpayload.length.symm
      rw [decodeRecord_damaged hlen hcrc hchain hlength (ofLeBytes_crc_field _) hpayload
        hintact] at hdecoded
      contradiction

/-- The record of a lock, with one byte of its fence overwritten. -/
theorem burst_detected_fence :
    decodeRecord ((encodeRecord ⟨"k"⟩ (.inProgress ⟨1⟩ ⟨genesis⟩ 30000) genesis).set 46 2) = none ∨
      ∃ decoded, decodeRecord ((encodeRecord ⟨"k"⟩ (.inProgress ⟨1⟩ ⟨genesis⟩ 30000)
        genesis).set 46 2) = some decoded ∧
        decoded.entry = (⟨"k"⟩, .inProgress ⟨1⟩ ⟨genesis⟩ 30000) := by
  refine @burst_detected ⟨"k"⟩ (.inProgress ⟨1⟩ ⟨genesis⟩ 30000) (by decide) genesis 46 _
    ⟨List.length_set, fun place hplace => List.getElem?_set_ne ?_⟩
  omega

end Onced.Wal
