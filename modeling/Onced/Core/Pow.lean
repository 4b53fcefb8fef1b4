import Onced.Core.HashStandard
import Onced.Core.Store

/-! # Proof of work

A challenge is a keyed digest of the client, the request and the current window of time.
A nonce solves it if the digest of both begins with enough zero bits, that is, if it is
a small enough number. The verifier derives the challenges of the current window and of
the one before from their indices, and keeps no state.
-/

namespace Onced.Pow

open Foundation

/-- A challenge as it is issued. -/
structure Challenge where
  challenge : Bytes32
  difficulty : UInt8
  deriving DecidableEq

def buildHmacMessage (identity : String) (windowIndex : UInt64) (requestHash : List UInt8) :
    List UInt8 :=
  utf8 identity ++ leBytes 8 windowIndex.toNat ++ requestHash

/-- The challenge of a window. -/
def deriveChallengeAt (serverSecret : List UInt8) (identity : String) (requestHash : List UInt8)
    (windowIndex : UInt64) : Bytes32 :=
  hmacSha256 serverSecret (buildHmacMessage identity windowIndex requestHash)

/-- `now_ms / window_ms`, which panics on a window of no length. -/
def windowIndex (windowMs nowMs : UInt64) : Except Panic UInt64 :=
  if windowMs = 0 then .error "attempt to divide by zero" else .ok (nowMs / windowMs)

/-- The challenge of the current window. -/
def deriveChallenge (serverSecret : List UInt8) (identity : String) (requestHash : List UInt8)
    (windowMs nowMs : UInt64) : Except Panic Bytes32 :=
  (windowIndex windowMs nowMs).map (deriveChallengeAt serverSecret identity requestHash)

/-- Issue a challenge. -/
def challenge (serverSecret : List UInt8) (identity : String) (requestHash : List UInt8)
    (difficulty : UInt8) (windowMs nowMs : UInt64) : Except Panic Challenge := do
  let value ← deriveChallenge serverSecret identity requestHash windowMs nowMs
  return ⟨value, difficulty⟩

/-- The loop over the bytes of a digest, which stops at the first that is not zero. -/
def countZeroBits (count : Nat) : List UInt8 → Nat
  | [] => count
  | byte :: bytes =>
      if byte = 0 then countZeroBits (count + 8) bytes else count + byte.toBitVec.clz.toNat

def leadingZeroBits (digest : Bytes32) : Nat := countZeroBits 0 digest.toList

def checkSolution (c : Bytes32) (nonceBytes : List UInt8) (difficulty : UInt8) : Bool :=
  difficulty.toNat ≤ leadingZeroBits (sha256 (c.toList ++ nonceBytes))

/-- `u64::saturating_sub(1)`. -/
def precedingIndex (windowIndex : UInt64) : UInt64 :=
  if windowIndex = 0 then 0 else windowIndex - 1

/-- Whether a nonce solves the challenge of the current window or of the preceding one. -/
def verify (serverSecret : List UInt8) (identity : String) (requestHash : List UInt8)
    (difficulty : UInt8) (nonce : UInt64) (windowMs nowMs : UInt64) : Except Panic Bool := do
  let nonceBytes := leBytes 8 nonce.toNat
  let currentIdx ← windowIndex windowMs nowMs
  return [currentIdx, precedingIndex currentIdx].any fun windowIdx =>
    checkSolution (deriveChallengeAt serverSecret identity requestHash windowIdx) nonceBytes
      difficulty

/-! ## Leading zeros -/

/-- A digest as a number of 256 bits, the first byte highest. -/
def digestValue (digest : Bytes32) : Nat := ofBits (bitsOf digest.toList)

theorem countZeroBits_eq (count : Nat) (bytes : List UInt8) :
    countZeroBits count bytes = count + countZeroBits 0 bytes := by
  induction bytes generalizing count with
  | nil => rfl
  | cons byte bytes ih =>
      simp only [countZeroBits]
      split
      next =>
        rw [ih (count + 8), ih (0 + 8)]
        omega
      next => omega

/-- The loop counts at least so many zeros exactly if the number is small enough. -/
theorem le_countZeroBits_iff {bytes : List UInt8} {count : Nat}
    (hcount : count ≤ 8 * bytes.length) :
    count ≤ countZeroBits 0 bytes ↔ ofBits (bitsOf bytes) < 2 ^ (8 * bytes.length - count) := by
  induction bytes generalizing count with
  | nil =>
      obtain rfl : count = 0 := by simpa using hcount
      simp [countZeroBits, ofBits]
  | cons byte bytes ih =>
      rw [List.length_cons, Nat.mul_succ] at hcount
      have hrest : ofBits (bitsOf bytes) < 2 ^ (8 * bytes.length) := by
        have hlt := ofBits_lt (bitsOf bytes)
        rwa [bitsOf_length] at hlt
      have hvalue : ofBits (bitsOf (byte :: bytes)) =
          byte.toNat * 2 ^ (8 * bytes.length) + ofBits (bitsOf bytes) := by
        rw [bitsOf_cons, ofBits_append, ofBits_toBits, Nat.mod_eq_of_lt byte.toNat_lt,
          bitsOf_length]
      rw [hvalue, List.length_cons, Nat.mul_succ, countZeroBits]
      split
      next hzero =>
        -- the byte adds nothing to the number, and eight bits to the count
        subst hzero
        rw [countZeroBits_eq, UInt8.toNat_zero, Nat.zero_mul, Nat.zero_add, Nat.zero_add]
        by_cases hfew : count ≤ 8
        · refine iff_of_true (by omega) (Nat.lt_of_lt_of_le hrest ?_)
          exact Nat.pow_le_pow_right (by decide) (by omega)
        · have hmore := @ih (count - 8) (by omega)
          rw [show 8 * bytes.length + 8 - count = 8 * bytes.length - (count - 8) by omega, ← hmore]
          omega
      next hbyte =>
        have hpos : 0 < byte.toNat := by
          rw [Nat.pos_iff_ne_zero]
          exact fun hzero => hbyte (UInt8.toNat_inj.mp hzero)
        rw [Nat.zero_add]
        by_cases hfew : count ≤ 8
        · have hwidth : 8 * bytes.length + 8 - count = 8 * bytes.length + (8 - count) := by omega
          rw [le_clz_iff hfew, hwidth, pow_add, mul_comm (2 ^ (8 * bytes.length))]
          change byte.toNat < _ ↔ _
          constructor
          · intro hsmall
            nlinarith [Nat.mul_le_mul_right (2 ^ (8 * bytes.length)) (Nat.succ_le_of_lt hsmall)]
          · intro hsmall
            by_contra hlarge
            have := Nat.mul_le_mul_right (2 ^ (8 * bytes.length)) (Nat.not_lt.mp hlarge)
            omega
        · -- the byte is not zero, so the number reaches into it
          have hclz : ¬ 8 ≤ byte.toBitVec.clz.toNat := by
            rw [le_clz_iff (le_refl 8)]
            change ¬ byte.toNat < 1
            omega
          refine iff_of_false (by omega) ?_
          have hpower : 2 ^ (8 * bytes.length + 8 - count) ≤ 2 ^ (8 * bytes.length) :=
            Nat.pow_le_pow_right (by decide) (by omega)
          have := Nat.mul_le_mul_right (2 ^ (8 * bytes.length)) hpos
          omega

/-- A nonce solves a challenge if the digest of both is a small enough number. -/
def Challenge.Solved (issued : Challenge) (nonce : UInt64) : Prop :=
  digestValue (sha256 (issued.challenge.toList ++ leBytes 8 nonce.toNat)) <
    2 ^ (256 - issued.difficulty.toNat)

theorem checkSolution_iff (c : Bytes32) (nonce : UInt64) (difficulty : UInt8) :
    checkSolution c (leBytes 8 nonce.toNat) difficulty = true ↔
      Challenge.Solved ⟨c, difficulty⟩ nonce := by
  have hlength : (sha256 (c.toList ++ leBytes 8 nonce.toNat)).toList.length = 32 :=
    List.Vector.toList_length _
  have hdifficulty := difficulty.toNat_lt
  rw [checkSolution, decide_eq_true_iff, leadingZeroBits, le_countZeroBits_iff (by omega), hlength]
  rfl

/-! ## Windows -/

section Windows

variable (serverSecret : List UInt8) (identity : String) (requestHash : List UInt8)
  (difficulty : UInt8) (nonce : UInt64) {windowMs : UInt64} (nowMs : UInt64)

/-- A challenge issued at a time is in force in its window and in the following one. -/
def InForce (windowMs issuedMs nowMs : UInt64) : Prop :=
  issuedMs.toNat / windowMs.toNat = nowMs.toNat / windowMs.toNat ∨
    issuedMs.toNat / windowMs.toNat + 1 = nowMs.toNat / windowMs.toNat

theorem windowIndex_eq (hwindow : 1 ≤ windowMs) :
    windowIndex windowMs nowMs = .ok (nowMs / windowMs) := by
  have hpos : windowMs ≠ 0 := by
    rintro rfl
    exact absurd hwindow (by decide)
  exact if_neg hpos

theorem challenge_eq (hwindow : 1 ≤ windowMs) :
    challenge serverSecret identity requestHash difficulty windowMs nowMs =
      .ok ⟨deriveChallengeAt serverSecret identity requestHash (nowMs / windowMs), difficulty⟩ := by
  rw [challenge, deriveChallenge, windowIndex_eq nowMs hwindow]
  rfl

/-- The verifier accepts a solution of the challenge of one of its two windows. -/
theorem verify_iff (hwindow : 1 ≤ windowMs) :
    verify serverSecret identity requestHash difficulty nonce windowMs nowMs = .ok true ↔
      ∃ windowIdx ∈ [nowMs / windowMs, precedingIndex (nowMs / windowMs)],
        Challenge.Solved ⟨deriveChallengeAt serverSecret identity requestHash windowIdx, difficulty⟩
          nonce := by
  simp only [← checkSolution_iff, ← List.any_eq_true]
  rw [verify, windowIndex_eq nowMs hwindow]
  exact Iff.of_eq (Except.ok.injEq _ _)

/-- The two windows of the verifier are those of the challenges in force. -/
theorem mem_windows_iff (hwindow : 1 ≤ windowMs) (windowIdx : UInt64) :
    windowIdx ∈ [nowMs / windowMs, precedingIndex (nowMs / windowMs)] ↔
      ∃ issuedMs, InForce windowMs issuedMs nowMs ∧ issuedMs / windowMs = windowIdx := by
  have hpos : 1 ≤ windowMs.toNat := UInt64.le_iff_toNat_le.mp hwindow
  simp only [List.mem_cons, List.not_mem_nil, or_false, InForce, ← UInt64.toNat_div]
  constructor
  · rintro (rfl | rfl)
    · exact ⟨nowMs, .inl rfl, rfl⟩
    · unfold precedingIndex
      split
      next hzero => exact ⟨nowMs, .inl rfl, hzero⟩
      next hzero =>
        -- a window before the current one began a whole window earlier
        have hidx : (nowMs / windowMs).toNat ≠ 0 := fun h => hzero (UInt64.toNat_inj.mp h)
        have hle : windowMs ≤ nowMs := by
          rw [UInt64.toNat_div] at hidx
          rw [UInt64.le_iff_toNat_le]
          by_contra hlt
          exact hidx (Nat.div_eq_of_lt (by omega))
        have hstep : (nowMs - windowMs).toNat / windowMs.toNat + 1 = (nowMs / windowMs).toNat := by
          rw [UInt64.toNat_sub_of_le _ _ hle, UInt64.toNat_div]
          exact (Nat.div_eq_sub_div hpos (UInt64.le_iff_toNat_le.mp hle)).symm
        have hone : 1 ≤ nowMs / windowMs :=
          UInt64.le_iff_toNat_le.mpr (Nat.one_le_iff_ne_zero.mpr hidx)
        refine ⟨nowMs - windowMs, .inr (by rwa [UInt64.toNat_div]), UInt64.toNat_inj.mp ?_⟩
        rw [UInt64.toNat_sub_of_le _ _ hone, UInt64.toNat_div (nowMs - windowMs)]
        exact Nat.eq_sub_of_add_eq hstep
  · rintro ⟨issuedMs, hforce | hforce, rfl⟩
    · exact .inl (UInt64.toNat_inj.mp hforce)
    · have hzero : nowMs / windowMs ≠ 0 := by
        intro h
        rw [h] at hforce
        exact absurd hforce (Nat.succ_ne_zero _)
      refine .inr (UInt64.toNat_inj.mp ?_)
      rw [precedingIndex, if_neg hzero, UInt64.toNat_sub_of_le, ← hforce]
      · rfl
      · rw [UInt64.le_iff_toNat_le, ← hforce]
        exact Nat.le_add_left 1 _

/-- A challenge stays in force until the end of the window after its own. -/
theorem inForce_of_le {issuedMs : UInt64} (hwindow : 1 ≤ windowMs) (hissued : issuedMs ≤ nowMs)
    (hend : nowMs.toNat ≤ (issuedMs.toNat / windowMs.toNat + 2) * windowMs.toNat - 1) :
    InForce windowMs issuedMs nowMs := by
  have hpos : 1 ≤ windowMs.toNat := UInt64.le_iff_toNat_le.mp hwindow
  have hfrom : issuedMs.toNat / windowMs.toNat ≤ nowMs.toNat / windowMs.toNat :=
    Nat.div_le_div_right (UInt64.le_iff_toNat_le.mp hissued)
  have hto : nowMs.toNat / windowMs.toNat < issuedMs.toNat / windowMs.toNat + 2 := by
    rw [Nat.div_lt_iff_lt_mul hpos]
    have : 0 < (issuedMs.toNat / windowMs.toNat + 2) * windowMs.toNat :=
      Nat.mul_pos (Nat.succ_pos _) hpos
    omega
  unfold InForce
  omega

theorem Challenge.Solved.mono {c : Bytes32} {lower : UInt8} (hlower : lower ≤ difficulty)
    (hsolved : Challenge.Solved ⟨c, difficulty⟩ nonce) : Challenge.Solved ⟨c, lower⟩ nonce := by
  refine Nat.lt_of_lt_of_le hsolved (Nat.pow_le_pow_right (by decide) ?_)
  exact Nat.sub_le_sub_left (UInt8.le_iff_toNat_le.mp hlower) 256

/-- A nonce is accepted if and only if it solves a challenge in force. So a solution is
accepted from the time of issue to the end of the following window, and at every lower
difficulty; and on a window of some length verification does not panic. -/
theorem verify_matches_issuance (hwindow : 1 ≤ windowMs) :
    (∃ accepted,
      verify serverSecret identity requestHash difficulty nonce windowMs nowMs = .ok accepted) ∧
    (verify serverSecret identity requestHash difficulty nonce windowMs nowMs = .ok true ↔
      ∃ issuedMs issued, InForce windowMs issuedMs nowMs ∧
        challenge serverSecret identity requestHash difficulty windowMs issuedMs = .ok issued ∧
        issued.Solved nonce) ∧
    (∀ issuedMs issued,
      challenge serverSecret identity requestHash difficulty windowMs issuedMs = .ok issued →
      issued.Solved nonce → issuedMs ≤ nowMs →
      nowMs.toNat ≤ (issuedMs.toNat / windowMs.toNat + 2) * windowMs.toNat - 1 →
      verify serverSecret identity requestHash difficulty nonce windowMs nowMs = .ok true) ∧
    ∀ lower ≤ difficulty,
      verify serverSecret identity requestHash difficulty nonce windowMs nowMs = .ok true →
      verify serverSecret identity requestHash lower nonce windowMs nowMs = .ok true := by
  have hiff :
      verify serverSecret identity requestHash difficulty nonce windowMs nowMs = .ok true ↔
        ∃ issuedMs issued, InForce windowMs issuedMs nowMs ∧
          challenge serverSecret identity requestHash difficulty windowMs issuedMs = .ok issued ∧
          issued.Solved nonce := by
    rw [verify_iff _ _ _ _ _ _ hwindow]
    simp only [mem_windows_iff nowMs hwindow, challenge_eq _ _ _ _ _ hwindow, Except.ok.injEq]
    constructor
    · rintro ⟨_, ⟨issuedMs, hforce, rfl⟩, hsolved⟩
      exact ⟨issuedMs, _, hforce, rfl, hsolved⟩
    · rintro ⟨issuedMs, _, hforce, rfl, hsolved⟩
      exact ⟨_, ⟨issuedMs, hforce, rfl⟩, hsolved⟩
  refine ⟨?_, hiff, ?_, ?_⟩
  · rw [verify, windowIndex_eq nowMs hwindow]
    exact ⟨_, rfl⟩
  · intro issuedMs issued hissued hsolved hfrom hend
    exact hiff.mpr ⟨issuedMs, issued, inForce_of_le nowMs hwindow hfrom hend, hissued, hsolved⟩
  · intro lower hlower haccepted
    rw [verify_iff _ _ _ _ _ _ hwindow] at haccepted ⊢
    obtain ⟨windowIdx, hmem, hsolved⟩ := haccepted
    exact ⟨windowIdx, hmem, hsolved.mono difficulty nonce hlower⟩

end Windows

/-- The first nonce after which the digest begins with four zeros. It is accepted up to the last
instant of the following window, there also where only two zeros are asked for. -/
theorem verify_matches_issuance_solved :
    verify [1, 2, 3] "192.168.1.1" [0xAB] 4 31 60000 1079999 = .ok true ∧
      verify [1, 2, 3] "192.168.1.1" [0xAB] 2 31 60000 1079999 = .ok true := by
  have hissued := challenge_eq [1, 2, 3] "192.168.1.1" [0xAB] 4 1000000
    (show (1 : UInt64) ≤ 60000 by decide)
  have hsolved : checkSolution (deriveChallengeAt [1, 2, 3] "192.168.1.1" [0xAB] (1000000 / 60000))
      (leBytes 8 (31 : UInt64).toNat) 4 = true := by decide +kernel
  obtain ⟨-, -, hinForce, hlower⟩ := verify_matches_issuance [1, 2, 3] "192.168.1.1" [0xAB] 4 31
    1079999 (show (1 : UInt64) ≤ 60000 by decide)
  have haccepted := hinForce 1000000 _ hissued ((checkSolution_iff _ _ _).mp hsolved) (by decide)
    (by decide)
  exact ⟨haccepted, hlower 2 (by decide) haccepted⟩

end Onced.Pow
