import Onced.Core.Hash
import Onced.Foundation.Hmac
import Onced.Foundation.SecureHash

/-! # The digest and its standard

The loops of the source against the standard, layer by layer: the constants, the
padding, the schedule written into an array, the working array that is shifted in place,
and the fold over the blocks.
-/

namespace Onced

open Foundation

/-! ## Constants -/

/-- A word between the two powers that a root lies between. -/
theorem rootFraction_word {degree n whole : Nat} {word : UInt32} (hdegree : degree ≠ 0)
    (hlow : (whole * 2 ^ 32 + word.toNat) ^ degree ≤ (2 ^ 32) ^ degree * n)
    (hhigh : (2 ^ 32) ^ degree * n < (whole * 2 ^ 32 + word.toNat + 1) ^ degree) :
    word.toBitVec = SecureHash.rootFraction degree n := by
  rw [SecureHash.rootFraction_eq hdegree hlow hhigh]
  apply BitVec.eq_of_toNat_eq
  rw [BitVec.toNat_ofNat, Nat.add_comm, Nat.add_mul_mod_self_right]
  exact (Nat.mod_eq_of_lt word.toNat_lt).symm

theorem roundConstants_eq {t : Nat} (ht : t < 64) :
    roundConstants[t]!.toBitVec = SecureHash.constant t := by
  -- the whole part of a cube root is below seven, and the word is the fraction
  have hroots : ∀ t < 64, ∃ whole < 7,
      (whole * 2 ^ 32 + roundConstants[t]!.toNat) ^ 3 ≤
          (2 ^ 32) ^ 3 * SecureHash.primes.getD t 0 ∧
        (2 ^ 32) ^ 3 * SecureHash.primes.getD t 0 <
          (whole * 2 ^ 32 + roundConstants[t]!.toNat + 1) ^ 3 := by decide +kernel
  obtain ⟨whole, -, hlow, hhigh⟩ := hroots t ht
  exact rootFraction_word (by decide) hlow hhigh

/-- The working array as the variables of the standard. -/
def workingVariables (v : Vector UInt32 8) : SecureHash.Variables :=
  ⟨(v.get 0).toBitVec, (v.get 1).toBitVec, (v.get 2).toBitVec, (v.get 3).toBitVec,
    (v.get 4).toBitVec, (v.get 5).toBitVec, (v.get 6).toBitVec, (v.get 7).toBitVec⟩

theorem workingVariables_hInit : workingVariables hInit = SecureHash.initial := by
  ext1
  · exact @rootFraction_word 2 2 1 hInit[0] (by decide) (by decide) (by decide)
  · exact @rootFraction_word 2 3 1 hInit[1] (by decide) (by decide) (by decide)
  · exact @rootFraction_word 2 5 2 hInit[2] (by decide) (by decide) (by decide)
  · exact @rootFraction_word 2 7 2 hInit[3] (by decide) (by decide) (by decide)
  · exact @rootFraction_word 2 11 3 hInit[4] (by decide) (by decide) (by decide)
  · exact @rootFraction_word 2 13 3 hInit[5] (by decide) (by decide) (by decide)
  · exact @rootFraction_word 2 17 4 hInit[6] (by decide) (by decide) (by decide)
  · exact @rootFraction_word 2 19 4 hInit[7] (by decide) (by decide) (by decide)

/-! ## Padding -/

/-- The padding loop pushes the fewest zeros that leave room for the length. -/
theorem padZeros_eq (message : List UInt8) :
    padZeros message = message ++ List.replicate ((120 - message.length % 64) % 64) 0 := by
  induction message using padZeros.induct with
  | case1 message hmore ih =>
      have hcount : (120 - message.length % 64) % 64 =
          (120 - (message ++ [0]).length % 64) % 64 + 1 := by
        rw [List.length_append, List.length_singleton]
        omega
      rw [padZeros, if_pos hmore, ih, hcount, List.replicate_succ, List.append_assoc]
      rfl
  | case2 message hdone =>
      have hcount : (120 - message.length % 64) % 64 = 0 := by omega
      rw [padZeros, if_neg hdone, hcount, List.replicate_zero, List.append_nil]

/-- The padded message in one piece. -/
theorem paddedMessage_eq (data : List UInt8) :
    paddedMessage data = data ++ 0x80 :: List.replicate ((120 - (data.length + 1) % 64) % 64) 0 ++
      beBytes 8 (UInt64.ofNat data.length * 8).toNat := by
  rw [paddedMessage, padZeros_eq, List.length_append, List.length_singleton, List.append_assoc data]
  rfl

theorem paddedMessage_length_mod (data : List UInt8) : (paddedMessage data).length % 64 = 0 := by
  rw [paddedMessage_eq]
  simp only [List.length_append, List.length_cons, List.length_replicate, beBytes_length]
  omega

theorem bitLen_toNat {data : List UInt8} (hdata : data.length < 2 ^ 61) :
    (UInt64.ofNat data.length * 8).toNat = 8 * data.length := by
  rw [UInt64.toNat_mul, UInt64.toNat_ofNat_of_lt' (Nat.lt_trans hdata (by decide))]
  change data.length * 8 % 2 ^ 64 = _
  omega

theorem bitsOf_paddedMessage {data : List UInt8} (hdata : data.length < 2 ^ 61) :
    bitsOf (paddedMessage data) = SecureHash.pad (bitsOf data) := by
  have hzeros : SecureHash.zeros (8 * data.length) =
      7 + 8 * ((120 - (data.length + 1) % 64) % 64) :=
    SecureHash.zeros_eq (by omega) (by omega)
  have hone : toBits 8 (0x80 : UInt8).toNat = true :: List.replicate 7 false := rfl
  rw [paddedMessage_eq, bitLen_toNat hdata, SecureHash.pad, bitsOf_length, hzeros,
    List.replicate_add]
  simp only [bitsOf_append, bitsOf_cons, hone, bitsOf_replicate_zero, bitsOf_beBytes,
    List.cons_append]

/-- The length at the end tells messages of different lengths apart. -/
theorem paddedMessage_injective {one other : List UInt8} (hone : one.length < 2 ^ 61)
    (hother : other.length < 2 ^ 61) (hsame : paddedMessage one = paddedMessage other) :
    one = other := by
  rw [paddedMessage_eq, paddedMessage_eq, bitLen_toNat hone, bitLen_toNat hother] at hsame
  obtain ⟨hfront, hlengths⟩ := List.append_inj' hsame (by simp)
  have hlength : one.length = other.length := by
    have hvalue := congrArg (fun bytes => ofLeBytes bytes.reverse) hlengths
    simp only [beBytes, List.reverse_reverse, ofLeBytes_leBytes] at hvalue
    omega
  exact (List.append_inj hfront hlength).1

/-! ## Blocks -/

/-- The blocks by their numbers. -/
theorem chunksExact64_eq (message : List UInt8) :
    chunksExact64 message =
      (List.range (message.length / 64)).map fun i => (message.drop (64 * i)).take 64 := by
  induction message using chunksExact64.induct with
  | case1 message hlong ih =>
      have hcount : message.length / 64 = (message.drop 64).length / 64 + 1 := by
        rw [List.length_drop]
        omega
      rw [chunksExact64, if_pos hlong, ih, hcount, List.range_succ_eq_map, List.map_cons,
        List.map_map]
      congr 1
      apply List.map_congr_left
      intro i _
      simp only [Function.comp_apply, List.drop_drop]
      congr 2
      omega
  | case2 message hshort =>
      have hcount : message.length / 64 = 0 := by omega
      rw [chunksExact64, if_neg hshort, hcount]
      rfl

/-- A padded message has no bytes beyond its blocks. -/
theorem flatten_chunksExact64 {message : List UInt8} (hblocks : message.length % 64 = 0) :
    (chunksExact64 message).flatten = message := by
  induction message using chunksExact64.induct with
  | case1 message hlong ih =>
      rw [List.length_drop] at ih
      rw [chunksExact64, if_pos hlong, List.flatten_cons, ih (by omega), List.take_append_drop]
  | case2 message hshort =>
      have hempty : message = [] := List.length_eq_zero_iff.mp (by omega)
      rw [chunksExact64, if_neg hshort, hempty]
      rfl

theorem blockWord_eq (message : List UInt8) (i : Nat) {j : Nat} (hj : j < 16) :
    (blockWord ((message.drop (64 * i)).take 64) j).toBitVec =
      SecureHash.blockWord (bitsOf message) i j := by
  have hbytes : (((message.drop (64 * i)).take 64).drop (j * 4)).take 4 =
      (message.drop (64 * i + 4 * j)).take 4 := by
    rw [List.drop_take, List.take_take, List.drop_drop, Nat.mul_comm j]
    congr 1
    omega
  have hstart : 8 * (64 * i + 4 * j) = 512 * i + 32 * j := by omega
  rw [blockWord, hbytes, ofLeBytes_reverse, bitsOf_take, bitsOf_drop, hstart]
  rfl

/-! ## The message schedule -/

theorem getElem!_set! {n : Nat} (w : Vector UInt32 n) (i : Nat) (x : UInt32) {j : Nat}
    (hj : j < n) :
    (w.set! i x)[j]! = if i = j then x else w[j]! := by
  rw [getElem!_pos _ j hj, getElem!_pos _ j hj]
  exact Vector.getElem_setIfInBounds hj

/-- The loop that copies the words of the block. -/
theorem foldl_set!_words (word : Nat → UInt32) {count : Nat} (hcount : count ≤ 64) {t : Nat}
    (ht : t < count) :
    ((List.range count).foldl (fun w i => w.set! i (word i)) (Vector.replicate 64 0))[t]! =
      word t := by
  induction count with
  | zero => omega
  | succ count ih =>
      rw [List.range_succ, List.foldl_append, List.foldl_cons, List.foldl_nil,
        getElem!_set! _ _ _ (by omega)]
      split
      next hlast => rw [hlast]
      next hearlier => exact ih (by omega) (by omega)

/-- The body of the loop that extends the schedule. -/
def extendSchedule (w : Vector UInt32 64) (i : Nat) : Vector UInt32 64 :=
  let s0 := rotateRight w[i - 15]! 7 ^^^ rotateRight w[i - 15]! 18 ^^^ (w[i - 15]! >>> 3)
  let s1 := rotateRight w[i - 2]! 17 ^^^ rotateRight w[i - 2]! 19 ^^^ (w[i - 2]! >>> 10)
  w.set! i (w[i - 16]! + s0 + w[i - 7]! + s1)

theorem toBitVec_smallSigma0 (x : UInt32) :
    (rotateRight x 7 ^^^ rotateRight x 18 ^^^ (x >>> 3)).toBitVec =
      SecureHash.smallSigma0 x.toBitVec := rfl

theorem toBitVec_smallSigma1 (x : UInt32) :
    (rotateRight x 17 ^^^ rotateRight x 19 ^^^ (x >>> 10)).toBitVec =
      SecureHash.smallSigma1 x.toBitVec := rfl

/-- The loop that extends the schedule: all words below its index are those of the standard. -/
theorem schedule_loop {block : Nat → SecureHash.Word} {start : Vector UInt32 64}
    (hstart : ∀ t < 16, start[t]!.toBitVec = block t) {count : Nat} (hcount : 16 + count ≤ 64)
    {t : Nat} (ht : t < 16 + count) :
    ((List.range' 16 count).foldl extendSchedule start)[t]!.toBitVec =
      SecureHash.schedule block t := by
  induction count generalizing t with
  | zero =>
      rw [SecureHash.schedule, if_pos ht]
      exact hstart t ht
  | succ count ih =>
      have hearlier : ∀ {t : Nat}, t < 16 + count →
          ((List.range' 16 count).foldl extendSchedule start)[t]!.toBitVec =
            SecureHash.schedule block t := ih (by omega)
      rw [List.range'_concat, List.foldl_append, Nat.one_mul, List.foldl_cons, List.foldl_nil,
        extendSchedule, getElem!_set! _ _ _ (by omega)]
      split
      next hlast =>
        -- the four words that the recurrence reads are below the index
        subst hlast
        rw [SecureHash.schedule, if_neg (by omega), ← hearlier (show 16 + count - 2 < _ by omega),
          ← hearlier (show 16 + count - 7 < _ by omega),
          ← hearlier (show 16 + count - 15 < _ by omega),
          ← hearlier (show 16 + count - 16 < _ by omega)]
        rw [UInt32.toBitVec_add, UInt32.toBitVec_add, UInt32.toBitVec_add, toBitVec_smallSigma0,
          toBitVec_smallSigma1]
        ac_rfl
      next hbefore => exact hearlier (by omega)

theorem messageSchedule_eq (message : List UInt8) (i : Nat) {t : Nat} (ht : t < 64) :
    (messageSchedule ((message.drop (64 * i)).take 64))[t]!.toBitVec =
      SecureHash.schedule (SecureHash.blockWord (bitsOf message) i) t := by
  have hloops : messageSchedule ((message.drop (64 * i)).take 64) =
      (List.range' 16 48).foldl extendSchedule ((List.range 16).foldl
        (fun w j => w.set! j (blockWord ((message.drop (64 * i)).take 64) j))
        (Vector.replicate 64 0)) := rfl
  rw [hloops]
  refine @schedule_loop _ _ (fun t hfirst => ?_) 48 (by decide) t ht
  rw [foldl_set!_words _ (by omega) hfirst, blockWord_eq message i hfirst]

/-! ## Rounds -/

theorem workingVariables_round (w : Vector UInt32 64) (v : Vector UInt32 8) (i : Nat) :
    workingVariables (compressRound w v i) =
      (workingVariables v).round roundConstants[i]!.toBitVec w[i]!.toBitVec := by
  ext1 <;> simp [workingVariables, Vector.get_eq_getElem, compressRound, SecureHash.Variables.round,
    SecureHash.bigSigma0, SecureHash.bigSigma1, SecureHash.ch, SecureHash.maj, rotateRight]

theorem workingVariables_add (one other : Vector UInt32 8) :
    workingVariables (Vector.zipWith (· + ·) one other) =
      (workingVariables one).add (workingVariables other) := by
  ext1 <;> simp [workingVariables, Vector.get_eq_getElem, SecureHash.Variables.add]

/-- The rounds over the working array are the rounds of the standard. -/
theorem workingVariables_rounds {w : Vector UInt32 64} {block : Nat → SecureHash.Word}
    (hschedule : ∀ t < 64, w[t]!.toBitVec = SecureHash.schedule block t) (v : Vector UInt32 8) :
    workingVariables ((List.range 64).foldl (compressRound w) v) =
      SecureHash.rounds block (workingVariables v) := by
  have hrounds : ∀ count ≤ 64, workingVariables ((List.range count).foldl (compressRound w) v) =
      (List.range count).foldl (fun v t => v.round (SecureHash.constant t)
        (SecureHash.schedule block t)) (workingVariables v) := by
    intro count
    induction count with
    | zero => exact fun _ => rfl
    | succ count ih =>
        intro hcount
        rw [List.range_succ, List.foldl_append, List.foldl_append, ← ih (by omega)]
        simp only [List.foldl_cons, List.foldl_nil]
        rw [workingVariables_round, roundConstants_eq (by omega), hschedule count (by omega)]
  exact hrounds 64 (le_refl 64)

theorem workingVariables_compressBlock (h : Vector UInt32 8) (message : List UInt8) (i : Nat) :
    workingVariables (compressBlock h ((message.drop (64 * i)).take 64)) =
      SecureHash.compress (workingVariables h) (SecureHash.blockWord (bitsOf message) i) := by
  rw [compressBlock, workingVariables_add,
    workingVariables_rounds fun t ht => messageSchedule_eq message i ht]
  rfl

/-! ## Digests -/

/-- The fold over the blocks of a padded message. -/
theorem workingVariables_hash {data : List UInt8} (hdata : data.length < 2 ^ 61) :
    workingVariables ((chunksExact64 (paddedMessage data)).foldl compressBlock hInit) =
      SecureHash.hash (bitsOf data) := by
  have hblocks : ∀ count, workingVariables ((List.range count).foldl
      (fun h i => compressBlock h (((paddedMessage data).drop (64 * i)).take 64)) hInit) =
        (List.range count).foldl (fun h i => SecureHash.compress h
          (SecureHash.blockWord (bitsOf (paddedMessage data)) i)) SecureHash.initial := by
    intro count
    induction count with
    | zero => exact workingVariables_hInit
    | succ count ih =>
        rw [List.range_succ, List.foldl_append, List.foldl_append, ← ih]
        exact workingVariables_compressBlock _ _ _
  have hcount : (SecureHash.pad (bitsOf data)).length / 512 = (paddedMessage data).length / 64 := by
    rw [← bitsOf_paddedMessage hdata, bitsOf_length]
    omega
  rw [chunksExact64_eq, List.foldl_map, hblocks, SecureHash.hash, hcount,
    bitsOf_paddedMessage hdata]

theorem bitsOf_digestBytes (h : Vector UInt32 8) :
    bitsOf (digestBytes h).toList =
      (workingVariables h).toList.flatMap fun word => toBits 32 word.toNat := by
  have hwords : (digestBytes h).toList = beBytes 4 h[0].toNat ++ beBytes 4 h[1].toNat ++
      beBytes 4 h[2].toNat ++ beBytes 4 h[3].toNat ++ beBytes 4 h[4].toNat ++
        beBytes 4 h[5].toNat ++
      beBytes 4 h[6].toNat ++ beBytes 4 h[7].toNat := by
    simp [digestBytes, List.Vector.toList, List.ofFn_succ]
  rw [hwords]
  simp only [bitsOf_append, bitsOf_beBytes]
  simp [SecureHash.Variables.toList, workingVariables, Vector.get_eq_getElem]

/-- The digest is that of the standard. -/
theorem bitsOf_sha256 {data : List UInt8} (hdata : data.length < 2 ^ 61) :
    bitsOf (sha256 data).toList = SecureHash.sha256 (bitsOf data) := by
  rw [sha256, bitsOf_digestBytes, workingVariables_hash hdata, SecureHash.sha256]

/-! ## Keyed digests -/

theorem hmacKeyBlock_eq (key : List UInt8) :
    hmacKeyBlock key = Hmac.keyBlock (fun bytes => (sha256 bytes).toList) 64 key := rfl

theorem hmacKeyBlock_length (key : List UInt8) : (hmacKeyBlock key).length = 64 := by
  have hdigest : (sha256 key).toList.length = 32 := List.Vector.toList_length _
  simp only [hmacKeyBlock, List.length_append, List.length_replicate]
  split
  next => omega
  next hshort => omega

/-- The keyed digest is the code that the standard defines over the digest. -/
theorem hmacSha256_eq (key msg : List UInt8) :
    (hmacSha256 key msg).toList = Hmac.hmac (fun bytes => (sha256 bytes).toList) 64 key msg := by
  have hmask : ∀ mask : UInt8, (hmacKeyBlock key).map (mask ^^^ ·) =
      Hmac.maskedKey (fun bytes => (sha256 bytes).toList) 64 mask key := by
    intro mask
    rw [hmacKeyBlock_eq, Hmac.maskedKey_eq_map]
    exact hmacKeyBlock_length key
  simp only [hmacSha256, hmask]
  rfl

/-- Padding, digest and keyed digest follow their standards. -/
theorem follows_standards (data other key msg : List UInt8) (hdata : data.length < 2 ^ 61)
    (hother : other.length < 2 ^ 61) :
    (bitsOf (paddedMessage data) = SecureHash.pad (bitsOf data) ∧
      (paddedMessage data).length % 64 = 0 ∧
      (chunksExact64 (paddedMessage data)).flatten = paddedMessage data ∧
      (data ≠ other → paddedMessage data ≠ paddedMessage other)) ∧
    bitsOf (sha256 data).toList = SecureHash.sha256 (bitsOf data) ∧
    (hmacSha256 key msg).toList = Hmac.hmac (fun bytes => (sha256 bytes).toList) 64 key msg := by
  have hblocks := paddedMessage_length_mod data
  refine ⟨⟨bitsOf_paddedMessage hdata, hblocks, flatten_chunksExact64 hblocks, ?_⟩,
    bitsOf_sha256 hdata, hmacSha256_eq key msg⟩
  intro hne hsame
  exact hne (paddedMessage_injective hdata hother hsame)

/-- A message of three bytes. -/
theorem follows_standards_three :
    ([0x61, 0x62, 0x63] : List UInt8).length < 2 ^ 61 ∧
      bitsOf (sha256 [0x61, 0x62, 0x63]).toList =
        SecureHash.sha256 (bitsOf [0x61, 0x62, 0x63]) :=
  ⟨by decide, (follows_standards [0x61, 0x62, 0x63] [] [] [] (by decide) (by decide)).2.1⟩

end Onced
