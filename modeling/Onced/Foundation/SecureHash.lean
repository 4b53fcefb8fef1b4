import Onced.Foundation.Bits

/-! # The secure hash standard

SHA-256 as FIPS 180-4 states it, on bit strings: the functions on words, the padding, the
message schedule as a recurrence, the eight working variables and the fold over the
blocks. The constants are what the standard says they stand for, the first bits of
the fractional parts of square and cube roots of the first primes.
-/

namespace Onced.Foundation.SecureHash

abbrev Word := BitVec 32

/-! ## Functions on words -/

def ch (x y z : Word) : Word := (x &&& y) ^^^ (~~~x &&& z)

def maj (x y z : Word) : Word := (x &&& y) ^^^ (x &&& z) ^^^ (y &&& z)

/-- The function written with a capital sigma and index 0. -/
def bigSigma0 (x : Word) : Word := x.rotateRight 2 ^^^ x.rotateRight 13 ^^^ x.rotateRight 22

def bigSigma1 (x : Word) : Word := x.rotateRight 6 ^^^ x.rotateRight 11 ^^^ x.rotateRight 25

/-- The function written with a small sigma and index 0. -/
def smallSigma0 (x : Word) : Word := x.rotateRight 7 ^^^ x.rotateRight 18 ^^^ x >>> 3

def smallSigma1 (x : Word) : Word := x.rotateRight 17 ^^^ x.rotateRight 19 ^^^ x >>> 10

/-! ## Constants -/

/-- The first sixty-four prime numbers. -/
def primes : List Nat :=
  [2, 3, 5, 7, 11, 13, 17, 19, 23, 29, 31, 37, 41, 43, 47, 53, 59, 61, 67, 71, 73, 79, 83, 89, 97,
    101, 103, 107, 109, 113, 127, 131, 137, 139, 149, 151, 157, 163, 167, 173, 179, 181, 191, 193,
    197, 199, 211, 223, 227, 229, 233, 239, 241, 251, 257, 263, 269, 271, 277, 281, 283, 293, 307,
    311]

/-- The first thirty-two bits of the fractional part of a root. -/
noncomputable def rootFraction (degree n : Nat) : Word :=
  BitVec.ofNat 32 ⌊(2 : ℝ) ^ 32 * (n : ℝ) ^ (degree : ℝ)⁻¹⌋₊

/-- The constant of round `t`. -/
noncomputable def constant (t : Nat) : Word := rootFraction 3 (primes.getD t 0)

/-- A root from the two powers it lies between. -/
theorem rootFraction_eq {degree n root : Nat} (hdegree : degree ≠ 0)
    (hlow : root ^ degree ≤ (2 ^ 32) ^ degree * n)
    (hhigh : (2 ^ 32) ^ degree * n < (root + 1) ^ degree) :
    rootFraction degree n = BitVec.ofNat 32 root := by
  have hpower : ((2 : ℝ) ^ 32 * (n : ℝ) ^ (degree : ℝ)⁻¹) ^ degree =
      ((2 ^ 32) ^ degree * n : Nat) := by
    rw [mul_pow, Real.rpow_inv_natCast_pow (Nat.cast_nonneg n) hdegree]
    norm_num
  have hnonneg : (0 : ℝ) ≤ 2 ^ 32 * (n : ℝ) ^ (degree : ℝ)⁻¹ := by positivity
  have hfloor : ⌊(2 : ℝ) ^ 32 * (n : ℝ) ^ (degree : ℝ)⁻¹⌋₊ = root := by
    rw [Nat.floor_eq_iff hnonneg]
    constructor
    · rw [← pow_le_pow_iff_left₀ (Nat.cast_nonneg root) hnonneg hdegree, hpower]
      exact_mod_cast hlow
    · rw [← pow_lt_pow_iff_left₀ hnonneg (by positivity) hdegree, hpower]
      exact_mod_cast hhigh
  rw [rootFraction, hfloor]

/-! ## Padding -/

theorem exists_zeros (length : Nat) : ∃ zeros, (length + 1 + zeros) % 512 = 448 :=
  ⟨(959 - length % 512) % 512, by omega⟩

/-- The smallest number of zeros after which only the length is missing to whole blocks. -/
def zeros (length : Nat) : Nat := Nat.find (exists_zeros length)

/-- A one, the zeros and the length of the message in sixty-four bits. -/
def pad (message : List Bool) : List Bool :=
  message ++ true :: List.replicate (zeros message.length) false ++ toBits 64 message.length

theorem zeros_eq {length count : Nat} (hcount : count < 512)
    (hblock : (length + 1 + count) % 512 = 448) : zeros length = count := by
  rw [zeros, Nat.find_eq_iff]
  refine ⟨hblock, fun fewer hfewer hsame => ?_⟩
  omega

/-! ## Computation -/

/-- Word `j` of block `i`. -/
def blockWord (padded : List Bool) (i j : Nat) : Word :=
  BitVec.ofNat 32 (ofBits ((padded.drop (512 * i + 32 * j)).take 32))

/-- The message schedule of a block. -/
def schedule (block : Nat → Word) (t : Nat) : Word :=
  if t < 16 then block t
  else smallSigma1 (schedule block (t - 2)) + schedule block (t - 7) +
    smallSigma0 (schedule block (t - 15)) + schedule block (t - 16)
termination_by t

/-- The working variables; a hash value is a set of them, too. -/
@[ext]
structure Variables where
  a : Word
  b : Word
  c : Word
  d : Word
  e : Word
  f : Word
  g : Word
  h : Word

namespace Variables

/-- One round, with its constant and its word of the schedule. -/
def round (k w : Word) (v : Variables) : Variables :=
  let t1 := v.h + bigSigma1 v.e + ch v.e v.f v.g + k + w
  let t2 := bigSigma0 v.a + maj v.a v.b v.c
  ⟨t1 + t2, v.a, v.b, v.c, v.d + t1, v.e, v.f, v.g⟩

def add (one other : Variables) : Variables :=
  ⟨one.a + other.a, one.b + other.b, one.c + other.c, one.d + other.d, one.e + other.e,
    one.f + other.f, one.g + other.g, one.h + other.h⟩

def toList (v : Variables) : List Word := [v.a, v.b, v.c, v.d, v.e, v.f, v.g, v.h]

end Variables

/-- The initial hash value. -/
noncomputable def initial : Variables :=
  ⟨rootFraction 2 2, rootFraction 2 3, rootFraction 2 5, rootFraction 2 7, rootFraction 2 11,
    rootFraction 2 13, rootFraction 2 17, rootFraction 2 19⟩

/-- The sixty-four rounds of a block. -/
noncomputable def rounds (block : Nat → Word) (v : Variables) : Variables :=
  (List.range 64).foldl (fun v t => v.round (constant t) (schedule block t)) v

/-- The intermediate hash value after a block. -/
noncomputable def compress (h : Variables) (block : Nat → Word) : Variables :=
  h.add (rounds block h)

/-- The hash value of a message. -/
noncomputable def hash (message : List Bool) : Variables :=
  (List.range ((pad message).length / 512)).foldl
    (fun h i => compress h (blockWord (pad message) i)) initial

/-- The 256 bits of the message digest. -/
noncomputable def sha256 (message : List Bool) : List Bool :=
  (hash message).toList.flatMap fun word => toBits 32 word.toNat

end Onced.Foundation.SecureHash
