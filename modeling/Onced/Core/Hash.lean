import Onced.Core.State
import Onced.Foundation.LittleEndian

/-! # SHA-256 and HMAC-SHA256

The hand-rolled digest of the source, loop by loop: padding to whole blocks,
the message schedule, the sixty-four rounds over an in-place working array and
the final additions. The log chain and the request fingerprint are computed
from these functions and treat them as given.
-/

namespace Onced

open Foundation

def hInit : Vector UInt32 8 :=
  #v[0x6a09e667, 0xbb67ae85, 0x3c6ef372, 0xa54ff53a, 0x510e527f, 0x9b05688c, 0x1f83d9ab,
    0x5be0cd19]

def roundConstants : Vector UInt32 64 :=
  #v[0x428a2f98, 0x71374491, 0xb5c0fbcf, 0xe9b5dba5, 0x3956c25b, 0x59f111f1, 0x923f82a4,
    0xab1c5ed5, 0xd807aa98, 0x12835b01, 0x243185be, 0x550c7dc3, 0x72be5d74, 0x80deb1fe,
    0x9bdc06a7, 0xc19bf174, 0xe49b69c1, 0xefbe4786, 0x0fc19dc6, 0x240ca1cc, 0x2de92c6f,
    0x4a7484aa, 0x5cb0a9dc, 0x76f988da, 0x983e5152, 0xa831c66d, 0xb00327c8, 0xbf597fc7,
    0xc6e00bf3, 0xd5a79147, 0x06ca6351, 0x14292967, 0x27b70a85, 0x2e1b2138, 0x4d2c6dfc,
    0x53380d13, 0x650a7354, 0x766a0abb, 0x81c2c92e, 0x92722c85, 0xa2bfe8a1, 0xa81a664b,
    0xc24b8b70, 0xc76c51a3, 0xd192e819, 0xd6990624, 0xf40e3585, 0x106aa070, 0x19a4c116,
    0x1e376c08, 0x2748774c, 0x34b0bcb5, 0x391c0cb3, 0x4ed8aa4a, 0x5b9cca4f, 0x682e6ff3,
    0x748f82ee, 0x78a5636f, 0x84c87814, 0x8cc70208, 0x90befffa, 0xa4506ceb, 0xbef9a3f7,
    0xc67178f2]

/-- `u32::rotate_right`. -/
def rotateRight (x : UInt32) (n : Nat) : UInt32 := ⟨x.toBitVec.rotateRight n⟩

/-- Push zeros until eight bytes are missing to a whole block. -/
def padZeros (message : List UInt8) : List UInt8 :=
  if message.length % 64 ≠ 56 then padZeros (message ++ [0]) else message
termination_by (120 - message.length % 64) % 64
decreasing_by
  simp only [List.length_append, List.length_cons, List.length_nil]
  omega

/-- The message with its 0x80 marker, zero padding and 64-bit bit length. -/
def paddedMessage (data : List UInt8) : List UInt8 :=
  let bitLen := UInt64.ofNat data.length * 8
  padZeros (data ++ [0x80]) ++ beBytes 8 bitLen.toNat

/-- `slice::chunks_exact(64)`: a last partial block is dropped. -/
def chunksExact64 (message : List UInt8) : List (List UInt8) :=
  if 64 ≤ message.length then message.take 64 :: chunksExact64 (message.drop 64) else []
termination_by message.length
decreasing_by
  simp only [List.length_drop]
  omega

/-- `u32::from_be_bytes` on the `i`-th word of a block. -/
def blockWord (block : List UInt8) (i : Nat) : UInt32 :=
  UInt32.ofNat (ofLeBytes ((block.drop (i * 4)).take 4).reverse)

/-- The sixty-four schedule words of one block. -/
def messageSchedule (block : List UInt8) : Vector UInt32 64 :=
  let start := (List.range 16).foldl (fun w i => w.set! i (blockWord block i))
    (Vector.replicate 64 0)
  (List.range' 16 48).foldl (fun w i =>
    let s0 := rotateRight w[i - 15]! 7 ^^^ rotateRight w[i - 15]! 18 ^^^ (w[i - 15]! >>> 3)
    let s1 := rotateRight w[i - 2]! 17 ^^^ rotateRight w[i - 2]! 19 ^^^ (w[i - 2]! >>> 10)
    w.set! i (w[i - 16]! + s0 + w[i - 7]! + s1)) start

/-- One round, updating the working array from its last slot to its first. -/
def compressRound (w : Vector UInt32 64) (v : Vector UInt32 8) (i : Nat) : Vector UInt32 8 :=
  let s1 := rotateRight v[4] 6 ^^^ rotateRight v[4] 11 ^^^ rotateRight v[4] 25
  let ch := (v[4] &&& v[5]) ^^^ (~~~v[4] &&& v[6])
  let t1 := v[7] + s1 + ch + roundConstants[i]! + w[i]!
  let s0 := rotateRight v[0] 2 ^^^ rotateRight v[0] 13 ^^^ rotateRight v[0] 22
  let maj := (v[0] &&& v[1]) ^^^ (v[0] &&& v[2]) ^^^ (v[1] &&& v[2])
  let t2 := s0 + maj
  let v := v.set 7 v[6]
  let v := v.set 6 v[5]
  let v := v.set 5 v[4]
  let v := v.set 4 (v[3] + t1)
  let v := v.set 3 v[2]
  let v := v.set 2 v[1]
  let v := v.set 1 v[0]
  v.set 0 (t1 + t2)

/-- Fold one block into the hash value. -/
def compressBlock (h : Vector UInt32 8) (block : List UInt8) : Vector UInt32 8 :=
  let w := messageSchedule block
  let v := (List.range 64).foldl (compressRound w) h
  Vector.zipWith (· + ·) h v

/-- The big-endian bytes of the eight hash words. -/
def digestBytes (h : Vector UInt32 8) : Bytes32 :=
  ⟨(List.ofFn fun i : Fin 8 => beBytes 4 h[i].toNat).flatten, by simp⟩

/-- The SHA-256 digest of `data`. -/
def sha256 (data : List UInt8) : Bytes32 :=
  digestBytes ((chunksExact64 (paddedMessage data)).foldl compressBlock hInit)

/-- A key longer than the block is hashed first; the result is zero-padded. -/
def hmacKeyBlock (key : List UInt8) : List UInt8 :=
  let short := if key.length > 64 then (sha256 key).toList else key
  short ++ List.replicate (64 - short.length) 0

/-- HMAC-SHA256 of `msg` under `key`. -/
def hmacSha256 (key msg : List UInt8) : Bytes32 :=
  let k := hmacKeyBlock key
  let ipad := k.map (0x36 ^^^ ·)
  let opad := k.map (0x5c ^^^ ·)
  let innerHash := sha256 (ipad ++ msg)
  sha256 (opad ++ innerHash.toList)

end Onced
