import Mathlib

/-! # Keyed hashing

HMAC as RFC 2104 states it, over any hash on byte strings and any block length. Two
messages that have the same code under one key exhibit a collision of the hash, in its
inner or in its outer use.
-/

namespace Onced.Foundation.Hmac

/-- Two different inputs with the same digest. -/
structure Collision {β : Type} (hash : List UInt8 → β) (one other : List UInt8) : Prop where
  ne : one ≠ other
  same : hash one = hash other

section Codes

variable (hash : List UInt8 → List UInt8) (blockLength : Nat)

/-- The key in a whole block: a longer key is hashed first, and zeros fill it up. -/
def keyBlock (key : List UInt8) : List UInt8 :=
  let short := if blockLength < key.length then hash key else key
  short ++ List.replicate (blockLength - short.length) 0

/-- The block of the key, with a byte added to each of its bytes. -/
def maskedKey (mask : UInt8) (key : List UInt8) : List UInt8 :=
  List.zipWith (· ^^^ ·) (keyBlock hash blockLength key) (List.replicate blockLength mask)

/-- What is hashed first. -/
def inner (key message : List UInt8) : List UInt8 := maskedKey hash blockLength 0x36 key ++ message

/-- What is hashed then. -/
def outer (key message : List UInt8) : List UInt8 :=
  maskedKey hash blockLength 0x5c key ++ hash (inner hash blockLength key message)

def hmac (key message : List UInt8) : List UInt8 := hash (outer hash blockLength key message)

end Codes

variable {hash : List UInt8 → List UInt8} {blockLength : Nat} {key one other : List UInt8}

/-- The same code for different messages is a collision, which these messages exhibit. -/
theorem collision_of_hmac_eq (hne : one ≠ other)
    (hsame : hmac hash blockLength key one = hmac hash blockLength key other) :
    Collision hash (inner hash blockLength key one) (inner hash blockLength key other) ∨
      Collision hash (outer hash blockLength key one) (outer hash blockLength key other) := by
  by_cases hinner : hash (inner hash blockLength key one) = hash (inner hash blockLength key other)
  · refine Or.inl ⟨fun hinputs => hne ?_, hinner⟩
    exact List.append_cancel_left hinputs
  · refine Or.inr ⟨fun hinputs => hinner ?_, hsame⟩
    exact List.append_cancel_left hinputs

/-- A mask over a whole block. -/
theorem maskedKey_eq_map {mask : UInt8}
    (hblock : (keyBlock hash blockLength key).length = blockLength) :
    maskedKey hash blockLength mask key = (keyBlock hash blockLength key).map (mask ^^^ ·) := by
  apply List.ext_getElem
  · simp [maskedKey, hblock]
  · intro i _ _
    simp [maskedKey, UInt8.xor_comm]

end Onced.Foundation.Hmac
