import Mathlib

/-! # Persisted key states

The shared vocabulary of the engine, the stores and the log: idempotency keys,
request fingerprints, fences, cached outcomes and the two states a key can be
in. Fixed-width fields keep their width, so a record that cannot be written
down cannot be built. Strings are UTF-8 strings and header maps are ordered.
-/

namespace Onced

open Std

/-- A fixed array of 32 bytes. -/
abbrev Bytes32 := List.Vector UInt8 32

/-- The UTF-8 bytes of a string. -/
def utf8 (s : String) : List UInt8 := s.toByteArray.data.toList

/-- A client-supplied idempotency key. -/
@[ext]
structure IdempotencyKey where
  val : String
  deriving DecidableEq

instance : Ord IdempotencyKey := ⟨compareOn IdempotencyKey.val⟩

instance : TransOrd IdempotencyKey :=
  inferInstanceAs (TransCmp (compareOn IdempotencyKey.val))

instance : LawfulEqOrd IdempotencyKey where
  compare_self := by
    intro key
    exact Std.compare_self (a := key.val)
  eq_of_compare := by
    intro a b hcompare
    have hval : compare a.val b.val = .eq := hcompare
    cases a
    cases b
    exact congrArg IdempotencyKey.mk (Std.compare_eq_iff_eq.mp hval)

/-- A 32-byte fingerprint of the meaningful content of a request. -/
structure RequestFingerprint where
  bytes : Bytes32
  deriving DecidableEq

/-- A fencing token, handed out when a key is locked. -/
structure Fence where
  val : UInt64
  deriving DecidableEq

/-- Response headers in name order. -/
abbrev HeaderMap := ExtTreeMap String String

/-- The outcome replayed to every later request that carries the key. -/
structure CachedOutcome where
  status : UInt16
  headers : HeaderMap
  body : List UInt8
  deriving DecidableEq

/-- The persisted state of a single idempotency key. -/
inductive KeyState where
  | inProgress (fence : Fence) (fingerprint : RequestFingerprint) (leaseExpiresAtMs : UInt64)
  | completed (fingerprint : RequestFingerprint) (outcome : CachedOutcome)
      (completedAtMs : UInt64)
  deriving DecidableEq

/-- An index of keys and their states. The source's hash map has no order of
its own; where iteration order matters it is supplied from outside. -/
abbrev Index := ExtTreeMap IdempotencyKey KeyState

/-- One entry of an index, which is also what one log record carries. -/
abbrev Entry := IdempotencyKey × KeyState

theorem Index.getElem?_insert (index : Index) (key other : IdempotencyKey) (state : KeyState) :
    (index.insert key state)[other]? = if key = other then some state else index[other]? := by
  rw [ExtTreeMap.getElem?_insert]
  simp only [Std.compare_eq_iff_eq]

/-! ## Saturating clock arithmetic -/

/-- `u64::saturating_add`. -/
def saturatingAdd (a b : UInt64) : UInt64 :=
  if a.toNat + b.toNat < 2 ^ 64 then a + b else UInt64.ofNat (2 ^ 64 - 1)

theorem saturatingAdd_toNat (a b : UInt64) :
    (saturatingAdd a b).toNat = min (a.toNat + b.toNat) (2 ^ 64 - 1) := by
  unfold saturatingAdd
  split
  next hfits => rw [UInt64.toNat_add]; omega
  next hfull => simp; omega

end Onced
