import Onced.Core.HashStandard
import Onced.Gateway.Phases

/-! # What a fingerprint tells apart

The canonical bytes of a request frame its method, target and body by their lengths, so
they can be read back. The fingerprint is a keyed digest of them: two requests with
the same one differ only at the price of a collision of the digest.
-/

namespace Onced

open Foundation

section Framing

variable {one other rest otherRest : List UInt8}

/-- A framed field ends where its length says. -/
theorem framedField_append_inj (hone : one.length < 2 ^ 32) (hother : other.length < 2 ^ 32)
    (hsame : framedField one ++ rest = framedField other ++ otherRest) :
    one = other ∧ rest = otherRest := by
  simp only [framedField, List.append_assoc] at hsame
  obtain ⟨hlengths, hfields⟩ := List.append_inj hsame (by simp)
  have hlength : one.length = other.length := by
    have hvalue := congrArg (fun bytes => ofLeBytes bytes.reverse) hlengths
    simp only [beBytes, List.reverse_reverse, ofLeBytes_leBytes, UInt32.toNat_ofNat'] at hvalue
    omega
  exact List.append_inj hfields hlength

end Framing

theorem utf8_injective : Function.Injective utf8 := by
  intro one other hbytes
  apply String.toByteArray_inj.mp
  apply ByteArray.ext
  exact Array.toList_inj.mp hbytes

/-- What a fingerprint covers of a request fits the four bytes of its length fields. -/
structure Request.Fits (request : Request) : Prop where
  method : (utf8 request.method).length < 2 ^ 32
  target : (utf8 request.target).length < 2 ^ 32
  body : request.body.length < 2 ^ 32

/-- The canonical bytes determine method, target and body. -/
theorem canonicalBytes_inj {one other : Request} (hone : one.Fits) (hother : other.Fits)
    (hsame : canonicalBytes one = canonicalBytes other) :
    (one.method, one.target, one.body) = (other.method, other.target, other.body) := by
  rw [canonicalBytes, canonicalBytes, List.append_assoc, List.append_assoc] at hsame
  obtain ⟨hmethod, hrest⟩ := framedField_append_inj hone.method hother.method hsame
  obtain ⟨htarget, hlast⟩ := framedField_append_inj hone.target hother.target hrest
  have hbody : one.body = other.body := by
    rw [← List.append_nil (framedField one.body),
      ← List.append_nil (framedField other.body)] at hlast
    exact (framedField_append_inj hone.body hother.body hlast).1
  rw [utf8_injective hmethod, utf8_injective htarget, hbody]

/-- Requests that differ in method, target or body have different canonical bytes; the
same fingerprint for both exhibits a collision of the digest, at its inner or at its outer
use. -/
theorem fingerprints_separate (serverKey : Bytes32) (one other : Request) (hone : one.Fits)
    (hother : other.Fits)
    (hne : (one.method, one.target, one.body) ≠ (other.method, other.target, other.body)) :
    canonicalBytes one ≠ canonicalBytes other ∧
      (fingerprintOf one serverKey = fingerprintOf other serverKey →
        Hmac.Collision sha256
            (Hmac.inner (fun bytes => (sha256 bytes).toList) 64 serverKey.toList
              (canonicalBytes one))
            (Hmac.inner (fun bytes => (sha256 bytes).toList) 64 serverKey.toList
              (canonicalBytes other)) ∨
          Hmac.Collision sha256
            (Hmac.outer (fun bytes => (sha256 bytes).toList) 64 serverKey.toList
              (canonicalBytes one))
            (Hmac.outer (fun bytes => (sha256 bytes).toList) 64 serverKey.toList
              (canonicalBytes other))) := by
  have hbytes : canonicalBytes one ≠ canonicalBytes other :=
    fun hsame => hne (canonicalBytes_inj hone hother hsame)
  refine ⟨hbytes, fun hfingerprint => ?_⟩
  have hcode : (hmacSha256 serverKey.toList (canonicalBytes one)).toList =
      (hmacSha256 serverKey.toList (canonicalBytes other)).toList :=
    congrArg (fun fingerprint => fingerprint.bytes.toList) hfingerprint
  rw [hmacSha256_eq, hmacSha256_eq] at hcode
  refine (Hmac.collision_of_hmac_eq hbytes hcode).imp ?_ ?_
  · exact fun hcollision => ⟨hcollision.ne, List.Vector.toList_injective hcollision.same⟩
  · exact fun hcollision => ⟨hcollision.ne, List.Vector.toList_injective hcollision.same⟩

/-- The boundary between method and target is moved by one letter. -/
theorem fingerprints_separate_boundary :
    Request.Fits ⟨"ab", "c", [], []⟩ ∧ Request.Fits ⟨"a", "bc", [], []⟩ ∧
      canonicalBytes ⟨"ab", "c", [], []⟩ ≠ canonicalBytes ⟨"a", "bc", [], []⟩ := by
  have hone : Request.Fits ⟨"ab", "c", [], []⟩ := ⟨by decide, by decide, by decide⟩
  have hother : Request.Fits ⟨"a", "bc", [], []⟩ := ⟨by decide, by decide, by decide⟩
  exact ⟨hone, hother, (fingerprints_separate (List.Vector.replicate 32 0) ⟨"ab", "c", [], []⟩
    ⟨"a", "bc", [], []⟩ hone hother (by decide)).1⟩

end Onced
