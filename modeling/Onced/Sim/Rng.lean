import Onced.Foundation.Xorshift

/-! # The simulator's random generator

A xorshift64 generator: reproducible from its seed, one word of state. Every
draw is an injective map of the state that fixes zero, so seeds never run
together, and the one seed that starts at zero never leaves it.
-/

namespace Onced.Sim

open Foundation

structure Rng where
  state : UInt64
  deriving DecidableEq

namespace Rng

/-- The word a seed is xored with. -/
def whitening : UInt64 := 0x9E3779B97F4A7C15

def new (seed : UInt64) : Rng := ⟨seed ^^^ whitening⟩

def nextU64 (rng : Rng) : UInt64 × Rng :=
  let x := rng.state
  let x := x ^^^ (x <<< 13)
  let x := x ^^^ (x >>> 7)
  let x := x ^^^ (x <<< 17)
  (x, ⟨x⟩)

def below (n : UInt64) (rng : Rng) : UInt64 × Rng :=
  let (x, rng) := rng.nextU64
  (x % n, rng)

/-- The generator after a number of draws. -/
def after (draws : Nat) (rng : Rng) : Rng := (fun rng => rng.nextU64.2)^[draws] rng

theorem below_lt {n : UInt64} (hpos : 0 < n.toNat) (rng : Rng) :
    (below n rng).1.toNat < n.toNat := by
  simp only [below, UInt64.toNat_mod]
  exact Nat.mod_lt _ hpos

theorem nextU64_toBitVec (rng : Rng) :
    rng.nextU64.2.state.toBitVec =
      let x := rng.state.toBitVec
      let x := x ^^^ (x <<< 13)
      let x := x ^^^ (x >>> 7)
      x ^^^ (x <<< 17) := by
  simp [nextU64]

theorem nextU64_injective : Function.Injective fun rng : Rng => rng.nextU64.2 := by
  intro one other hsame
  have hwords := congrArg (fun rng : Rng => rng.state.toBitVec) hsame
  simp only [nextU64_toBitVec] at hwords
  have hthird := xor_shiftLeft_injective (by decide) hwords
  have hsecond := xor_ushiftRight_injective (by decide) hthird
  have hfirst := xor_shiftLeft_injective (by decide) hsecond
  cases one
  cases other
  exact congrArg Rng.mk (UInt64.toBitVec_inj.mp hfirst)

theorem after_injective (draws : Nat) : Function.Injective (after draws) :=
  nextU64_injective.iterate draws

theorem after_zero (draws : Nat) : after draws ⟨0⟩ = ⟨0⟩ := by
  induction draws with
  | zero => rfl
  | succ draws ih =>
      rw [after, Function.iterate_succ_apply]
      exact ih

/-- The generators of two seeds are never in the same state after the same number of draws,
and exactly one seed is ever in the state that xorshift cannot leave. -/
theorem seeds_never_meet (draws : Nat) (seed other : UInt64) :
    (after draws (new seed) = after draws (new other) ↔ seed = other) ∧
      ((after draws (new seed)).state = 0 ↔ seed = whitening) := by
  constructor
  · rw [(after_injective draws).eq_iff, new, new, Rng.mk.injEq, UInt64.xor_left_inj]
  · have hzero : (after draws (new seed)).state = 0 ↔
        after draws (new seed) = after draws ⟨0⟩ := by
      rw [after_zero]
      cases after draws (new seed)
      rw [Rng.mk.injEq]
    rw [hzero, (after_injective draws).eq_iff, new, Rng.mk.injEq, UInt64.xor_eq_zero_iff]

end Rng

end Onced.Sim
