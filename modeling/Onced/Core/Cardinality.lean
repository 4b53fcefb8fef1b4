import Onced.Core.Velocity

/-! # The estimate in real numbers

Registers only rise, and each of the two formulas of the estimate rises with them. The
switch from one to the other is a threshold on the registers at which the formulas do
not agree: the estimate falls where linear counting gives way to a raw estimate that is
smaller.
-/

namespace Onced

open Foundation

/-- The estimate in real numbers. -/
noncomputable def Numbers.real : Numbers ℝ := ⟨Nat.cast, Real.log, fun r => ((2 ^ r : ℕ) : ℝ)⁻¹⟩

namespace HyperLogLog

section Formulas

theorem harmonic_eq_sum (registers : List UInt8) :
    harmonic .real registers = (registers.map fun r => (2⁻¹ : ℝ) ^ r.toNat).sum := by
  have hfold : ∀ start : ℝ, registers.foldl (fun sum r => sum + Numbers.real.powi r.toNat) start =
      start + (registers.map fun r => (2⁻¹ : ℝ) ^ r.toNat).sum := by
    induction registers with
    | nil => simp
    | cons r registers ih =>
        intro start
        rw [List.foldl_cons, ih, List.map_cons, List.sum_cons, ← add_assoc]
        simp [Numbers.real]
  rw [harmonic, hfold]
  norm_num

theorem harmonic_pos {registers : List UInt8} (hregisters : registers ≠ []) :
    0 < harmonic .real registers := by
  rw [harmonic_eq_sum]
  apply List.sum_pos
  · simp
  · simpa using hregisters

theorem alpha_pos (m : Nat) : 0 < alpha .real m := by
  unfold alpha
  split
  · norm_num
  · norm_num
  · norm_num
  · change (0 : ℝ) < 0.7213 / (1.0 + 1.079 / (m : ℝ))
    positivity

variable {one other : List UInt8} (hle : List.Forall₂ (· ≤ ·) one other)

include hle

theorem harmonic_anti : harmonic .real other ≤ harmonic .real one := by
  rw [harmonic_eq_sum, harmonic_eq_sum]
  induction hle with
  | nil => exact le_refl _
  | cons hr _ ih =>
      rw [List.map_cons, List.map_cons, List.sum_cons, List.sum_cons]
      apply add_le_add _ ih
      exact pow_le_pow_of_le_one (by norm_num) (by norm_num) (UInt8.le_iff_toNat_le.mp hr)

theorem zeros_anti : zeros other ≤ zeros one := by
  unfold zeros
  induction hle with
  | nil => exact le_refl _
  | @cons lower higher _ _ hr _ ih =>
      rw [List.countP_cons, List.countP_cons]
      -- an empty register was empty before
      have hempty : higher = 0 → lower = 0 := by
        rintro rfl
        exact UInt8.toNat_inj.mp (Nat.le_zero.mp (UInt8.le_iff_toNat_le.mp hr))
      by_cases hhigher : higher = 0
      · simp only [hhigher, hempty hhigher, decide_true, if_true]
        omega
      · simp only [hhigher, decide_false, Bool.false_eq_true, if_false]
        omega

theorem raw_mono (hone : one ≠ []) : raw .real one ≤ raw .real other := by
  have hother : other ≠ [] := by
    rintro rfl
    cases hle
    exact hone rfl
  unfold raw
  rw [hle.length_eq]
  apply div_le_div_of_nonneg_left _ (harmonic_pos hother) (harmonic_anti hle)
  have halpha := alpha_pos other.length
  change (0 : ℝ) ≤ alpha .real other.length * (other.length : ℝ) * (other.length : ℝ)
  positivity

theorem linear_mono (hzeros : 0 < zeros other) : linear .real one ≤ linear .real other := by
  have hanti := zeros_anti hle
  have hlength := hle.length_eq
  have hpos : 0 < one.length := by
    have hcount : zeros one ≤ one.length := List.countP_le_length
    omega
  unfold linear
  rw [← hlength]
  change (one.length : ℝ) * Real.log ((one.length : ℝ) / (zeros one : ℝ)) ≤
    (one.length : ℝ) * Real.log ((one.length : ℝ) / (zeros other : ℝ))
  have hzerosReal : (0 : ℝ) < zeros other := by exact_mod_cast hzeros
  have hantiReal : (zeros other : ℝ) ≤ zeros one := by exact_mod_cast hanti
  have hposReal : (0 : ℝ) < one.length := by exact_mod_cast hpos
  gcongr
  exact div_pos hposReal (lt_of_lt_of_le hzerosReal hantiReal)

/-- A small range is not entered from outside. -/
theorem smallRange_of_rises (hone : one ≠ []) (hsmall : smallRange .real other = true) :
    smallRange .real one = true := by
  obtain ⟨hraw, hzeros⟩ := of_decide_eq_true hsmall
  apply decide_eq_true
  rw [hle.length_eq]
  exact ⟨(raw_mono hle hone).trans hraw, Nat.lt_of_lt_of_le hzeros (zeros_anti hle)⟩

end Formulas

/-- Linear counting gives way to a raw estimate that is smaller. -/
def Drops (before after : HyperLogLog) : Prop :=
  smallRange .real before.registers.toList = true ∧
    smallRange .real after.registers.toList = false ∧
    raw .real after.registers.toList < linear .real before.registers.toList

theorem estimate_of_small {sketch : HyperLogLog}
    (hsmall : smallRange .real sketch.registers.toList = true) :
    sketch.estimate .real = linear .real sketch.registers.toList := if_pos hsmall

theorem estimate_of_large {sketch : HyperLogLog}
    (hlarge : smallRange .real sketch.registers.toList = false) :
    sketch.estimate .real = raw .real sketch.registers.toList := by
  apply if_neg
  rw [hlarge]
  exact Bool.false_ne_true

/-- A register that is not empty shows in the estimate. -/
theorem estimate_pos {sketch : HyperLogLog}
    (hused : zeros sketch.registers.toList < sketch.registers.toList.length) :
    0 < sketch.estimate .real := by
  have hlength : (0 : ℝ) < sketch.registers.toList.length :=
    Nat.cast_pos.mpr (Nat.zero_lt_of_lt hused)
  cases hsmall : smallRange .real sketch.registers.toList with
  | true =>
      have hzeros := (of_decide_eq_true hsmall).2
      rw [estimate_of_small hsmall]
      apply mul_pos hlength
      apply Real.log_pos
      exact (one_lt_div (Nat.cast_pos.mpr hzeros)).mpr (Nat.cast_lt.mpr hused)
  | false =>
      rw [estimate_of_large hsmall]
      apply div_pos
      · exact mul_pos (mul_pos (alpha_pos _) hlength) hlength
      · exact harmonic_pos (List.length_pos_iff.mp (Nat.zero_lt_of_lt hused))

/-- As registers rise the estimate falls only at the switch. -/
theorem estimate_le_iff {before after : HyperLogLog}
    (hrises : List.Forall₂ (· ≤ ·) before.registers.toList after.registers.toList) :
    before.estimate .real ≤ after.estimate .real ↔ ¬ Drops before after := by
  have hbefore : before.registers.toList ≠ [] := by
    have hlength : before.registers.toList.length = 2 ^ before.precision := Vector.length_toList
    intro hnil
    rw [hnil] at hlength
    exact absurd hlength.symm (Nat.two_pow_pos _).ne'
  unfold Drops
  cases hone : smallRange .real before.registers.toList with
  | false =>
      have hother : smallRange .real after.registers.toList = false := by
        by_contra hsmall
        have := smallRange_of_rises hrises hbefore (Bool.eq_true_of_not_eq_false hsmall)
        exact Bool.false_ne_true (hone.symm.trans this)
      rw [estimate_of_large hone, estimate_of_large hother]
      exact iff_of_true (raw_mono hrises hbefore) fun hdrops => Bool.false_ne_true hdrops.1
  | true =>
      rw [estimate_of_small hone]
      cases hother : smallRange .real after.registers.toList with
      | false =>
          rw [estimate_of_large hother]
          simp
      | true =>
          have hzeros := (of_decide_eq_true hother).2
          rw [estimate_of_small hother]
          exact iff_of_true (linear_mono hrises hzeros) fun hdrops => nomatch hdrops.2.1

section Observed

variable (hasher : String → UInt64) (sketch : HyperLogLog)

theorem registers_observe_le (keys : List String) : List.Forall₂ (· ≤ ·) sketch.registers.toList
    (sketch.observe hasher keys).registers.toList := by
  rw [List.forall₂_iff_get]
  refine ⟨by rw [Vector.length_toList, Vector.length_toList]; rfl, ?_⟩
  intro register hregister _
  have hlt : register < 2 ^ sketch.precision := by rwa [Vector.length_toList] at hregister
  have hlevels := le_foldl_raise (sketch.place hasher) (sketch.rankOf hasher) sketch.levels keys
    ⟨register, hlt⟩
  rw [← levels_observe] at hlevels
  simp only [List.get_eq_getElem, Vector.getElem_toList]
  exact UInt8.le_iff_toNat_le.mpr hlevels

/-- Adding no key drops the estimate. -/
def Steady (keys : List String) : Prop :=
  ∀ done key rest, keys = done ++ key :: rest →
    ¬ Drops (sketch.observe hasher done) (sketch.observe hasher (done ++ [key]))

theorem Steady.estimate_le {keys : List String} (hsteady : sketch.Steady hasher keys) :
    sketch.estimate .real ≤ (sketch.observe hasher keys).estimate .real := by
  induction keys using List.reverseRecOn with
  | nil => exact le_refl _
  | append_singleton keys key ih =>
      have hsteps : sketch.Steady hasher keys := by
        rintro done other rest rfl
        exact hsteady done other (rest ++ [key]) (by simp)
      refine (ih hsteps).trans ?_
      have hrises := (sketch.observe hasher keys).registers_observe_le hasher [key]
      rw [observe_append] at hrises
      exact (estimate_le_iff hrises).mpr (hsteady keys key [] rfl)

theorem addAll_eq (keys : List String) :
    keys.foldlM (add hasher) sketch = .ok (sketch.observe hasher keys) := by
  induction keys generalizing sketch with
  | nil => rfl
  | cons key keys ih =>
      rw [List.foldlM_cons, add_eq]
      refine (ih (sketch.observe hasher [key])).trans ?_
      rw [observe_append]
      rfl

end Observed

/-! ## A switch at which the estimate falls -/

/-- Sixteen keys, one for each register. -/
def keys : List String :=
  ["a", "b", "c", "d", "e", "f", "g", "h", "i", "j", "k", "l", "m", "n", "o", "p"]

/-- A hash that sends each key to its own register, at the lowest rank. -/
def spread (key : String) : UInt64 :=
  (UInt64.ofNat (keys.idxOf key) <<< 60) ||| ((1 : UInt64) <<< 59)

theorem estimate_almost_full {sketch : HyperLogLog}
    (hregisters : sketch.registers.toList = List.replicate 15 1 ++ [0]) :
    sketch.estimate .real = 16 * Real.log 16 := by
  have hharmonic : harmonic .real (List.replicate 15 1 ++ [0]) = 17 / 2 := by
    rw [harmonic_eq_sum, List.map_append, List.map_replicate, List.sum_append, List.sum_replicate,
      UInt8.toNat_one]
    norm_num
  have hzeros : zeros (List.replicate 15 1 ++ [0]) = 1 := by decide
  have hsmall : smallRange .real sketch.registers.toList = true := by
    apply decide_eq_true
    rw [hregisters, hzeros, raw, hharmonic]
    refine ⟨?_, by decide⟩
    change (0.673 : ℝ) * (16 : ℕ) * (16 : ℕ) / (17 / 2) ≤ 2.5 * (16 : ℕ)
    norm_num
  rw [estimate_of_small hsmall, hregisters, linear, hzeros]
  change ((16 : ℕ) : ℝ) * Real.log ((16 : ℕ) / (1 : ℕ)) = 16 * Real.log 16
  norm_num

theorem estimate_full {sketch : HyperLogLog}
    (hregisters : sketch.registers.toList = List.replicate 16 1) :
    sketch.estimate .real = 21.536 := by
  have hharmonic : harmonic .real (List.replicate 16 1) = 8 := by
    rw [harmonic_eq_sum, List.map_replicate, List.sum_replicate, UInt8.toNat_one]
    norm_num
  have hlarge : smallRange .real sketch.registers.toList = false := by
    apply decide_eq_false
    rw [hregisters]
    exact fun hsmall => absurd hsmall.2 (by decide)
  rw [estimate_of_large hlarge, hregisters, raw, hharmonic]
  change (0.673 : ℝ) * (16 : ℕ) * (16 : ℕ) / 8 = 21.536
  norm_num

/-- The last empty register of sixteen is filled, and the estimate falls by half. -/
theorem estimate_falls : ∃ before after,
    (keys.take 15).foldlM (add spread) (new 4 (by decide)) = .ok before ∧
    before.add spread "p" = .ok after ∧ after.estimate .real < before.estimate .real := by
  refine ⟨_, _, addAll_eq _ _ _, add_eq _ _ _, ?_⟩
  have halmost : (observe spread (new 4 (by decide)) (keys.take 15)).registers.toList =
      List.replicate 15 1 ++ [0] := by decide +kernel
  have hfull : (observe spread (new 4 (by decide)) (keys.take 15 ++ ["p"])).registers.toList =
      List.replicate 16 1 := by decide +kernel
  have hlog : Real.log 16 = 4 * Real.log 2 := by
    rw [show (16 : ℝ) = 2 ^ 4 by norm_num, Real.log_pow]
    norm_num
  rw [observe_append, estimate_full hfull, estimate_almost_full halmost, hlog]
  linarith [Real.log_two_gt_d9]

end HyperLogLog

namespace Velocity

open HyperLogLog

/-- A larger estimate is denied as well. -/
theorem deny_of_le {maxDistinct : UInt64} {before after : HyperLogLog}
    (hle : before.estimate .real ≤ after.estimate .real)
    (hdenied : decision .real maxDistinct before = .deny) :
    decision .real maxDistinct after = .deny := by
  unfold decision at hdenied ⊢
  split at hdenied
  next hover => exact if_pos (lt_of_lt_of_le hover hle)
  next => cases hdenied

/-- An added key lowers the estimate exactly if linear counting gives way to a raw estimate
that is smaller. An actor that was denied in the current window is denied by every later
check in it, unless one of its targets does that. -/
theorem estimate_rises_or_switches :
    (∀ (precision : UInt8) (hprecision : 4 ≤ precision.toNat ∧ precision.toNat ≤ 16)
      (hasher : String → UInt64) (keys : List String) (key : String), ∃ before after,
      keys.foldlM (add hasher) (HyperLogLog.new precision hprecision) = .ok before ∧
      before.add hasher key = .ok after ∧
      (before.estimate .real ≤ after.estimate .real ↔ ¬ Drops before after)) ∧
    ∀ (hasher : String → UInt64) (start : DistinctVelocityLimiter), start.actors = ∅ →
      ∀ earlier later, Orderly start.maxActors (earlier ++ later) →
      ∀ (actor : String) (window : UInt64),
      (∀ touch ∈ earlier ++ later, touch.nowMs / start.windowMs ≤ window) →
      targetsIn start.windowMs actor window earlier ≠ [] →
      (fresh.observe hasher (targetsIn start.windowMs actor window earlier)).Steady hasher
        (targetsIn start.windowMs actor window later) →
      ∃ verdicts limiter more last,
        runSteps (DistinctVelocityLimiter.step .real hasher) start earlier =
          .ok (verdicts, limiter) ∧
        runSteps (DistinctVelocityLimiter.step .real hasher) limiter later = .ok (more, last) ∧
        (lastDecision actor verdicts = some .deny →
          lastDecision actor (verdicts ++ more) = some .deny) := by
  constructor
  · intro precision hprecision hasher keys key
    refine ⟨_, _, addAll_eq hasher _ keys, add_eq hasher _ key, ?_⟩
    exact estimate_le_iff (registers_observe_le hasher _ [key])
  · intro hasher start hstart earlier later horderly actor window hcurrent htouched hsteady
    obtain ⟨verdicts, limiter, hrun, hfollows⟩ :=
      (follows_start .real hasher hstart).run horderly.left
    rw [List.nil_append, List.nil_append] at hfollows
    obtain ⟨more, last, hmore, hlast⟩ := hfollows.run horderly
    refine ⟨verdicts, limiter, more, last, hrun, hmore, ?_⟩
    have hbefore := expected_current horderly.left
      (fun touch htouch => hcurrent touch (List.mem_append_left _ htouch)) htouched hasher
    have hafter := expected_current horderly hcurrent
      (by rw [targetsIn_append]; exact List.append_ne_nil_of_left_ne_nil htouched _) hasher
    rw [targetsIn_append, ← observe_append] at hafter
    rw [hfollows.decided, hlast.decided, hbefore, hafter, Option.map_some,
      Option.map_some]
    intro hdenied
    exact congrArg some (deny_of_le hsteady.estimate_le (Option.some.inj hdenied))

/-- A limiter that denies every target. -/
def closed : DistinctVelocityLimiter := { three with maxDistinct := 0 }

/-- An actor touches its first target. -/
def opening : List Touch := [⟨"ip-1", "card-1", 10, id⟩]

/-- The first target of an actor is one too many. -/
theorem closed_denies {verdicts : List (Touch × Abuse.Decision)}
    {limiter : DistinctVelocityLimiter}
    (hrun : runSteps (DistinctVelocityLimiter.step .real multiplicative) closed opening =
      .ok (verdicts, limiter)) :
    lastDecision "ip-1" verdicts = some .deny := by
  have hopening : Orderly 3 opening := ⟨by decide, by decide⟩
  obtain ⟨others, other, hother, hfollows⟩ :=
    (follows_start .real multiplicative (show closed.actors = ∅ from rfl)).run hopening
  rw [List.nil_append, List.nil_append] at hfollows
  cases hother.symm.trans hrun
  have hused : zeros (fresh.observe multiplicative ["card-1"]).registers.toList <
      (fresh.observe multiplicative ["card-1"]).registers.toList.length := by decide +kernel
  have hentry := expected_current hopening
    (show ∀ touch ∈ opening, touch.nowMs / 1000 ≤ 0 by decide)
    (show targetsIn 1000 "ip-1" 0 opening ≠ [] by decide) multiplicative
  rw [hfollows.decided]
  refine (congrArg (Option.map _) hentry).trans (congrArg some (if_pos ?_))
  change ((0 : ℕ) : ℝ) < _
  rw [Nat.cast_zero]
  exact estimate_pos hused

/-- An actor that repeats its only target. -/
def repeating : List Touch := [⟨"ip-1", "card-1", 20, id⟩, ⟨"ip-2", "card-1", 30, id⟩,
  ⟨"ip-1", "card-1", 40, id⟩]

theorem repeating_steady :
    (fresh.observe multiplicative ["card-1"]).Steady multiplicative ["card-1", "card-1"] := by
  have hsame : ∀ done, (∀ key ∈ done, key = "card-1") →
      (fresh.observe multiplicative ["card-1"]).observe multiplicative done =
        fresh.observe multiplicative ["card-1"] := by
    intro done hdone
    rw [observe_append]
    apply observe_congr
    intro key
    simpa using hdone key
  rintro done key rest hsplit ⟨hsmall, hlarge, _⟩
  have honly : ∀ other ∈ done ++ key :: rest, other = "card-1" := by
    rw [← hsplit]
    decide
  rw [hsame done fun other hother => honly other (List.mem_append_left _ hother)] at hsmall
  rw [hsame (done ++ [key])] at hlarge
  · exact Bool.false_ne_true (hlarge.symm.trans hsmall)
  · intro other hother
    apply honly
    simp only [List.mem_append, List.mem_cons, List.not_mem_nil, or_false] at hother ⊢
    tauto

theorem estimate_rises_or_switches_repeating :
    (∃ before after, keys.foldlM (add spread) (HyperLogLog.new 4 (by decide)) = .ok before ∧
      before.add spread "q" = .ok after ∧
      (before.estimate .real ≤ after.estimate .real ↔ ¬ Drops before after)) ∧
    ∃ verdicts limiter more last,
      runSteps (DistinctVelocityLimiter.step .real multiplicative) closed opening =
        .ok (verdicts, limiter) ∧
      runSteps (DistinctVelocityLimiter.step .real multiplicative) limiter repeating =
        .ok (more, last) ∧
      lastDecision "ip-1" verdicts = some .deny ∧
      lastDecision "ip-1" (verdicts ++ more) = some .deny := by
  refine ⟨estimate_rises_or_switches.1 4 (by decide) spread keys "q", ?_⟩
  obtain ⟨verdicts, limiter, more, last, hrun, hmore, hstays⟩ :=
    estimate_rises_or_switches.2 multiplicative closed rfl opening repeating
      ⟨by decide, by decide⟩ "ip-1" 0 (by decide) (by decide) repeating_steady
  have hdenied := closed_denies hrun
  exact ⟨verdicts, limiter, more, last, hrun, hmore, hdenied, hstays hdenied⟩

end Velocity

end Onced
