import Onced.Core.Limiter

/-! # What the limiter lets through

With room in the map for every key, the two counters of a key are the hits of two
windows in the log of all its checks, as long as these numbers fit their machine
integers. So the limiter admits what the log admits, and the bounds on that are bounds
on what it lets through.
-/

namespace Onced.Abuse

open Std Foundation Foundation.SlidingWindow

/-- The times at which a key is checked. -/
def times (key : String) (checks : List Check) : List UInt64 :=
  (checks.filter fun check => check.key = key).map Check.nowMs

/-- The same times as numbers. -/
def log (key : String) (checks : List Check) : List Nat := (times key checks).map UInt64.toNat

/-- The clock does not go back, and there is room for one more key. -/
structure Orderly (maxKeys : Nat) (checks : List Check) : Prop where
  sorted : checks.Pairwise fun earlier later => earlier.nowMs ≤ later.nowMs
  roomy : (checks.map Check.key).dedup.length < maxKeys

/-- The window after that of any check has an index, and the hits of a window a count. -/
structure InRange (windowMs : UInt64) (key : String) (checks : List Check) : Prop where
  indexed : ∀ nowMs ∈ log key checks, nowMs / windowMs.toNat < 2 ^ 64 - 1
  counted : ∀ index, hits windowMs.toNat (log key checks) index < 2 ^ 64

theorem times_append (key : String) (checks : List Check) (check : Check) :
    times key (checks ++ [check]) =
      times key checks ++ if check.key = key then [check.nowMs] else [] := by
  by_cases hkey : check.key = key
  · simp [times, List.filter_append, hkey]
  · simp [times, List.filter_append, hkey]

theorem log_append (key : String) (checks : List Check) (check : Check) :
    log key (checks ++ [check]) =
      log key checks ++ if check.key = key then [check.nowMs.toNat] else [] := by
  rw [log, times_append, List.map_append, ← log]
  split <;> rfl

theorem Orderly.left {maxKeys : Nat} {first second : List Check}
    (horderly : Orderly maxKeys (first ++ second)) : Orderly maxKeys first := by
  refine ⟨(List.pairwise_append.mp horderly.sorted).1, Nat.lt_of_le_of_lt ?_ horderly.roomy⟩
  rw [List.map_append]
  exact length_dedup_le_append _ _

theorem Orderly.log_sorted {maxKeys : Nat} {checks : List Check} (horderly : Orderly maxKeys checks)
    (key : String) : (log key checks).Pairwise (· ≤ ·) := by
  simp only [log, times, List.map_map]
  rw [List.pairwise_map]
  exact (horderly.sorted.filter _).imp fun hle => UInt64.le_iff_toNat_le.mp hle

theorem InRange.left {windowMs : UInt64} {key : String} {checks : List Check} {check : Check}
    (hrange : InRange windowMs key (checks ++ [check])) : InRange windowMs key checks := by
  have hlog := log_append key checks check
  constructor
  · intro nowMs hnowMs
    exact hrange.indexed nowMs (hlog ▸ List.mem_append_left _ hnowMs)
  · intro index
    refine Nat.lt_of_le_of_lt ?_ (hrange.counted index)
    rw [hlog, hits, hits, List.countP_append]
    exact Nat.le_add_right _ _

/-! ## The counters of a key -/

namespace SlidingWindowLimiter

variable {arithmetic : Arithmetic} {limiter : SlidingWindowLimiter} {checks : List Check}
  {key : String}

/-- Only these keys are tracked, and they fit under the cap. -/
structure Tracks (limiter : SlidingWindowLimiter) (keys : List String) : Prop where
  tracked : ∀ key, key ∉ keys → limiter.counters[key]? = none
  fits : keys.dedup.length < limiter.maxKeys

theorem Tracks.spares {keys : List String} (htracks : limiter.Tracks keys) (key : String)
    (check : Check) : limiter.Spares key check :=
  fun _ => Or.inl (Nat.lt_of_le_of_lt (size_le_of_tracked htracks.tracked) htracks.fits)

theorem Tracks.serve {keys : List String} (htracks : limiter.Tracks keys) {check : Check}
    (hkey : check.key ∈ keys) : (limiter.serve arithmetic check).2.Tracks keys := by
  refine ⟨fun other hother => ?_, htracks.fits⟩
  have hne : check.key ≠ other := by
    rintro rfl
    exact hother hkey
  rw [serve_other hne (htracks.spares other check)]
  exact htracks.tracked other hother

/-- With room for every key, no check takes the place of a key. -/
theorem Tracks.along (htracks : limiter.Tracks (checks.map Check.key)) :
    Along (step arithmetic) (Spares key) limiter checks := by
  refine along_of_invariant (fun limiter => limiter.Tracks (checks.map Check.key)) ?_ ?_ htracks
  · intro check _ limiter htracks
    exact htracks.spares key check
  · intro check hcheck limiter decision next htracks hstep
    obtain rfl : (limiter.serve arithmetic check).2 = next :=
      congrArg Prod.snd (Except.ok.inj hstep)
    exact htracks.serve (List.mem_map_of_mem hcheck)

/-- The counters of a key that keeps its place come from its own times. -/
theorem counters_after (hspared : Along (step arithmetic) (Spares key) limiter checks) :
    (limiter.after arithmetic checks).counters[key]? =
      WindowCounter.ofTimes limiter.windowMs limiter.counters[key]? (times key checks) := by
  induction checks generalizing limiter with
  | nil => rfl
  | cons check checks ih =>
      have hrest : Along (step arithmetic) (Spares key) (limiter.serve arithmetic check).2 checks :=
        hspared.tail rfl
      refine (ih hrest).trans ?_
      change WindowCounter.ofTimes limiter.windowMs _ _ = _
      by_cases hkey : check.key = key
      · subst hkey
        rw [serve_self]
        simp [times, WindowCounter.ofTimes]
      · rw [serve_other hkey hspared.1]
        simp [times, hkey]

theorem after_bounds (arithmetic : Arithmetic) (limiter : SlidingWindowLimiter)
    (checks : List Check) :
    (limiter.after arithmetic checks).windowMs = limiter.windowMs ∧
      (limiter.after arithmetic checks).limit = limiter.limit := by
  induction checks generalizing limiter with
  | nil => exact ⟨rfl, rfl⟩
  | cons check checks ih => exact ih (limiter.serve arithmetic check).2

end SlidingWindowLimiter

namespace WindowCounter

theorem ofTimes_append (windowMs : UInt64) (counter : Option WindowCounter) (earlier : List UInt64)
    (nowMs : UInt64) :
    ofTimes windowMs counter (earlier ++ [nowMs]) =
      some (count windowMs (ofTimes windowMs counter earlier) nowMs) := by
  rw [ofTimes, List.foldl_append]
  rfl

/-- Rolling the windows forward to a window that is not behind and has a successor. -/
theorem roll_eq {index next current previous : UInt64} (hindexed : next.toNat < 2 ^ 64 - 1)
    (hforward : index.toNat ≤ next.toNat) :
    (WindowCounter.mk index current previous).roll next =
      if next.toNat = index.toNat then ⟨index, current, previous⟩
      else if next.toNat = index.toNat + 1 then ⟨next, 0, current⟩
      else ⟨next, 0, 0⟩ := by
  -- this is where the bound is needed: the successor of the last index is zero
  have hsucc : (index + 1).toNat = index.toNat + 1 := by
    rw [UInt64.toNat_add, UInt64.toNat_one]
    exact Nat.mod_eq_of_lt (by omega)
  simp only [roll, ← UInt64.toNat_inj, gt_iff_lt, UInt64.lt_iff_toNat_lt, hsucc]
  split_ifs <;> first | rfl | omega

/-- The counters that a log ending in the window `windowIndex` calls for. -/
def ofLog (windowMs windowIndex : UInt64) (log : List Nat) : WindowCounter :=
  ⟨windowIndex, .ofNat (hits windowMs.toNat log windowIndex.toNat),
    .ofNat (hitsBefore windowMs.toNat log windowIndex.toNat)⟩

/-- A hit in the window to which the log has been rolled forward. -/
theorem ofLog_append (windowMs nowMs : UInt64) (log : List Nat) :
    ofLog windowMs (nowMs / windowMs) (log ++ [nowMs.toNat]) =
      { ofLog windowMs (nowMs / windowMs) log with
        current := (ofLog windowMs (nowMs / windowMs) log).current + 1 } := by
  simp only [ofLog, hits_append, hitsBefore_append, UInt64.toNat_div, if_true,
    if_neg (Nat.succ_ne_self _), Nat.add_zero, UInt64.ofNat_add]
  rfl

/-- Rolling forward a log that ends in the window `windowIndex`. -/
theorem roll_ofLog {windowMs windowIndex next : UInt64} {log : List Nat}
    (hindexed : next.toNat < 2 ^ 64 - 1) (hforward : windowIndex.toNat ≤ next.toNat)
    (hpast : ∀ time ∈ log, time / windowMs.toNat ≤ windowIndex.toNat) :
    (ofLog windowMs windowIndex log).roll next = ofLog windowMs next log := by
  rw [ofLog, roll_eq hindexed hforward]
  by_cases hsame : next.toNat = windowIndex.toNat
  · rw [if_pos hsame, UInt64.toNat_inj.mp hsame]
    rfl
  -- the log has not reached the new window
  · have hcurrent : hits windowMs.toNat log next.toNat = 0 := by
      refine hits_eq_zero fun time htime => Nat.lt_of_le_of_lt (hpast time htime) ?_
      exact Nat.lt_of_le_of_ne hforward (Ne.symm hsame)
    rw [if_neg hsame]
    by_cases hnext : next.toNat = windowIndex.toNat + 1
    · rw [if_pos hnext, ofLog, hcurrent, hnext, hitsBefore_succ]
      rfl
    · have hprevious : hitsBefore windowMs.toNat log next.toNat = 0 := by
        refine hitsBefore_eq_zero fun time htime => ?_
        have := hpast time htime
        omega
      rw [if_neg hnext, ofLog, hcurrent, hprevious]
      rfl

/-- The counters after hits in order are those the log calls for. -/
theorem ofTimes_eq {windowMs : UInt64} {earlier : List UInt64} {nowMs : UInt64}
    (hsorted : ((earlier ++ [nowMs]).map UInt64.toNat).Pairwise (· ≤ ·))
    (hindexed : ∀ time ∈ (earlier ++ [nowMs]).map UInt64.toNat,
      time / windowMs.toNat < 2 ^ 64 - 1) :
    ofTimes windowMs none (earlier ++ [nowMs]) =
      some (ofLog windowMs (nowMs / windowMs) ((earlier ++ [nowMs]).map UInt64.toNat)) := by
  -- on the hits before the last one, the latest of which is not later than it
  induction earlier using List.reverseRecOn generalizing nowMs with
  | nil =>
      have hnow : (nowMs / windowMs).toNat < 2 ^ 64 - 1 := by
        rw [UInt64.toNat_div]
        exact hindexed nowMs.toNat (by simp)
      rw [ofTimes_append, List.nil_append, List.map_singleton, ← List.nil_append [nowMs.toNat],
        ofLog_append]
      simp only [ofTimes, List.foldl_nil, count, Option.getD_none]
      rw [roll_eq hnow le_rfl, if_pos rfl]
      rfl
  | append_singleton earlier last ih =>
      rw [List.map_append, List.map_singleton] at hsorted hindexed ⊢
      obtain ⟨hbefore, -, hlatest⟩ := List.pairwise_append.mp hsorted
      have hlast := ih hbefore fun time htime => hindexed time (List.mem_append_left _ htime)
      have hnow : (nowMs / windowMs).toNat < 2 ^ 64 - 1 := by
        rw [UInt64.toNat_div]
        exact hindexed nowMs.toNat (List.mem_append_right _ List.mem_cons_self)
      have hforward : (last / windowMs).toNat ≤ (nowMs / windowMs).toNat := by
        rw [UInt64.toNat_div, UInt64.toNat_div]
        exact Nat.div_le_div_right (hlatest last.toNat (by simp) nowMs.toNat List.mem_cons_self)
      have hpast : ∀ time ∈ (earlier ++ [last]).map UInt64.toNat,
          time / windowMs.toNat ≤ (last / windowMs).toNat := by
        rw [List.map_append, List.map_singleton] at hbefore ⊢
        intro time htime
        rw [UInt64.toNat_div]
        exact Nat.div_le_div_right (le_last hbefore time htime)
      rw [ofTimes_append, hlast, ofLog_append, ← roll_ofLog hnow hforward hpast]
      rfl

end WindowCounter

/-! ## Decisions -/

theorem toNat_pos {windowMs : UInt64} (hwindow : windowMs ≠ 0) : 0 < windowMs.toNat :=
  Nat.pos_of_ne_zero fun hzero => hwindow (UInt64.toNat_inj.mp hzero)

namespace WindowCounter

variable {windowMs nowMs : UInt64}

/-- The estimate over the common denominator. -/
theorem estimate_mul (hwindow : windowMs ≠ 0) (counted : WindowCounter) :
    counted.estimate windowMs nowMs * windowMs.toNat =
      ((counted.current.toNat * windowMs.toNat +
        counted.previous.toNat * (windowMs.toNat - nowMs.toNat % windowMs.toNat) : Nat) : ℚ) := by
  have hpos := toNat_pos hwindow
  have helapsed : nowMs % windowMs ≤ windowMs := by
    rw [UInt64.le_iff_toNat_le, UInt64.toNat_mod]
    exact (Nat.mod_lt _ hpos).le
  have hne : (windowMs.toNat : ℚ) ≠ 0 := Nat.cast_ne_zero.mpr hpos.ne'
  rw [estimate, UInt64.toNat_sub_of_le _ _ helapsed, UInt64.toNat_mod]
  push_cast
  field_simp

/-- The estimate on the counters of a log is its weight. -/
theorem estimate_ofLog (hwindow : windowMs ≠ 0) {log : List Nat}
    (hcounted : ∀ index, hits windowMs.toNat log index < 2 ^ 64) :
    (ofLog windowMs (nowMs / windowMs) log).estimate windowMs nowMs * windowMs.toNat =
      (weight windowMs.toNat log nowMs.toNat : ℚ) := by
  rw [estimate_mul hwindow, ofLog, UInt64.toNat_ofNat_of_lt' (hcounted _),
    UInt64.toNat_ofNat_of_lt' (hitsBefore_lt hcounted _), UInt64.toNat_div]
  rfl

end WindowCounter

namespace SlidingWindowLimiter

variable {windowMs limit : UInt64} {maxKeys : Nat} {order : List String → List String}
  {hwindow : windowMs ≠ 0} {hmax : 0 < maxKeys} {earlier checks : List Check} {check : Check}

/-- With room for every key, the counters of a key are those its log calls for. -/
theorem count_after (horderly : Orderly maxKeys (earlier ++ [check]))
    (hindexed : ∀ nowMs ∈ log check.key (earlier ++ [check]), nowMs / windowMs.toNat < 2 ^ 64 - 1)
    (arithmetic : Arithmetic) :
    WindowCounter.count windowMs ((withCapacity windowMs limit maxKeys order hwindow hmax).after
        arithmetic earlier).counters[check.key]? check.nowMs =
      .ofLog windowMs (check.nowMs / windowMs) (log check.key (earlier ++ [check])) := by
  have htracks : (withCapacity windowMs limit maxKeys order hwindow hmax).Tracks
      (earlier.map Check.key) :=
    ⟨fun _ _ => ExtTreeMap.getElem?_empty, horderly.left.roomy⟩
  have htimes : times check.key (earlier ++ [check]) =
      times check.key earlier ++ [check.nowMs] := by
    rw [times_append, if_pos rfl]
  have hsorted := horderly.log_sorted check.key
  rw [log, htimes] at hsorted hindexed ⊢
  have hcounted := WindowCounter.ofTimes_eq hsorted hindexed
  rw [WindowCounter.ofTimes_append] at hcounted
  rw [counters_after htracks.along]
  exact Option.some.inj hcounted

/-- The estimate a check compares with the limit is the weight of the log of its key. -/
theorem estimate_after (horderly : Orderly maxKeys (earlier ++ [check]))
    (hrange : InRange windowMs check.key (earlier ++ [check])) (arithmetic : Arithmetic) :
    ((withCapacity windowMs limit maxKeys order hwindow hmax).after arithmetic earlier).estimate
        check.key check.nowMs * windowMs.toNat =
      (weight windowMs.toNat (log check.key (earlier ++ [check])) check.nowMs.toNat : ℚ) := by
  rw [estimate, evict_self, (after_bounds _ _ _).1]
  change (WindowCounter.count windowMs _ _).estimate windowMs _ * _ = _
  rw [count_after horderly hrange.indexed]
  exact WindowCounter.estimate_ofLog hwindow hrange.counted

theorem serve_exact (limiter : SlidingWindowLimiter) (check : Check) :
    (limiter.serve .exact check).1 = .allow ↔
      limiter.estimate check.key check.nowMs ≤ limiter.limit.toNat := by
  rw [serve_fst, estimate, evict_self, Arithmetic.decision]
  split <;> simp_all

/-- A check is allowed if the log of its key admits it. -/
theorem serve_after_iff (horderly : Orderly maxKeys (earlier ++ [check]))
    (hrange : InRange windowMs check.key (earlier ++ [check])) :
    (((withCapacity windowMs limit maxKeys order hwindow hmax).after .exact earlier).serve .exact
        check).1 = .allow ↔
      weight windowMs.toNat (log check.key (earlier ++ [check])) check.nowMs.toNat ≤
        limit.toNat * windowMs.toNat := by
  have hpos : (0 : ℚ) < windowMs.toNat := Nat.cast_pos.mpr (toNat_pos hwindow)
  rw [serve_exact, (after_bounds _ _ _).2, ← mul_le_mul_iff_left₀ hpos,
    estimate_after horderly hrange]
  exact_mod_cast Iff.rfl

/-- The two counters decide as the full log of the key does. -/
theorem allow_iff_log (windowMs limit : UInt64) (maxKeys : Nat) (order : List String → List String)
    (hwindow : windowMs ≠ 0) (hmax : 0 < maxKeys) (earlier : List Check) (check : Check)
    (horderly : Orderly maxKeys (earlier ++ [check]))
    (hrange : InRange windowMs check.key (earlier ++ [check])) :
    (((withCapacity windowMs limit maxKeys order hwindow hmax).after .exact earlier).serve .exact
        check).1 = .allow ↔
      hits windowMs.toNat (log check.key (earlier ++ [check]))
            (check.nowMs.toNat / windowMs.toNat) * windowMs.toNat +
          hitsBefore windowMs.toNat (log check.key (earlier ++ [check]))
            (check.nowMs.toNat / windowMs.toNat) *
              (windowMs.toNat - check.nowMs.toNat % windowMs.toNat) ≤
        limit.toNat * windowMs.toNat :=
  serve_after_iff horderly hrange

/-- A burst in one window, and a check of each of two keys in the next. -/
def burst : List Check :=
  [⟨"k", 999, id⟩, ⟨"k", 999, id⟩, ⟨"k", 999, id⟩, ⟨"k", 999, id⟩, ⟨"k", 999, id⟩, ⟨"a", 1200, id⟩]

theorem burst_orderly : Orderly 3 (burst ++ [⟨"k", 1500, id⟩]) :=
  ⟨by decide, by decide⟩

theorem burst_inRange : InRange 1000 "k" (burst ++ [⟨"k", 1500, id⟩]) := by
  have hlog : log "k" (burst ++ [⟨"k", 1500, id⟩]) = [999, 999, 999, 999, 999, 1500] := by decide
  constructor
  · rw [hlog]
    decide
  · intro index
    rw [hlog]
    exact Nat.lt_of_le_of_lt List.countP_le_length (by decide)

theorem allow_iff_log_burst :
    Orderly 3 (burst ++ [⟨"k", 1500, id⟩]) ∧ InRange 1000 "k" (burst ++ [⟨"k", 1500, id⟩]) ∧
      ((((withCapacity 1000 5 3 id (by decide) (by decide)).after .exact burst).serve .exact
          ⟨"k", 1500, id⟩).1 = .allow ↔ 1 * 1000 + 5 * (1000 - 500) ≤ 5 * 1000) :=
  ⟨burst_orderly, burst_inRange, allow_iff_log 1000 5 3 id (by decide) (by decide) burst
    ⟨"k", 1500, id⟩ burst_orderly burst_inRange⟩

/-- Checks of one key at one instant. -/
def flood (count : Nat) : List Check := List.replicate count ⟨"k", 0, id⟩

theorem flood_append (count : Nat) : flood count ++ [⟨"k", 0, id⟩] = flood (count + 1) :=
  List.replicate_succ'.symm

theorem log_flood (count : Nat) : log "k" (flood count) = List.replicate count 0 := by
  simp [log, times, flood]

theorem flood_orderly (count : Nat) : Orderly 2 (flood count) := by
  constructor
  · exact List.pairwise_replicate.mpr (Or.inr (UInt64.le_refl 0))
  · have hsubset : ((flood count).map Check.key).dedup ⊆ ["k"] := by
      intro key hkey
      simp only [flood, List.map_replicate, List.mem_dedup, List.mem_replicate] at hkey
      exact List.mem_singleton.mpr hkey.2
    exact Nat.lt_succ_of_le ((List.nodup_dedup _).subperm hsubset).length_le

theorem flood_indexed (count : Nat) :
    ∀ nowMs ∈ log "k" (flood count), nowMs / (1000 : UInt64).toNat < 2 ^ 64 - 1 := by
  intro nowMs hnowMs
  rw [log_flood] at hnowMs
  rw [List.eq_of_mem_replicate hnowMs]
  decide

/-- The number of hits is kept in 64 bits. -/
theorem count_flood (count : Nat) :
    WindowCounter.count 1000 ((withCapacity 1000 1 2 id (by decide) (by decide)).after .exact
      (flood count)).counters["k"]? 0 = ⟨0, .ofNat (count + 1), 0⟩ := by
  have hcount := @count_after 1000 1 2 id (by decide) (by decide) (flood count) ⟨"k", 0, id⟩
    (by rw [flood_append]; exact flood_orderly _) (by rw [flood_append]; exact flood_indexed _)
    .exact
  rw [flood_append, log_flood] at hcount
  refine hcount.trans ?_
  simp [WindowCounter.ofLog, hits, hitsBefore, List.countP_replicate]

/-- After as many checks in one window as there are numbers in 64 bits, the count is zero again. -/
theorem flood_wraps {count : Nat} (hwraps : count + 1 = 2 ^ 64) :
    (((withCapacity 1000 1 2 id (by decide) (by decide)).after .exact (flood count)).serve .exact
        ⟨"k", 0, id⟩).1 = .allow := by
  rw [serve_exact, estimate, evict_self, (after_bounds _ _ _).1, (after_bounds _ _ _).2]
  change WindowCounter.estimate 1000 0 (WindowCounter.count 1000 _ 0) ≤ _
  rw [count_flood, hwraps]
  decide +kernel

theorem flood_exceeds {count : Nat} (hwraps : count + 1 = 2 ^ 64) :
    ¬ hits 1000 (log "k" (flood (count + 1))) (0 / 1000) * 1000 +
        hitsBefore 1000 (log "k" (flood (count + 1))) (0 / 1000) * (1000 - 0 % 1000) ≤
          1 * 1000 := by
  have hhits : hits 1000 (log "k" (flood (count + 1))) (0 / 1000) = 2 ^ 64 := by
    rw [log_flood, hits, List.countP_replicate, hwraps]
    simp
  rw [hhits]
  omega

/-- The check that fills the 64 bits is allowed, against what the log says. -/
theorem wrapped_count_allowed :
    Orderly 2 (flood (2 ^ 64 - 1 + 1)) ∧
      (∀ nowMs ∈ log "k" (flood (2 ^ 64 - 1 + 1)), nowMs / (1000 : UInt64).toNat < 2 ^ 64 - 1) ∧
      flood (2 ^ 64 - 1 + 1) = flood (2 ^ 64 - 1) ++ [⟨"k", 0, id⟩] ∧
      (((withCapacity 1000 1 2 id (by decide) (by decide)).after .exact (flood (2 ^ 64 - 1))).serve
        .exact ⟨"k", 0, id⟩).1 = .allow ∧
      ¬ hits 1000 (log "k" (flood (2 ^ 64 - 1 + 1))) (0 / 1000) * 1000 +
          hitsBefore 1000 (log "k" (flood (2 ^ 64 - 1 + 1))) (0 / 1000) * (1000 - 0 % 1000) ≤
        1 * 1000 := by
  have hwraps : 2 ^ 64 - 1 + 1 = 2 ^ 64 := by decide
  exact ⟨flood_orderly _, flood_indexed _, (flood_append _).symm, flood_wraps hwraps,
    flood_exceeds hwraps⟩

/-! ## How much is let through -/

/-- The times at which a key is allowed. -/
def allowed (key : String) (verdicts : List (Check × Decision)) : List Nat :=
  (verdicts.filter fun verdict => verdict.1.key = key ∧ verdict.2 = .allow).map
    fun verdict => verdict.1.nowMs.toNat

theorem run_append (arithmetic : Arithmetic) (limiter : SlidingWindowLimiter) (checks : List Check)
    (check : Check) :
    limiter.run arithmetic (checks ++ [check]) = limiter.run arithmetic checks ++
      [(check, ((limiter.after arithmetic checks).serve arithmetic check).1)] := by
  induction checks generalizing limiter with
  | nil => rfl
  | cons first checks ih =>
      rw [List.cons_append, run, ih]
      rfl

theorem allowed_append (key : String) (verdicts : List (Check × Decision))
    (verdict : Check × Decision) :
    allowed key (verdicts ++ [verdict]) = allowed key verdicts ++
      if verdict.1.key = key ∧ verdict.2 = .allow then [verdict.1.nowMs.toNat] else [] := by
  by_cases hallowed : verdict.1.key = key ∧ verdict.2 = .allow
  · simp [allowed, List.filter_append, hallowed]
  · simp only [allowed, List.filter_append, List.filter_cons, hallowed, decide_false,
      Bool.false_eq_true, if_false, List.filter_nil, List.append_nil]

/-- A key is allowed at the times its log admits. -/
theorem allowed_run {key : String} (horderly : Orderly maxKeys checks)
    (hrange : InRange windowMs key checks) :
    allowed key ((withCapacity windowMs limit maxKeys order hwindow hmax).run .exact checks) =
      admitted windowMs.toNat limit.toNat (log key checks) := by
  induction checks using List.reverseRecOn with
  | nil => rfl
  | append_singleton checks check ih =>
      rw [run_append, allowed_append, ih horderly.left hrange.left]
      by_cases hkey : check.key = key
      · subst hkey
        have hdecision := @serve_after_iff windowMs limit maxKeys order hwindow hmax checks check
          horderly hrange
        rw [log_append, if_pos rfl] at hdecision ⊢
        rw [admitted_append]
        simp only [true_and, hdecision]
      · rw [log_append, if_neg hkey, if_neg (fun hboth => hkey hboth.1), List.append_nil,
          List.append_nil]

/-- In every run whose counts and window indices fit, an aligned window sees at most `limit`
approvals of a key, and an interval as long as a window at most `2 * limit - 1`. -/
theorem admission_bound (windowMs limit : UInt64) (maxKeys : Nat)
    (order : List String → List String) (hwindow : windowMs ≠ 0) (hmax : 0 < maxKeys)
    (hlimit : 1 ≤ limit) (key : String) (checks : List Check) (horderly : Orderly maxKeys checks)
    (hrange : InRange windowMs key checks) :
    (∀ index, (allowed key ((withCapacity windowMs limit maxKeys order hwindow hmax).run .exact
        checks)).countP
          (fun time => index * windowMs.toNat ≤ time ∧ time < (index + 1) * windowMs.toNat) ≤
        limit.toNat) ∧
      ∀ start, (allowed key ((withCapacity windowMs limit maxKeys order hwindow hmax).run .exact
        checks)).countP (fun time => start ≤ time ∧ time < start + windowMs.toNat) ≤
          2 * limit.toNat - 1 := by
  have hwidth := toNat_pos hwindow
  have hpos : 0 < limit.toNat := UInt64.le_iff_toNat_le.mp hlimit
  rw [allowed_run horderly hrange]
  constructor
  · intro index
    rw [← hits_eq_countP_interval hwidth]
    exact hits_admitted_le hwidth _ _ index
  · intro start
    exact Nat.le_sub_one_of_lt (countP_admitted_lt hwidth hpos (horderly.log_sorted key) start)

theorem admission_bound_burst :
    (1 : UInt64) ≤ 5 ∧ Orderly 3 (burst ++ [⟨"k", 1500, id⟩]) ∧
      InRange 1000 "k" (burst ++ [⟨"k", 1500, id⟩]) ∧
      (∀ index, (allowed "k" ((withCapacity 1000 5 3 id (by decide) (by decide)).run .exact
        (burst ++ [⟨"k", 1500, id⟩]))).countP
          (fun time => index * UInt64.toNat 1000 ≤ time ∧ time < (index + 1) * UInt64.toNat 1000) ≤
        5) ∧
      ∀ start, (allowed "k" ((withCapacity 1000 5 3 id (by decide) (by decide)).run .exact
        (burst ++ [⟨"k", 1500, id⟩]))).countP
          (fun time => start ≤ time ∧ time < start + UInt64.toNat 1000) ≤ 9 :=
  ⟨by decide, burst_orderly, burst_inRange, admission_bound 1000 5 3 id (by decide) (by decide)
    (by decide) "k" (burst ++ [⟨"k", 1500, id⟩]) burst_orderly burst_inRange⟩

/-- In the last window of all, each check starts counting anew. -/
theorem last_window_unlimited :
    Orderly 2 [⟨"k", .ofNat (2 ^ 64 - 1), id⟩, ⟨"k", .ofNat (2 ^ 64 - 1), id⟩] ∧
      (allowed "k" ((withCapacity 1 1 2 id (by decide) (by decide)).run .exact
        [⟨"k", .ofNat (2 ^ 64 - 1), id⟩, ⟨"k", .ofNat (2 ^ 64 - 1), id⟩])).countP
          (fun time => (2 ^ 64 - 1) * 1 ≤ time ∧ time < (2 ^ 64 - 1 + 1) * 1) = 2 := by
  constructor
  · exact ⟨by decide, by decide⟩
  · decide +kernel

/-! ## How far the estimate is off -/

/-- The estimate covers the checks of the trailing window exactly if the late ones of the
window before are no more than its weighted share, and never falls short by more than the
share that is weighted away. -/
theorem estimate_approximates (windowMs limit : UInt64) (maxKeys : Nat)
    (order : List String → List String) (hwindow : windowMs ≠ 0) (hmax : 0 < maxKeys)
    (earlier : List Check) (check : Check) (horderly : Orderly maxKeys (earlier ++ [check]))
    (hrange : InRange windowMs check.key (earlier ++ [check])) :
    Approximates windowMs.toNat (log check.key (earlier ++ [check])) check.nowMs.toNat
      (((withCapacity windowMs limit maxKeys order hwindow hmax).after .exact earlier).estimate
        check.key check.nowMs) := by
  have hsorted := horderly.log_sorted check.key
  refine approximates_of_weight (toNat_pos hwindow) ?_ (estimate_after horderly hrange .exact)
  rw [log_append, if_pos rfl] at hsorted ⊢
  exact le_last hsorted

theorem estimate_approximates_burst :
    Orderly 3 (burst ++ [⟨"k", 1500, id⟩]) ∧ InRange 1000 "k" (burst ++ [⟨"k", 1500, id⟩]) ∧
      Approximates 1000 (log "k" (burst ++ [⟨"k", 1500, id⟩])) 1500
        (((withCapacity 1000 5 3 id (by decide) (by decide)).after .exact burst).estimate
          "k" 1500) :=
  ⟨burst_orderly, burst_inRange, estimate_approximates 1000 5 3 id (by decide) (by decide) burst
    ⟨"k", 1500, id⟩ burst_orderly burst_inRange⟩

/-- Half a window after a burst, half of it is weighted away while all of it still counts. -/
theorem burst_undercounted :
    Orderly 3 (burst ++ [⟨"k", 1500, id⟩]) ∧
      ((withCapacity 1000 5 3 id (by decide) (by decide)).after .exact burst).estimate "k" 1500 =
        7 / 2 ∧
      trailing 1000 (log "k" (burst ++ [⟨"k", 1500, id⟩])) 1500 = 6 := by
  refine ⟨burst_orderly, ?_, by decide⟩
  decide +kernel

end SlidingWindowLimiter

end Onced.Abuse
