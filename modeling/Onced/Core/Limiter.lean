import Onced.Core.Abuse
import Onced.Core.Store
import Onced.Foundation.Trace
import Onced.Foundation.SlidingWindow

/-! # Runs of the limiter

A check counts a hit on the counters of its key, and compares an estimate with the
limit. Which numbers the estimate is computed in does not touch the counters, so the
comparison is a parameter: the `f64` of the source, or exact rational numbers. As long
as no other key takes its place in the map, the counters of a key are a function of the
times at which it was checked.
-/

namespace Onced.Abuse

open Std Foundation Foundation.SlidingWindow

namespace WindowCounter

/-- Roll the windows forward and count a hit. -/
def count (windowMs : UInt64) (counter : Option WindowCounter) (nowMs : UInt64) :
    WindowCounter :=
  let windowIndex := nowMs / windowMs
  let rolled := (counter.getD ⟨windowIndex, 0, 0⟩).roll windowIndex
  { rolled with current := rolled.current + 1 }

/-- The estimate of the trailing rate, in rational numbers. -/
def estimate (windowMs nowMs : UInt64) (counted : WindowCounter) : ℚ :=
  let elapsed := nowMs % windowMs
  let prevWeight : ℚ := (windowMs - elapsed).toNat / windowMs.toNat
  counted.current.toNat + counted.previous.toNat * prevWeight

/-- The counters of a key after hits at these times. -/
def ofTimes (windowMs : UInt64) (counter : Option WindowCounter) (times : List UInt64) :
    Option WindowCounter :=
  times.foldl (fun counter nowMs => some (count windowMs counter nowMs)) counter

end WindowCounter

/-- What the estimate is computed in. -/
inductive Arithmetic where
  | float
  | exact

/-- The decision on counters that include the hit. -/
def Arithmetic.decision (windowMs limit nowMs : UInt64) (counted : WindowCounter) :
    Arithmetic → Decision
  | .float =>
      let elapsed := nowMs % windowMs
      let prevWeight := (windowMs - elapsed).toFloat / windowMs.toFloat
      let estimate := counted.current.toFloat + counted.previous.toFloat * prevWeight
      if estimate ≤ limit.toFloat then .allow else .deny
  | .exact => if counted.estimate windowMs nowMs ≤ limit.toNat then .allow else .deny

/-- One check of a run, with the order in which the map happens to be iterated. -/
structure Check where
  key : String
  nowMs : UInt64
  order : List String → List String

namespace SlidingWindowLimiter

def checkIn (arithmetic : Arithmetic) (limiter : SlidingWindowLimiter) (key : String)
    (nowMs : UInt64) : Decision × SlidingWindowLimiter :=
  let counters := limiter.evict key
  let counted := WindowCounter.count limiter.windowMs counters[key]? nowMs
  (arithmetic.decision limiter.windowMs limiter.limit nowMs counted,
    { limiter with counters := counters.insert key counted })

/-- The check of the source is the one in `f64`. -/
theorem check_eq_checkIn (limiter : SlidingWindowLimiter) (key : String) (nowMs : UInt64) :
    limiter.check key nowMs = limiter.checkIn .float key nowMs := rfl

/-- The estimate a check compares with the limit, in rational numbers. -/
def estimate (limiter : SlidingWindowLimiter) (key : String) (nowMs : UInt64) : ℚ :=
  (WindowCounter.count limiter.windowMs (limiter.evict key)[key]? nowMs).estimate limiter.windowMs
    nowMs

def serve (arithmetic : Arithmetic) (limiter : SlidingWindowLimiter) (check : Check) :
    Decision × SlidingWindowLimiter :=
  ({ limiter with order := check.order }).checkIn arithmetic check.key check.nowMs

/-- The limiter after a run. -/
def after (arithmetic : Arithmetic) (limiter : SlidingWindowLimiter) (checks : List Check) :
    SlidingWindowLimiter :=
  checks.foldl (fun limiter check => (limiter.serve arithmetic check).2) limiter

/-- The checks of a run with their decisions. -/
def run (arithmetic : Arithmetic) (limiter : SlidingWindowLimiter) :
    List Check → List (Check × Decision)
  | [] => []
  | check :: checks => (check, (limiter.serve arithmetic check).1) ::
      run arithmetic (limiter.serve arithmetic check).2 checks

/-- A check as a step that always returns. -/
def step (arithmetic : Arithmetic) (limiter : SlidingWindowLimiter) (check : Check) :
    Except Panic (Decision × SlidingWindowLimiter) :=
  .ok (limiter.serve arithmetic check)

/-- The check of another key does not take the place of `key`: the map is not full, or
has the checked key already, or yields another victim. -/
def Spares (key : String) (limiter : SlidingWindowLimiter) (check : Check) : Prop :=
  check.key ≠ key → limiter.counters.size < limiter.maxKeys ∨
    limiter.counters.contains check.key ∨ (check.order limiter.counters.keys).head? ≠ some key

section Lookups

variable {arithmetic : Arithmetic} {limiter : SlidingWindowLimiter} {check : Check} {key : String}

/-- Making room for a key does not change what is known about it. -/
theorem evict_self (limiter : SlidingWindowLimiter) (key : String) :
    (limiter.evict key)[key]? = limiter.counters[key]? := by
  unfold evict
  split
  next hfull =>
    have hnone : limiter.counters[key]? = none :=
      ExtTreeMap.getElem?_eq_none fun hmem => hfull.2 (ExtTreeMap.contains_iff_mem.mpr hmem)
    split
    next victim _ => rw [ExtTreeMap.getElem?_erase, hnone, ite_self]
    next => rfl
  next => rfl

/-- A victim is taken out, and no other key. -/
theorem evict_other (hspares : limiter.counters.size < limiter.maxKeys ∨
      limiter.counters.contains check.key ∨ (limiter.order limiter.counters.keys).head? ≠
        some key) :
    (limiter.evict check.key)[key]? = limiter.counters[key]? := by
  unfold evict
  split
  next hfull =>
    split
    next victim hvictim =>
      rw [ExtTreeMap.getElem?_erase, if_neg]
      rw [Std.compare_eq_iff_eq]
      rintro rfl
      -- the key is the victim: the map is full, the checked key is new, and this one is first
      rcases hspares with hroom | htracked | hother
      · omega
      · exact hfull.2 htracked
      · exact hother hvictim
    next => rfl
  next => rfl

/-- The decision on a check depends on the counters of its key alone. -/
theorem serve_fst (arithmetic : Arithmetic) (limiter : SlidingWindowLimiter) (check : Check) :
    (limiter.serve arithmetic check).1 =
      arithmetic.decision limiter.windowMs limiter.limit check.nowMs
        (WindowCounter.count limiter.windowMs limiter.counters[check.key]? check.nowMs) := by
  simp only [serve, checkIn, evict_self]

theorem serve_self (arithmetic : Arithmetic) (limiter : SlidingWindowLimiter) (check : Check) :
    (limiter.serve arithmetic check).2.counters[check.key]? =
      some (WindowCounter.count limiter.windowMs limiter.counters[check.key]? check.nowMs) := by
  simp only [serve, checkIn, evict_self, ExtTreeMap.getElem?_insert_self]

theorem serve_other (hother : check.key ≠ key) (hspares : limiter.Spares key check) :
    (limiter.serve arithmetic check).2.counters[key]? = limiter.counters[key]? := by
  simp only [serve, checkIn]
  rw [ExtTreeMap.getElem?_insert, if_neg (by rwa [Std.compare_eq_iff_eq])]
  exact @evict_other { limiter with order := check.order } check key (hspares hother)

end Lookups

/-! ## Other keys -/

/-- Two limiters with the same bounds that know the same about one key. -/
structure Knows (key : String) (one other : SlidingWindowLimiter) : Prop where
  windowMs : one.windowMs = other.windowMs
  limit : one.limit = other.limit
  counter : one.counters[key]? = other.counters[key]?

/-- As long as no other key takes its place, a key is decided as if it were the only one. -/
theorem run_filter {arithmetic : Arithmetic} {key : String} {checks : List Check}
    {one other : SlidingWindowLimiter} (hknows : Knows key one other)
    (hspared : Along (step arithmetic) (Spares key) one checks) :
    (one.run arithmetic checks).filter (fun verdict => verdict.1.key = key) =
      other.run arithmetic (checks.filter fun check => check.key = key) := by
  induction checks generalizing one other with
  | nil => rfl
  | cons check checks ih =>
      have hrest : Along (step arithmetic) (Spares key) (one.serve arithmetic check).2 checks :=
        hspared.tail rfl
      -- both limiters see a check of the key, and only the first one any other check
      by_cases hkey : check.key = key
      · subst hkey
        have hdecision : (one.serve arithmetic check).1 = (other.serve arithmetic check).1 := by
          rw [serve_fst, serve_fst, hknows.windowMs, hknows.limit, hknows.counter]
        have hnext : Knows check.key (one.serve arithmetic check).2
            (other.serve arithmetic check).2 := by
          refine ⟨hknows.windowMs, hknows.limit, ?_⟩
          rw [serve_self, serve_self, hknows.windowMs, hknows.counter]
        simp only [run, List.filter_cons, decide_true, if_true]
        rw [hdecision, ih hnext hrest]
      · have hnext : Knows key (one.serve arithmetic check).2 other :=
          ⟨hknows.windowMs, hknows.limit, (serve_other hkey hspared.1).trans hknows.counter⟩
        simp only [run, List.filter_cons, hkey, decide_false, Bool.false_eq_true, if_false]
        exact ih hnext hrest

/-- In every run in which no check of another key takes the place of `key`, the decisions
on `key` are those of the run without the other keys. -/
theorem independent_of_other_keys (arithmetic : Arithmetic) (limiter : SlidingWindowLimiter)
    (key : String) (checks : List Check)
    (hspared : Along (step arithmetic) (Spares key) limiter checks) :
    (limiter.run arithmetic checks).filter (fun verdict => verdict.1.key = key) =
      limiter.run arithmetic (checks.filter fun check => check.key = key) :=
  run_filter ⟨rfl, rfl, rfl⟩ hspared

/-- The map is full when "b" comes, and yields "a". -/
def sparing : List Check :=
  [⟨"k", 0, id⟩, ⟨"a", 0, fun _ => ["a"]⟩, ⟨"b", 0, fun _ => ["a"]⟩, ⟨"k", 1, id⟩]

theorem independent_of_other_keys_sparing :
    Along (step .float) (Spares "k") (withCapacity 1000 1 2 id (by decide) (by decide)) sparing ∧
      ((withCapacity 1000 1 2 id (by decide) (by decide)).run .float sparing).filter
          (fun verdict => verdict.1.key = "k") =
        (withCapacity 1000 1 2 id (by decide) (by decide)).run .float
          (sparing.filter fun check => check.key = "k") := by
  have hspared : Along (step .float) (Spares "k")
      (withCapacity 1000 1 2 id (by decide) (by decide)) sparing := by
    refine along_of_forall (fun check hcheck limiter hother => Or.inr (Or.inr ?_)) _
    simp only [sparing, List.mem_cons, List.not_mem_nil, or_false] at hcheck
    rcases hcheck with rfl | rfl | rfl | rfl
    · exact absurd rfl hother
    · simp
    · simp
    · exact absurd rfl hother
  exact ⟨hspared, independent_of_other_keys .float _ "k" sparing hspared⟩

/-- The map is full when "other" comes, and yields "k". -/
def crowded : List Check :=
  [⟨"k", 0, id⟩, ⟨"k", 0, id⟩, ⟨"other", 0, id⟩, ⟨"k", 0, id⟩]

/-- The check of another key turns a refusal into an approval. -/
theorem eviction_lets_through :
    (((withCapacity 1000 1 1 id (by decide) (by decide)).run .exact crowded).filter
        (fun verdict => verdict.1.key = "k")).map Prod.snd = [.allow, .deny, .allow] ∧
      ((withCapacity 1000 1 1 id (by decide) (by decide)).run .exact
        (crowded.filter fun check => check.key = "k")).map Prod.snd = [.allow, .deny, .deny] := by
  decide +kernel

end SlidingWindowLimiter

end Onced.Abuse
