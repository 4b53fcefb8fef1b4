import Onced.Core.Rules
import Onced.Core.Velocity
import Onced.Foundation.CappedMap

/-! # The memory of the limiters

Both limiters keep a map with a cap on its keys, and give up a key of their choice for a
new one once the map is full. However a flood rotates its keys, and in whatever order the
maps are iterated, the number of keys that are tracked is the number of distinct keys that
were ever seen, or the cap if that is less.
-/

namespace Onced

open Foundation Foundation.CappedMap

/-- An order in which a map can be iterated. -/
def IterationOrder (order : List String → List String) : Prop := ∀ keys, (order keys).Perm keys

/-! ## Sliding windows -/

namespace Abuse

namespace SlidingWindowLimiter

variable {limiter : SlidingWindowLimiter} {seen : List String}

def trackedKeys (limiter : SlidingWindowLimiter) : Nat := limiter.counters.size

/-- The map of the limiter has been fed with these keys. -/
def Fed (seen : List String) (limiter : SlidingWindowLimiter) : Prop :=
  CappedMap.Fed limiter.maxKeys seen limiter.counters

theorem evict_eq_makeRoom (limiter : SlidingWindowLimiter) (key : String) :
    limiter.evict key = makeRoom limiter.maxKeys limiter.order key limiter.counters := by
  unfold evict makeRoom
  cases (limiter.order limiter.counters.keys).head? with
  | none => rfl
  | some victim => rfl

theorem Fed.serve (hfed : limiter.Fed seen) (arithmetic : Arithmetic) {check : Check}
    (horder : IterationOrder check.order) :
    (limiter.serve arithmetic check).2.Fed (seen ++ [check.key]) := by
  have hnext := fun counted : WindowCounter => CappedMap.Fed.insert hfed limiter.maxKeys_pos
    (horder limiter.counters.keys) check.key counted
  simp only [SlidingWindowLimiter.serve, checkIn, evict_eq_makeRoom, Fed]
  exact hnext _

theorem Fed.after (hfed : limiter.Fed seen) (arithmetic : Arithmetic) {checks : List Check}
    (horders : ∀ check ∈ checks, IterationOrder check.order) :
    (limiter.after arithmetic checks).Fed (seen ++ checks.map Check.key) := by
  induction checks generalizing limiter seen with
  | nil => rwa [List.map_nil, List.append_nil]
  | cons check checks ih =>
      rw [List.forall_mem_cons] at horders
      rw [List.map_cons, List.append_cons]
      exact ih (hfed.serve arithmetic horders.1) horders.2

end SlidingWindowLimiter

/-- However many keys a rule set has seen, each of its rules tracks all of them, or as many as
it may. -/
theorem RuleSet.tracks_up_to_cap (arithmetic : Arithmetic) {set : RuleSet}
    (hnew : ∀ rule ∈ set.rules, rule.limiter.counters = ∅) {hits : List Hit}
    (horders : ∀ hit ∈ hits, ∀ index, IterationOrder (hit.orders index)) :
    ∀ rule ∈ (set.after arithmetic hits).rules,
      rule.limiter.trackedKeys = min (hits.map Hit.key).dedup.length rule.limiter.maxKeys := by
  intro last hlast
  rw [after_rules] at hlast
  obtain ⟨index, hindex, rfl⟩ := List.mem_mapIdx.mp hlast
  have hempty : (set.rules[index]).limiter.Fed [] := by
    rw [SlidingWindowLimiter.Fed, hnew _ (List.getElem_mem hindex)]
    exact fed_empty _
  have hchecks : ∀ check ∈ hits.map fun hit => hit.check index, IterationOrder check.order := by
    intro check hcheck
    obtain ⟨hit, hhit, rfl⟩ := List.mem_map.mp hcheck
    exact horders hit hhit index
  have hfed := hempty.after arithmetic hchecks
  rw [List.nil_append, List.map_map] at hfed
  exact hfed.size

/-- A rule that tracks one key. -/
def narrow : RuleSet :=
  ⟨[⟨"narrow", .withCapacity 1000 1 1 id RuleSet.second_ne_zero Nat.one_pos, .block⟩]⟩

def rotating : List Hit := [⟨"a", 0, fun _ => id⟩, ⟨"b", 0, fun _ => id⟩]

theorem RuleSet.tracks_up_to_cap_rotating :
    narrow.rules.map (fun rule => rule.limiter.maxKeys) = [1] ∧
      ∀ rule ∈ (narrow.after .float rotating).rules,
        rule.limiter.trackedKeys =
          min (rotating.map Hit.key).dedup.length rule.limiter.maxKeys := by
  refine ⟨rfl, RuleSet.tracks_up_to_cap .float ?_ ?_⟩
  · intro rule hrule
    rw [List.mem_singleton.mp hrule]
    rfl
  · intro hit hhit index keys
    simp only [rotating, List.mem_cons, List.not_mem_nil, or_false] at hhit
    rcases hhit with rfl | rfl <;> exact List.Perm.refl keys

end Abuse

/-! ## Distinct targets -/

namespace Velocity

namespace DistinctVelocityLimiter

def trackedActors (limiter : DistinctVelocityLimiter) : Nat := limiter.actors.size

/-- The map of the limiter has been fed with these actors. -/
def Fed (seen : List String) (limiter : DistinctVelocityLimiter) : Prop :=
  CappedMap.Fed limiter.maxActors seen limiter.actors

theorem evict_eq_makeRoom (limiter : DistinctVelocityLimiter) (touch : Touch) :
    limiter.evict touch = makeRoom limiter.maxActors touch.order touch.actor limiter.actors := by
  unfold evict makeRoom
  cases (touch.order limiter.actors.keys).head? with
  | none => rfl
  | some victim => rfl

section Runs

variable {K : Type} [OfScientific K] [Add K] [Mul K] [Div K] [LE K] [DecidableLE K] [LT K]
  [DecidableLT K] (numbers : Numbers K) (hasher : String → UInt64)

theorem Fed.step {limiter : DistinctVelocityLimiter} {seen : List String}
    (hfed : limiter.Fed seen) {touch : Touch} (horder : IterationOrder touch.order) :
    ∃ verdict next, limiter.step numbers hasher touch = .ok (verdict, next) ∧
      next.maxActors = limiter.maxActors ∧ next.Fed (seen ++ [touch.actor]) := by
  have hnext := fun window : ActorWindow => CappedMap.Fed.insert hfed limiter.maxActors_pos
    (horder limiter.actors.keys) touch.actor window
  simp only [DistinctVelocityLimiter.step, check, HyperLogLog.add_eq, evict_eq_makeRoom]
  exact ⟨_, _, rfl, rfl, hnext _⟩

/-- No flood makes a check fail, and however many actors a limiter has seen, it tracks all of
them, or as many as it may. -/
theorem tracks_actors_up_to_cap {limiter : DistinctVelocityLimiter} (hnew : limiter.actors = ∅)
    {touches : List Touch} (horders : ∀ touch ∈ touches, IterationOrder touch.order) :
    ∃ verdicts last, runSteps (DistinctVelocityLimiter.step numbers hasher) limiter touches =
        .ok (verdicts, last) ∧
      last.trackedActors = min (touches.map Touch.actor).dedup.length limiter.maxActors := by
  have hrun : ∀ (seen : List String) (current : DistinctVelocityLimiter), current.Fed seen →
      current.maxActors = limiter.maxActors →
      ∃ verdicts last, runSteps (DistinctVelocityLimiter.step numbers hasher) current touches =
          .ok (verdicts, last) ∧ last.maxActors = limiter.maxActors ∧
        last.Fed (seen ++ touches.map Touch.actor) := by
    induction touches with
    | nil =>
        intro seen current hfed hmax
        refine ⟨[], current, rfl, hmax, ?_⟩
        rwa [List.map_nil, List.append_nil]
    | cons touch touches ih =>
        intro seen current hfed hmax
        rw [List.forall_mem_cons] at horders
        obtain ⟨verdict, next, hstep, hnext, hfedNext⟩ := hfed.step numbers hasher horders.1
        obtain ⟨verdicts, last, hlater, hlast⟩ := ih horders.2 _ next hfedNext (hnext.trans hmax)
        refine ⟨verdict :: verdicts, last, ?_, ?_⟩
        · rw [runSteps_cons_ok hstep, hlater]
          rfl
        · rwa [List.map_cons, List.append_cons]
  have hempty : limiter.Fed [] := by
    rw [Fed, hnew]
    exact fed_empty _
  obtain ⟨verdicts, last, hok, hmax, hfed⟩ := hrun [] limiter hempty rfl
  refine ⟨verdicts, last, hok, ?_⟩
  rw [← hmax]
  exact hfed.size

end Runs

theorem tracks_actors_up_to_cap_returning :
    ∃ verdicts last, runSteps (DistinctVelocityLimiter.step Numbers.float multiplicative) three
        returning = .ok (verdicts, last) ∧
      last.trackedActors = min (returning.map Touch.actor).dedup.length three.maxActors := by
  refine tracks_actors_up_to_cap Numbers.float multiplicative rfl ?_
  intro touch htouch keys
  simp only [returning, List.mem_cons, List.not_mem_nil, or_false] at htouch
  rcases htouch with rfl | rfl | rfl | rfl <;> exact List.Perm.refl keys

end DistinctVelocityLimiter

end Velocity

end Onced
