import Onced.Core.Abuse
import Onced.Core.HyperLogLog
import Onced.Foundation.Trace

/-! # Distinct-target velocity

A limiter that denies an actor who touches too many distinct targets in a fixed window
of time. Each actor has a sketch of its own, which starts afresh with each window. While
there is room for every actor, the sketch of an actor is a function of the set of targets
it touched in its last window.
-/

namespace Onced.Velocity

open Std Foundation Abuse

def defaultMaxActors : Nat := 100000

def precision : UInt8 := 10

/-- A counter that has seen nothing. -/
def fresh : HyperLogLog := .new precision (by decide)

/-- The targets of one actor in one window. -/
structure ActorWindow where
  windowIndex : UInt64
  seen : HyperLogLog

/-- Up to `maxDistinct` distinct targets per window, for at most `maxActors` actors. -/
structure DistinctVelocityLimiter where
  windowMs : UInt64
  maxDistinct : UInt64
  maxActors : Nat
  actors : ExtTreeMap String ActorWindow
  windowMs_ne_zero : windowMs ≠ 0
  maxActors_pos : 0 < maxActors

/-- One call of `check`, with the order in which the map happens to be iterated. -/
structure Touch where
  actor : String
  target : String
  nowMs : UInt64
  order : List String → List String

/-- The entry of an actor, made or reset for the window. -/
def ActorWindow.enter (entry : Option ActorWindow) (windowIndex : UInt64) : ActorWindow :=
  let entry := entry.getD ⟨windowIndex, fresh⟩
  if entry.windowIndex ≠ windowIndex then ⟨windowIndex, fresh⟩ else entry

section Limiter

variable {K : Type} [OfScientific K] [Add K] [Mul K] [Div K] [LE K] [DecidableLE K] [LT K]
  [DecidableLT K] (numbers : Numbers K)

/-- Whether the counter exceeds the budget. -/
def decision (maxDistinct : UInt64) (seen : HyperLogLog) : Decision :=
  if seen.estimate numbers > numbers.ofNat maxDistinct.toNat then .deny else .allow

namespace DistinctVelocityLimiter

def withCapacity (windowMs maxDistinct : UInt64) (maxActors : Nat) (hwindow : windowMs ≠ 0)
    (hactors : 0 < maxActors) : DistinctVelocityLimiter :=
  ⟨windowMs, maxDistinct, maxActors, ∅, hwindow, hactors⟩

def new (windowMs maxDistinct : UInt64) (hwindow : windowMs ≠ 0) : DistinctVelocityLimiter :=
  withCapacity windowMs maxDistinct defaultMaxActors hwindow (by decide)

/-- A new actor at capacity takes the place of one that is tracked. -/
def evict (limiter : DistinctVelocityLimiter) (touch : Touch) : ExtTreeMap String ActorWindow :=
  if limiter.actors.size ≥ limiter.maxActors ∧ ¬ limiter.actors.contains touch.actor then
    match (touch.order limiter.actors.keys).head? with
    | some victim => limiter.actors.erase victim
    | none => limiter.actors
  else limiter.actors

/-- Record that an actor touched a target, and return whether it is over its budget. -/
def check (hasher : String → UInt64) (limiter : DistinctVelocityLimiter) (touch : Touch) :
    Except Panic (Decision × DistinctVelocityLimiter) := do
  let windowIndex := touch.nowMs / limiter.windowMs
  let actors := limiter.evict touch
  let entry := ActorWindow.enter actors[touch.actor]? windowIndex
  let seen ← entry.seen.add hasher touch.target
  return (decision numbers limiter.maxDistinct seen,
    { limiter with actors := actors.insert touch.actor { entry with seen } })

/-- A check as a step that answers with its decision. -/
def step (hasher : String → UInt64) (limiter : DistinctVelocityLimiter) (touch : Touch) :
    Except Panic ((Touch × Decision) × DistinctVelocityLimiter) := do
  let (decision, next) ← limiter.check numbers hasher touch
  return ((touch, decision), next)

end DistinctVelocityLimiter

end Limiter

/-! ## Histories -/

/-- The clock does not go back, and there is room for one more actor. -/
structure Orderly (maxActors : Nat) (history : List Touch) : Prop where
  sorted : history.Pairwise fun earlier later => earlier.nowMs ≤ later.nowMs
  roomy : (history.map Touch.actor).dedup.length < maxActors

/-- The targets an actor touched in a window. -/
def targetsIn (windowMs : UInt64) (actor : String) (window : UInt64) (history : List Touch) :
    List String :=
  (history.filter fun touch =>
    touch.actor = actor ∧ touch.nowMs / windowMs = window).map Touch.target

/-- The window in which an actor last touched a target. -/
def lastWindow (windowMs : UInt64) (actor : String) (history : List Touch) : Option UInt64 :=
  (history.filter fun touch => touch.actor = actor).getLast?.map fun touch => touch.nowMs / windowMs

/-- The last decision about an actor. -/
def lastDecision (actor : String) (verdicts : List (Touch × Decision)) : Option Decision :=
  (verdicts.filter fun verdict => verdict.1.actor = actor).getLast?.map Prod.snd

/-- The entry of an actor as a function of the history. -/
def expected (hasher : String → UInt64) (windowMs : UInt64) (history : List Touch)
    (actor : String) :
    Option ActorWindow :=
  (lastWindow windowMs actor history).map fun window =>
    ⟨window, fresh.observe hasher (targetsIn windowMs actor window history)⟩

section Histories

variable {windowMs : UInt64} {actor : String} {history : List Touch} {touch : Touch}

theorem Orderly.left {maxActors : Nat} {first second : List Touch}
    (horderly : Orderly maxActors (first ++ second)) : Orderly maxActors first := by
  refine ⟨(List.pairwise_append.mp horderly.sorted).1, Nat.lt_of_le_of_lt ?_ horderly.roomy⟩
  rw [List.map_append]
  exact length_dedup_le_append _ _

theorem targetsIn_append (windowMs : UInt64) (actor : String) (window : UInt64)
    (history more : List Touch) : targetsIn windowMs actor window (history ++ more) =
      targetsIn windowMs actor window history ++ targetsIn windowMs actor window more := by
  rw [targetsIn, List.filter_append, List.map_append]
  rfl

theorem lastWindow_self (windowMs : UInt64) (history : List Touch) (touch : Touch) :
    lastWindow windowMs touch.actor (history ++ [touch]) = some (touch.nowMs / windowMs) := by
  simp [lastWindow, List.filter_append]

theorem expected_self (hasher : String → UInt64) (windowMs : UInt64) (history : List Touch)
    (touch : Touch) : expected hasher windowMs (history ++ [touch]) touch.actor =
      some ⟨touch.nowMs / windowMs, (fresh.observe hasher
        (targetsIn windowMs touch.actor (touch.nowMs / windowMs) history)).observe hasher
          [touch.target]⟩ := by
  have htarget : targetsIn windowMs touch.actor (touch.nowMs / windowMs) [touch] =
      [touch.target] := by
    simp [targetsIn]
  rw [expected, lastWindow_self, HyperLogLog.observe_append, Option.map_some, targetsIn_append,
    htarget]

theorem expected_other (hasher : String → UInt64) (windowMs : UInt64) (history : List Touch)
    (hother : touch.actor ≠ actor) :
    expected hasher windowMs (history ++ [touch]) actor =
      expected hasher windowMs history actor := by
  simp [expected, lastWindow, targetsIn, List.filter_append, hother]

theorem window_mono {one other : UInt64} (hle : one ≤ other) :
    one / windowMs ≤ other / windowMs := by
  rw [UInt64.le_iff_toNat_le, UInt64.toNat_div, UInt64.toNat_div]
  exact Nat.div_le_div_right (UInt64.le_iff_toNat_le.mp hle)

/-- In an orderly history the last window of an actor is its latest. -/
theorem Orderly.le_lastWindow {maxActors : Nat} (horderly : Orderly maxActors history)
    (windowMs : UInt64) (hmem : touch ∈ history) :
    ∃ window, lastWindow windowMs touch.actor history = some window ∧
      touch.nowMs / windowMs ≤ window ∧ ∃ last ∈ history, last.nowMs / windowMs = window := by
  have hown : touch ∈ history.filter fun other => other.actor = touch.actor :=
    List.mem_filter.mpr ⟨hmem, by simp⟩
  have hsorted := horderly.sorted.filter fun other => decide (other.actor = touch.actor)
  obtain ⟨earlier, last, hsplit⟩ :=
    (List.eq_nil_or_concat' _).resolve_left (List.ne_nil_of_mem hown)
  rw [hsplit] at hown hsorted
  refine ⟨last.nowMs / windowMs, ?_, ?_, last, ?_, rfl⟩
  · rw [lastWindow, hsplit, List.getLast?_concat]
    rfl
  · rcases List.mem_append.mp hown with hearlier | hlast
    · exact window_mono ((List.pairwise_append.mp hsorted).2.2 touch hearlier last
        (List.mem_singleton_self last))
    · rw [List.mem_singleton.mp hlast]
      exact UInt64.le_refl _
  · have hlast : last ∈ history.filter fun other => other.actor = touch.actor := by
      rw [hsplit]
      exact List.mem_append_right _ (List.mem_singleton_self last)
    exact (List.mem_filter.mp hlast).1

/-- An actor that touched a target in the current window did so last. -/
theorem Orderly.lastWindow_eq {maxActors : Nat} (horderly : Orderly maxActors history)
    {window : UInt64} (hcurrent : ∀ touch ∈ history, touch.nowMs / windowMs ≤ window)
    (htouched : targetsIn windowMs actor window history ≠ []) :
    lastWindow windowMs actor history = some window := by
  obtain ⟨_, hmem⟩ := List.exists_mem_of_ne_nil _ htouched
  obtain ⟨touch, htouch, _⟩ := List.mem_map.mp hmem
  obtain ⟨hhistory, hkept⟩ := List.mem_filter.mp htouch
  obtain ⟨rfl, rfl⟩ := of_decide_eq_true hkept
  obtain ⟨latest, hlatest, hge, last, hlast, rfl⟩ := horderly.le_lastWindow windowMs hhistory
  rw [hlatest, UInt64.le_antisymm (hcurrent last hlast) hge]

/-- The entry of an actor that enters a window has the targets of that window. -/
theorem enter_expected {maxActors : Nat} (horderly : Orderly maxActors (history ++ [touch]))
    (hasher : String → UInt64) :
    ActorWindow.enter (expected hasher windowMs history touch.actor) (touch.nowMs / windowMs) =
      ⟨touch.nowMs / windowMs, fresh.observe hasher
        (targetsIn windowMs touch.actor (touch.nowMs / windowMs) history)⟩ := by
  have hcurrent : ∀ earlier ∈ history, earlier.nowMs / windowMs ≤ touch.nowMs / windowMs := by
    intro earlier hearlier
    exact window_mono ((List.pairwise_append.mp horderly.sorted).2.2 earlier hearlier touch
      (List.mem_singleton_self touch))
  by_cases hlast : lastWindow windowMs touch.actor history = some (touch.nowMs / windowMs)
  · rw [expected, hlast]
    exact if_neg (not_not_intro rfl)
  · -- whatever entry there is belongs to an earlier window
    have hnone : targetsIn windowMs touch.actor (touch.nowMs / windowMs) history = [] := by
      by_contra htouched
      exact hlast (horderly.left.lastWindow_eq hcurrent htouched)
    rw [hnone]
    unfold expected
    cases hwindow : lastWindow windowMs touch.actor history with
    | none => exact if_neg (not_not_intro rfl)
    | some window => exact if_pos fun heq => hlast (hwindow.trans (congrArg some heq))

end Histories

/-! ## Runs -/

section Runs

variable {K : Type} [OfScientific K] [Add K] [Mul K] [Div K] [LE K] [DecidableLE K] [LT K]
  [DecidableLT K] {numbers : Numbers K} {hasher : String → UInt64}
  {start limiter : DistinctVelocityLimiter} {history : List Touch}
  {verdicts : List (Touch × Decision)}

/-- The entries of a limiter and its last decisions are those the history gives. -/
structure Follows (numbers : Numbers K) (hasher : String → UInt64) (start : DistinctVelocityLimiter)
    (history : List Touch) (verdicts : List (Touch × Decision))
    (limiter : DistinctVelocityLimiter) : Prop where
  settings : limiter.windowMs = start.windowMs ∧ limiter.maxDistinct = start.maxDistinct ∧
    limiter.maxActors = start.maxActors
  entry : ∀ actor, limiter.actors[actor]? = expected hasher start.windowMs history actor
  decided : ∀ actor, lastDecision actor verdicts =
    (expected hasher start.windowMs history actor).map fun window =>
      decision numbers start.maxDistinct window.seen

/-- With room for every actor, none loses its place. -/
theorem Follows.evict_eq (hfollows : Follows numbers hasher start history verdicts limiter)
    {touch : Touch} (horderly : Orderly start.maxActors history) :
    limiter.evict touch = limiter.actors := by
  have hsize : limiter.actors.size ≤ (history.map Touch.actor).dedup.length := by
    apply size_le_of_tracked
    intro actor hactor
    have hnone : history.filter (fun touch => touch.actor = actor) = [] := by
      rw [List.filter_eq_nil_iff]
      intro touch htouch hsame
      exact hactor (of_decide_eq_true hsame ▸ List.mem_map_of_mem htouch)
    rw [hfollows.entry, expected, lastWindow, hnone]
    rfl
  have hroomy := horderly.roomy
  rw [← hfollows.settings.2.2] at hroomy
  exact if_neg fun hfull => by omega

/-- What a check decides and keeps. -/
theorem Follows.step_eq (hfollows : Follows numbers hasher start history verdicts limiter)
    {touch : Touch} (horderly : Orderly start.maxActors (history ++ [touch])) :
    ∃ window, expected hasher start.windowMs (history ++ [touch]) touch.actor = some window ∧
      limiter.step numbers hasher touch = .ok
        ((touch, decision numbers start.maxDistinct window.seen),
          { limiter with actors := limiter.actors.insert touch.actor window }) := by
  refine ⟨_, expected_self hasher start.windowMs history touch, ?_⟩
  have hentry : ActorWindow.enter (limiter.evict touch)[touch.actor]?
      (touch.nowMs / limiter.windowMs) = ⟨touch.nowMs / start.windowMs, fresh.observe hasher
        (targetsIn start.windowMs touch.actor (touch.nowMs / start.windowMs) history)⟩ := by
    rw [hfollows.evict_eq horderly.left, hfollows.entry, hfollows.settings.1]
    exact enter_expected horderly hasher
  rw [DistinctVelocityLimiter.step, DistinctVelocityLimiter.check, hentry, HyperLogLog.add_eq,
    hfollows.evict_eq horderly.left, ← hfollows.settings.2.1]
  rfl

theorem lastDecision_append (actor : String) (verdicts : List (Touch × Decision)) (touch : Touch)
    (decided : Decision) : lastDecision actor (verdicts ++ [(touch, decided)]) =
      if touch.actor = actor then some decided else lastDecision actor verdicts := by
  by_cases hactor : touch.actor = actor
  · simp [lastDecision, List.filter_append, hactor]
  · simp [lastDecision, List.filter_append, hactor]

theorem Follows.next (hfollows : Follows numbers hasher start history verdicts limiter)
    {touch : Touch} (horderly : Orderly start.maxActors (history ++ [touch])) :
    ∃ verdict next, limiter.step numbers hasher touch = .ok (verdict, next) ∧
      Follows numbers hasher start (history ++ [touch]) (verdicts ++ [verdict]) next := by
  obtain ⟨window, hwindow, hstep⟩ := hfollows.step_eq horderly
  refine ⟨_, _, hstep, hfollows.settings, ?_, ?_⟩
  · intro actor
    rw [ExtTreeMap.getElem?_insert]
    by_cases hactor : touch.actor = actor
    · subst hactor
      rw [if_pos (Std.compare_eq_iff_eq.mpr rfl), hwindow]
    · rw [if_neg (fun hsame => hactor (Std.compare_eq_iff_eq.mp hsame)), hfollows.entry,
        expected_other hasher start.windowMs history hactor]
  · intro actor
    rw [lastDecision_append]
    by_cases hactor : touch.actor = actor
    · subst hactor
      rw [if_pos rfl, hwindow]
      rfl
    · rw [if_neg hactor, hfollows.decided, expected_other hasher start.windowMs history hactor]

/-- No check of an orderly history panics, and the limiter goes on to follow it. -/
theorem Follows.run (hfollows : Follows numbers hasher start history verdicts limiter)
    {more : List Touch} (horderly : Orderly start.maxActors (history ++ more)) :
    ∃ moreVerdicts last, runSteps (DistinctVelocityLimiter.step numbers hasher) limiter more =
        .ok (moreVerdicts, last) ∧
      Follows numbers hasher start (history ++ more) (verdicts ++ moreVerdicts) last := by
  induction more generalizing history verdicts limiter with
  | nil =>
      refine ⟨[], limiter, rfl, ?_⟩
      rwa [List.append_nil, List.append_nil]
  | cons touch more ih =>
      rw [List.append_cons] at horderly ⊢
      obtain ⟨verdict, next, hstep, hnext⟩ := hfollows.next horderly.left
      obtain ⟨moreVerdicts, last, hrun, hlast⟩ := ih hnext horderly
      refine ⟨verdict :: moreVerdicts, last, ?_, ?_⟩
      · rw [runSteps_cons_ok hstep, hrun]
        rfl
      · rwa [List.append_cons verdicts]

theorem follows_start (numbers : Numbers K) (hasher : String → UInt64) (hstart : start.actors = ∅) :
    Follows numbers hasher start [] [] start := by
  refine ⟨⟨rfl, rfl, rfl⟩, ?_, fun actor => rfl⟩
  intro actor
  rw [hstart]
  exact ExtTreeMap.getElem?_empty

/-- The entry of an actor in the current window. -/
theorem expected_current {windowMs window : UInt64} {maxActors : Nat} {actor : String}
    (horderly : Orderly maxActors history)
    (hcurrent : ∀ touch ∈ history, touch.nowMs / windowMs ≤ window)
    (htouched : targetsIn windowMs actor window history ≠ []) (hasher : String → UInt64) :
    expected hasher windowMs history actor =
      some ⟨window, fresh.observe hasher (targetsIn windowMs actor window history)⟩ := by
  rw [expected, horderly.lastWindow_eq hcurrent htouched]
  rfl

/-- The registers of a tracked actor stay within the longest run of zeros. -/
theorem expected_registers_le {windowMs : UInt64} {actor : String} {entry : ActorWindow}
    (hentry : expected hasher windowMs history actor = some entry) {register : UInt8}
    (hregister : register ∈ entry.seen.registers) :
    register.toNat ≤ 65 - entry.seen.precision := by
  obtain ⟨window, _, rfl⟩ := Option.map_eq_some_iff.mp hentry
  obtain ⟨position, hposition, rfl⟩ := Vector.getElem_of_mem hregister
  have hfresh : ∀ register, fresh.levels register ≤ 65 - fresh.precision := by
    intro register
    change ((Vector.replicate _ (0 : UInt8)).get register).toNat ≤ _
    rw [Vector.get_eq_getElem, Vector.getElem_replicate]
    exact Nat.zero_le _
  exact fresh.levels_observe_le hasher hfresh _ ⟨position, hposition⟩

end Runs

/-- Actors that touched the same set of targets in their current windows have the same
registers and are decided the same; no check panics, and registers stay within the longest
run of zeros that a hash can have. -/
theorem velocity_by_targets (hasher : String → UInt64) {start : DistinctVelocityLimiter}
    (hstart : start.actors = ∅) {history other : List Touch}
    (hhistory : Orderly start.maxActors history) (hother : Orderly start.maxActors other)
    {actor : String} {window otherWindow : UInt64}
    (hcurrent : ∀ touch ∈ history, touch.nowMs / start.windowMs ≤ window)
    (hotherCurrent : ∀ touch ∈ other, touch.nowMs / start.windowMs ≤ otherWindow)
    (htouched : targetsIn start.windowMs actor window history ≠ [])
    (hsame : ∀ target, target ∈ targetsIn start.windowMs actor window history ↔
      target ∈ targetsIn start.windowMs actor otherWindow other) :
    ∃ verdicts limiter otherVerdicts otherLimiter,
      runSteps (DistinctVelocityLimiter.step .float hasher) start history =
        .ok (verdicts, limiter) ∧
      runSteps (DistinctVelocityLimiter.step .float hasher) start other =
        .ok (otherVerdicts, otherLimiter) ∧
      (∃ seen decided, limiter.actors[actor]? = some ⟨window, seen⟩ ∧
        otherLimiter.actors[actor]? = some ⟨otherWindow, seen⟩ ∧
        lastDecision actor verdicts = some decided ∧
        lastDecision actor otherVerdicts = some decided) ∧
      ∀ (tracked : String) (entry : ActorWindow), limiter.actors[tracked]? = some entry →
        ∀ register ∈ entry.seen.registers, register.toNat ≤ 65 - entry.seen.precision := by
  have hbegins := follows_start .float hasher hstart
  obtain ⟨verdicts, limiter, hrun, hfollows⟩ := hbegins.run hhistory
  obtain ⟨otherVerdicts, otherLimiter, hotherRun, hotherFollows⟩ := hbegins.run hother
  rw [List.nil_append, List.nil_append] at hfollows hotherFollows
  have hotherTouched : targetsIn start.windowMs actor otherWindow other ≠ [] := by
    obtain ⟨target, htarget⟩ := List.exists_mem_of_ne_nil _ htouched
    exact List.ne_nil_of_mem ((hsame target).mp htarget)
  have hentry := expected_current hhistory hcurrent htouched hasher
  have hotherEntry := expected_current hother hotherCurrent hotherTouched hasher
  rw [← fresh.observe_congr hasher hsame] at hotherEntry
  let seen := fresh.observe hasher (targetsIn start.windowMs actor window history)
  refine ⟨verdicts, limiter, otherVerdicts, otherLimiter, hrun, hotherRun,
    ⟨seen, decision .float start.maxDistinct seen, ?_, ?_, ?_, ?_⟩, ?_⟩
  · rw [hfollows.entry, hentry]
  · rw [hotherFollows.entry, hotherEntry]
  · rw [hfollows.decided, hentry]
    rfl
  · rw [hotherFollows.decided, hotherEntry]
    rfl
  · intro tracked entry htracked register hregister
    rw [hfollows.entry] at htracked
    exact expected_registers_le htracked hregister

/-- A limiter of three actors. -/
def three : DistinctVelocityLimiter :=
  .withCapacity 1000 20 3 Abuse.RuleSet.second_ne_zero (by decide)

/-- An actor that comes from an earlier window, and repeats a target. -/
def returning : List Touch :=
  [⟨"ip-1", "card-9", 10, id⟩, ⟨"ip-1", "card-1", 1010, id⟩, ⟨"ip-1", "card-2", 1020, id⟩,
    ⟨"ip-1", "card-1", 1030, id⟩]

/-- The same targets in another order, in another window, among the traffic of another actor. -/
def swapped : List Touch :=
  [⟨"ip-1", "card-2", 2010, id⟩, ⟨"ip-2", "card-9", 2020, id⟩, ⟨"ip-1", "card-1", 2030, id⟩,
    ⟨"ip-2", "card-1", 2040, id⟩]

/-- A hash of the kind that hash maps use. -/
def multiplicative (key : String) : UInt64 :=
  key.toList.foldl (fun hash char => hash * 31 + UInt64.ofNat char.toNat) 7

theorem velocity_by_targets_swapped :
    ∃ verdicts limiter otherVerdicts otherLimiter,
      runSteps (DistinctVelocityLimiter.step .float multiplicative) three returning =
        .ok (verdicts, limiter) ∧
      runSteps (DistinctVelocityLimiter.step .float multiplicative) three swapped =
        .ok (otherVerdicts, otherLimiter) ∧
      lastDecision "ip-1" verdicts = lastDecision "ip-1" otherVerdicts := by
  have hreturning : Orderly 3 returning := ⟨by decide, by decide⟩
  have hswapped : Orderly 3 swapped := ⟨by decide, by decide⟩
  have hstart : three.actors = ∅ := rfl
  obtain ⟨verdicts, limiter, otherVerdicts, otherLimiter, hrun, hother,
      ⟨_, _, _, _, hone, htwo⟩, _⟩ :=
    velocity_by_targets multiplicative hstart hreturning hswapped
      (show ∀ touch ∈ returning, touch.nowMs / 1000 ≤ 1 by decide)
      (show ∀ touch ∈ swapped, touch.nowMs / 1000 ≤ 2 by decide)
      (show targetsIn 1000 "ip-1" 1 returning ≠ [] by decide)
      (show ∀ target, target ∈ targetsIn 1000 "ip-1" 1 returning ↔
        target ∈ targetsIn 1000 "ip-1" 2 swapped by
          simp [targetsIn, returning, swapped, or_comm])
  exact ⟨verdicts, limiter, otherVerdicts, otherLimiter, hrun, hother, hone.trans htwo.symm⟩

end Onced.Velocity
