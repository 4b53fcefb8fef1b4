import Onced.Core.State

/-! # Abuse rules

A sliding-window limiter keeps two counters for each key it tracks and weighs the
previous window by how much of it still overlaps the trailing one. As long as
the cap on tracked keys is not reached, keys do not interact: what a rule set
says about a key depends on the counters of that key alone.
-/

namespace Onced.Abuse

open Std

inductive Decision where
  | allow
  | deny
  deriving DecidableEq

/-- The two fixed-window counters tracked per key. -/
structure WindowCounter where
  windowIndex : UInt64
  current : UInt64
  previous : UInt64
  deriving DecidableEq

def defaultMaxKeys : Nat := 1000000

/-- Up to `limit` hits per trailing `windowMs`, for at most `maxKeys` keys. -/
structure SlidingWindowLimiter where
  windowMs : UInt64
  limit : UInt64
  maxKeys : Nat
  counters : ExtTreeMap String WindowCounter
  /-- The order in which the map of counters is iterated, given its keys. -/
  order : List String → List String
  windowMs_ne_zero : windowMs ≠ 0
  maxKeys_pos : 0 < maxKeys

namespace WindowCounter

/-- Roll the windows forward to `windowIndex`. -/
def roll (counter : WindowCounter) (windowIndex : UInt64) : WindowCounter :=
  if windowIndex = counter.windowIndex + 1 then ⟨windowIndex, 0, counter.current⟩
  -- windows were skipped, and nothing recent survives
  else if windowIndex > counter.windowIndex + 1 then ⟨windowIndex, 0, 0⟩
  else counter

/-- Record a hit on the counters of one key, and decide it. -/
def hit (windowMs limit : UInt64) (counter : Option WindowCounter) (nowMs : UInt64) :
    Decision × WindowCounter :=
  let windowIndex := nowMs / windowMs
  let rolled := (counter.getD ⟨windowIndex, 0, 0⟩).roll windowIndex
  let counted := { rolled with current := rolled.current + 1 }
  let elapsed := nowMs % windowMs
  let prevWeight := (windowMs - elapsed).toFloat / windowMs.toFloat
  let estimate := counted.current.toFloat + counted.previous.toFloat * prevWeight
  (if estimate ≤ limit.toFloat then .allow else .deny, counted)

end WindowCounter

namespace SlidingWindowLimiter

def withCapacity (windowMs limit : UInt64) (maxKeys : Nat) (order : List String → List String)
    (hwindow : windowMs ≠ 0) (hkeys : 0 < maxKeys) : SlidingWindowLimiter :=
  ⟨windowMs, limit, maxKeys, ∅, order, hwindow, hkeys⟩

def new (windowMs limit : UInt64) (order : List String → List String) (hwindow : windowMs ≠ 0) :
    SlidingWindowLimiter :=
  withCapacity windowMs limit defaultMaxKeys order hwindow (by decide)

/-- A new key at capacity takes the place of one that is tracked. -/
def evict (limiter : SlidingWindowLimiter) (key : String) : ExtTreeMap String WindowCounter :=
  if limiter.counters.size ≥ limiter.maxKeys ∧ ¬ limiter.counters.contains key then
    match (limiter.order limiter.counters.keys).head? with
    | some victim => limiter.counters.erase victim
    | none => limiter.counters
  else limiter.counters

/-- Record a hit for `key` and return whether it is within budget. -/
def check (limiter : SlidingWindowLimiter) (key : String) (nowMs : UInt64) :
    Decision × SlidingWindowLimiter :=
  let counters := limiter.evict key
  let (decision, counted) := WindowCounter.hit limiter.windowMs limiter.limit counters[key]? nowMs
  (decision, { limiter with counters := counters.insert key counted })

end SlidingWindowLimiter

/-- What to do when the budget of a rule is exceeded. -/
inductive Action where
  | challenge
  | throttle
  | block
  deriving DecidableEq

inductive Verdict where
  | allow
  | deny (rule : String) (action : Action)
  deriving DecidableEq

/-- One named limit and the action to take when it is exceeded. -/
structure Rule where
  name : String
  limiter : SlidingWindowLimiter
  action : Action

/-- Rules evaluated together over the same key, in order. -/
structure RuleSet where
  rules : List Rule

namespace RuleSet

/-- An empty rule set allows everything. -/
def new : RuleSet := ⟨[]⟩

theorem second_ne_zero : (1000 : UInt64) ≠ 0 := by decide

def rule (set : RuleSet) (name : String) (windowMs limit : UInt64) (action : Action)
    (order : List String → List String) (hwindow : windowMs ≠ 0) : RuleSet :=
  ⟨set.rules ++ [⟨name, .new windowMs limit order hwindow, action⟩]⟩

/-- The loop over the rules: every rule is recorded, the first to trip decides. -/
def evaluateFrom (key : String) (nowMs : UInt64) (verdict : Verdict) :
    List Rule → Verdict × List Rule
  | [] => (verdict, [])
  | rule :: rules =>
      let (decision, limiter) := rule.limiter.check key nowMs
      let verdict := if decision = .deny ∧ verdict = .allow then .deny rule.name rule.action
        else verdict
      let (last, checked) := evaluateFrom key nowMs verdict rules
      (last, { rule with limiter := limiter } :: checked)

/-- Record this request against every rule and return the verdict. -/
def evaluate (set : RuleSet) (key : String) (nowMs : UInt64) : Verdict × RuleSet :=
  let (verdict, rules) := evaluateFrom key nowMs .allow set.rules
  (verdict, ⟨rules⟩)

end RuleSet

/-! ## Keys do not interact -/

/-- What one rule knows about one key, apart from the keys it shares its map with. -/
structure Tally where
  name : String
  windowMs : UInt64
  limit : UInt64
  maxKeys : Nat
  action : Action
  counter : Option WindowCounter

def Rule.tally (rule : Rule) (key : String) : Tally :=
  ⟨rule.name, rule.limiter.windowMs, rule.limiter.limit, rule.limiter.maxKeys, rule.action,
    rule.limiter.counters[key]?⟩

/-- What the rules know about one key. -/
def RuleSet.tallies (set : RuleSet) (key : String) : List Tally :=
  set.rules.map fun rule => rule.tally key

/-- The tally after a hit. -/
def Tally.hit (tally : Tally) (nowMs : UInt64) : Decision × Tally :=
  let (decision, counted) := WindowCounter.hit tally.windowMs tally.limit tally.counter nowMs
  (decision, { tally with counter := some counted })

/-- The verdict on a key, from what the rules know about it. -/
def judge (nowMs : UInt64) (verdict : Verdict) : List Tally → Verdict
  | [] => verdict
  | tally :: tallies =>
      judge nowMs (if (tally.hit nowMs).1 = .deny ∧ verdict = .allow then
        .deny tally.name tally.action else verdict) tallies

/-- There is room for the key in every map. -/
def RuleSet.Roomy (set : RuleSet) (key : String) : Prop :=
  ∀ rule ∈ set.rules, rule.limiter.counters.size < rule.limiter.maxKeys ∨
    rule.limiter.counters.contains key

theorem SlidingWindowLimiter.evict_eq {limiter : SlidingWindowLimiter} {key : String}
    (hroomy : limiter.counters.size < limiter.maxKeys ∨ limiter.counters.contains key) :
    limiter.evict key = limiter.counters := by
  apply if_neg
  rintro ⟨hfull, hnew⟩
  rcases hroomy with hroom | htracked
  · omega
  · exact hnew htracked

/-- With room for the key, a check is a hit on its tally and leaves the others alone. -/
theorem Rule.check_tally {rule : Rule} {key : String}
    (hroomy : rule.limiter.counters.size < rule.limiter.maxKeys ∨
      rule.limiter.counters.contains key) (nowMs : UInt64) (other : String) :
    (rule.limiter.check key nowMs).1 = ((rule.tally key).hit nowMs).1 ∧
      ({ rule with limiter := (rule.limiter.check key nowMs).2 } : Rule).tally other =
        if key = other then ((rule.tally key).hit nowMs).2 else rule.tally other := by
  have hevict := SlidingWindowLimiter.evict_eq hroomy
  refine ⟨by simp only [SlidingWindowLimiter.check, hevict, Tally.hit, tally], ?_⟩
  simp only [SlidingWindowLimiter.check, hevict, tally, Tally.hit, ExtTreeMap.getElem?_insert,
    Std.compare_eq_iff_eq]
  by_cases hkey : key = other
  · simp only [if_pos hkey]
  · simp only [if_neg hkey]

theorem RuleSet.evaluateFrom_tallies {key : String} (nowMs : UInt64) {rules : List Rule}
    (hroomy : ∀ rule ∈ rules, rule.limiter.counters.size < rule.limiter.maxKeys ∨
      rule.limiter.counters.contains key) (verdict : Verdict) (other : String) :
    (evaluateFrom key nowMs verdict rules).1 =
        judge nowMs verdict (rules.map fun rule => rule.tally key) ∧
      (evaluateFrom key nowMs verdict rules).2.map (fun rule => rule.tally other) =
        if key = other then rules.map fun rule => ((rule.tally key).hit nowMs).2
        else rules.map fun rule => rule.tally other := by
  induction rules generalizing verdict with
  | nil => exact ⟨rfl, by split <;> rfl⟩
  | cons rule rules ih =>
      obtain ⟨hdecision, htally⟩ :=
        Rule.check_tally (hroomy rule List.mem_cons_self) nowMs other
      obtain ⟨hverdict, htallies⟩ :=
        ih (fun other hother => hroomy other (List.mem_cons_of_mem _ hother))
          (if (rule.limiter.check key nowMs).1 = .deny ∧ verdict = .allow then
            .deny rule.name rule.action else verdict)
      constructor
      · simp only [evaluateFrom, List.map_cons, judge]
        rw [hverdict, hdecision]
        rfl
      · simp only [evaluateFrom, List.map_cons]
        rw [htally, htallies]
        split <;> rfl

/-- With room for the key, the verdict is that on its tallies, which record the hit;
what is known about other keys stays. -/
theorem RuleSet.evaluate_tallies {set : RuleSet} {key : String} (hroomy : set.Roomy key)
    (nowMs : UInt64) (other : String) :
    (set.evaluate key nowMs).1 = judge nowMs .allow (set.tallies key) ∧
      (set.evaluate key nowMs).2.tallies other =
        if key = other then (set.tallies key).map fun tally => (tally.hit nowMs).2
        else set.tallies other := by
  have hloop := evaluateFrom_tallies nowMs hroomy .allow other
  refine ⟨hloop.1, ?_⟩
  simp only [tallies, List.map_map]
  exact hloop.2

/-! ## Room for every key -/

/-- Only these keys are tracked, and they fit under the cap of every rule. -/
structure RuleSet.Tracks (set : RuleSet) (keys : List String) : Prop where
  tracked : ∀ key, key ∉ keys → ∀ tally ∈ set.tallies key, tally.counter = none
  fits : ∀ rule ∈ set.rules, keys.dedup.length < rule.limiter.maxKeys

/-- More hits concern no fewer keys. -/
theorem length_dedup_le_append (first second : List String) :
    first.dedup.length ≤ (first ++ second).dedup.length := by
  apply List.Subperm.length_le
  apply (List.nodup_dedup first).subperm
  intro key hkey
  exact List.mem_dedup.mpr (List.mem_append_left _ (List.mem_dedup.mp hkey))

theorem size_le_of_tracked {α : Type} {counters : ExtTreeMap String α} {keys : List String}
    (htracked : ∀ key, key ∉ keys → counters[key]? = none) :
    counters.size ≤ keys.dedup.length := by
  have hnodup : counters.keys.Nodup := by
    refine ExtTreeMap.distinct_keys.imp ?_
    rintro one _ hdistinct rfl
    exact hdistinct (Std.compare_eq_iff_eq.mpr rfl)
  have hsubset : counters.keys ⊆ keys.dedup := by
    intro key hkey
    by_contra hnew
    have hnone := htracked key fun hmem => hnew (List.mem_dedup.mpr hmem)
    have hsome := ExtTreeMap.mem_keys.mp hkey
    rw [ExtTreeMap.mem_iff_isSome_getElem?, hnone] at hsome
    exact Bool.false_ne_true hsome
  have hlength := (hnodup.subperm hsubset).length_le
  rwa [ExtTreeMap.length_keys] at hlength

theorem RuleSet.Tracks.roomy {set : RuleSet} {keys : List String} (htracks : set.Tracks keys)
    (key : String) : set.Roomy key := by
  intro rule hrule
  refine Or.inl (Nat.lt_of_le_of_lt (size_le_of_tracked fun other hother => ?_)
    (htracks.fits rule hrule))
  exact htracks.tracked other hother (rule.tally other) (List.mem_map_of_mem hrule)

/-- The caps of the rules, which no hit changes. -/
def RuleSet.caps (set : RuleSet) : List Nat := set.rules.map fun rule => rule.limiter.maxKeys

theorem RuleSet.caps_eq (set : RuleSet) (key : String) :
    set.caps = (set.tallies key).map Tally.maxKeys := by
  simp [caps, tallies, Rule.tally]

theorem RuleSet.Tracks.evaluate {set : RuleSet} {keys : List String} (htracks : set.Tracks keys)
    {key : String} (hkey : key ∈ keys) (nowMs : UInt64) :
    (set.evaluate key nowMs).2.Tracks keys := by
  have htallies := fun other => (evaluate_tallies (htracks.roomy key) nowMs other).2
  constructor
  · intro other hother tally htally
    have hne : key ≠ other := by
      rintro rfl
      exact hother hkey
    rw [htallies, if_neg hne] at htally
    exact htracks.tracked other hother tally htally
  · intro rule hrule
    have hcaps : (set.evaluate key nowMs).2.caps = set.caps := by
      rw [caps_eq _ key, caps_eq _ key, htallies, if_pos rfl, List.map_map]
      rfl
    have hmem : rule.limiter.maxKeys ∈ (set.evaluate key nowMs).2.caps :=
      List.mem_map_of_mem hrule
    rw [hcaps] at hmem
    obtain ⟨before, hbefore, hcap⟩ := List.mem_map.mp hmem
    rw [← hcap]
    exact htracks.fits before hbefore

end Onced.Abuse
