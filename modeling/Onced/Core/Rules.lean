import Onced.Core.Admission

/-! # Rule sets

A rule set records every request against every rule, also after one of them has denied
it. So each rule decides as a limiter of its own would that sees all the requests, and the
first rule that denies names the verdict. What passes a rule set has passed every one of
its rules, and keeps to the bounds of each.
-/

namespace Onced.Abuse

open Foundation Foundation.SlidingWindow

/-! ## Evaluating the rules -/

/-- A request as the rules see it, with the orders in which their maps happen to be iterated. -/
structure Hit where
  key : String
  nowMs : UInt64
  orders : Nat → List String → List String

/-- The check that a rule makes. -/
def Hit.check (hit : Hit) (index : Nat) : Check := ⟨hit.key, hit.nowMs, hit.orders index⟩

/-- What one rule says. -/
structure Ruling where
  name : String
  action : Action
  decision : Decision

/-- The first rule that denies decides. -/
def firstDenied : List Ruling → Verdict
  | [] => .allow
  | ruling :: rulings =>
      if ruling.decision = .deny then .deny ruling.name ruling.action else firstDenied rulings

theorem firstDenied_eq_allow {rulings : List Ruling} (hallow : firstDenied rulings = .allow)
    {ruling : Ruling} (hruling : ruling ∈ rulings) : ruling.decision = .allow := by
  induction rulings with
  | nil => exact absurd hruling List.not_mem_nil
  | cons first rulings ih =>
      unfold firstDenied at hallow
      split at hallow
      next => cases hallow
      next hfirst =>
        rcases List.mem_cons.mp hruling with rfl | hlater
        · cases hdecision : ruling.decision with
          | allow => rfl
          | deny => exact absurd hdecision hfirst
        · exact ih hallow hlater

theorem firstDenied_eq_deny {rulings : List Ruling} {name : String} {action : Action}
    (hdeny : firstDenied rulings = .deny name action) :
    ∃ ruling ∈ rulings, ruling.name = name := by
  induction rulings with
  | nil => cases hdeny
  | cons first rulings ih =>
      unfold firstDenied at hdeny
      split at hdeny
      next =>
        obtain ⟨rfl, -⟩ := Verdict.deny.inj hdeny
        exact ⟨first, List.mem_cons_self, rfl⟩
      next =>
        obtain ⟨ruling, hruling, hname⟩ := ih hdeny
        exact ⟨ruling, List.mem_cons_of_mem _ hruling, hname⟩

/-- A rule with the limiter of another time. -/
def Rule.with (rule : Rule) (limiter : SlidingWindowLimiter) : Rule := { rule with limiter }

namespace RuleSet

/-- The loop over the rules, with the estimates computed in any arithmetic. -/
def evaluateFromIn (arithmetic : Arithmetic) (key : String) (nowMs : UInt64) (verdict : Verdict) :
    List Rule → Verdict × List Rule
  | [] => (verdict, [])
  | rule :: rules =>
      let (decision, limiter) := rule.limiter.checkIn arithmetic key nowMs
      let verdict := if decision = .deny ∧ verdict = .allow then .deny rule.name rule.action
        else verdict
      let (last, checked) := evaluateFromIn arithmetic key nowMs verdict rules
      (last, { rule with limiter := limiter } :: checked)

def evaluateIn (arithmetic : Arithmetic) (set : RuleSet) (key : String) (nowMs : UInt64) :
    Verdict × RuleSet :=
  let (verdict, rules) := evaluateFromIn arithmetic key nowMs .allow set.rules
  (verdict, ⟨rules⟩)

/-- The loop of the source computes in `f64`. -/
theorem evaluateFrom_eq (key : String) (nowMs : UInt64) (verdict : Verdict) (rules : List Rule) :
    evaluateFrom key nowMs verdict rules = evaluateFromIn .float key nowMs verdict rules := by
  induction rules generalizing verdict with
  | nil => rfl
  | cons rule rules ih =>
      simp only [evaluateFrom, evaluateFromIn, ih, SlidingWindowLimiter.check_eq_checkIn]
      rfl

theorem evaluate_eq_evaluateIn (set : RuleSet) (key : String) (nowMs : UInt64) :
    set.evaluate key nowMs = set.evaluateIn .float key nowMs := by
  rw [evaluate, evaluateFrom_eq]
  rfl

/-- Every rule is checked, whatever the verdict is by then. -/
theorem evaluateFromIn_eq (arithmetic : Arithmetic) (key : String) (nowMs : UInt64)
    (verdict : Verdict) (rules : List Rule) :
    evaluateFromIn arithmetic key nowMs verdict rules =
      (if verdict = .allow then firstDenied (rules.map fun rule =>
          ⟨rule.name, rule.action, (rule.limiter.checkIn arithmetic key nowMs).1⟩) else verdict,
        rules.map fun rule => rule.with (rule.limiter.checkIn arithmetic key nowMs).2) := by
  induction rules generalizing verdict with
  | nil =>
      simp only [evaluateFromIn, List.map_nil, firstDenied]
      cases verdict with
      | allow => rfl
      | deny rule action => rfl
  | cons rule rules ih =>
      simp only [evaluateFromIn, ih, List.map_cons, firstDenied]
      cases verdict with
      | deny name action => simp [Rule.with]
      | allow =>
          by_cases hdenied : (rule.limiter.checkIn arithmetic key nowMs).1 = .deny
          · simp [hdenied, Rule.with]
          · simp [hdenied, Rule.with]

/-- The names of the rules. -/
def names (set : RuleSet) : List String := set.rules.map Rule.name

/-- A verdict that denies names one of the rules, and their names stay. -/
theorem evaluate_names (set : RuleSet) (key : String) (nowMs : UInt64) :
    (set.evaluate key nowMs).2.names = set.names ∧
      ∀ name action, (set.evaluate key nowMs).1 = .deny name action → name ∈ set.names := by
  rw [evaluate_eq_evaluateIn, evaluateIn, evaluateFromIn_eq, if_pos rfl]
  constructor
  · simp only [names, List.map_map]
    rfl
  · intro name action hdeny
    obtain ⟨ruling, hruling, rfl⟩ := firstDenied_eq_deny hdeny
    obtain ⟨rule, hrule, rfl⟩ := List.mem_map.mp hruling
    exact List.mem_map_of_mem hrule

/-! ## Runs -/

theorem map_mapIdx {α : Type u} {β : Type v} {γ : Type w} (f : β → γ) (g : Nat → α → β)
    (list : List α) : (list.mapIdx g).map f = list.mapIdx fun index one => f (g index one) := by
  apply List.ext_getElem?
  intro index
  rw [List.getElem?_map, List.getElem?_mapIdx, List.getElem?_mapIdx, Option.map_map]
  rfl

/-- Evaluate the rules, each map in its own order. -/
def serve (arithmetic : Arithmetic) (set : RuleSet) (hit : Hit) : Verdict × RuleSet :=
  evaluateIn arithmetic
    ⟨set.rules.mapIdx fun index rule => rule.with { rule.limiter with order := hit.orders index }⟩
    hit.key hit.nowMs

/-- The rules after a run. -/
def after (arithmetic : Arithmetic) (set : RuleSet) (hits : List Hit) : RuleSet :=
  hits.foldl (fun set hit => (set.serve arithmetic hit).2) set

/-- The requests of a run with the verdicts on them. -/
def run (arithmetic : Arithmetic) (set : RuleSet) : List Hit → List (Hit × Verdict)
  | [] => []
  | hit :: hits => (hit, (set.serve arithmetic hit).1) ::
      run arithmetic (set.serve arithmetic hit).2 hits

section Runs

variable (arithmetic : Arithmetic) (set : RuleSet)

/-- One request is one check for each of the limiters. -/
theorem serve_eq (hit : Hit) :
    set.serve arithmetic hit =
      (firstDenied (set.rules.mapIdx fun index rule =>
          ⟨rule.name, rule.action, (rule.limiter.serve arithmetic (hit.check index)).1⟩),
        ⟨set.rules.mapIdx fun index rule =>
          rule.with (rule.limiter.serve arithmetic (hit.check index)).2⟩) := by
  simp only [serve, evaluateIn, evaluateFromIn_eq, map_mapIdx]
  rfl

/-- Each limiter ends where it would have ended on its own. -/
theorem after_rules (hits : List Hit) :
    (set.after arithmetic hits).rules = set.rules.mapIdx fun index rule =>
      rule.with (rule.limiter.after arithmetic (hits.map fun hit => hit.check index)) := by
  induction hits generalizing set with
  | nil =>
      apply List.ext_getElem?
      intro index
      rw [List.getElem?_mapIdx]
      exact Option.map_id'.symm
  | cons hit hits ih =>
      rw [after, List.foldl_cons, ← after, ih, serve_eq]
      simp only [List.mapIdx_mapIdx]
      rfl

/-- In every run, whatever the rules said before, the verdict is that of the first rule in order
whose limiter, had it seen the same requests on its own, denies this one. -/
theorem decides_as_lone_limiters (earlier : List Hit) (hit : Hit) :
    ((set.after arithmetic earlier).serve arithmetic hit).1 =
      firstDenied (set.rules.mapIdx fun index rule => ⟨rule.name, rule.action,
        ((rule.limiter.after arithmetic (earlier.map fun hit => hit.check index)).serve arithmetic
          (hit.check index)).1⟩) := by
  rw [serve_eq, after_rules]
  simp only [List.mapIdx_mapIdx]
  rfl

end Runs

/-! ## How much passes -/

/-- The times at which requests of a key pass. -/
def passed (key : String) (verdicts : List (Hit × Verdict)) : List Nat :=
  (verdicts.filter fun verdict => verdict.1.key = key ∧ verdict.2 = .allow).map
    fun verdict => verdict.1.nowMs.toNat

variable {arithmetic : Arithmetic} {set : RuleSet}

/-- A request that passes is allowed by every rule. -/
theorem serve_allow {index : Nat} {rule : Rule} (hrule : set.rules[index]? = some rule) {hit : Hit}
    (hallow : (set.serve arithmetic hit).1 = .allow) :
    (rule.limiter.serve arithmetic (hit.check index)).1 = .allow := by
  rw [serve_eq] at hallow
  have hruling : (⟨rule.name, rule.action, (rule.limiter.serve arithmetic (hit.check index)).1⟩ :
      Ruling) ∈ set.rules.mapIdx fun index rule =>
        ⟨rule.name, rule.action, (rule.limiter.serve arithmetic (hit.check index)).1⟩ := by
    apply @List.mem_of_getElem? _ _ index
    rw [List.getElem?_mapIdx, hrule]
    rfl
  exact firstDenied_eq_allow hallow hruling

/-- What passes the rules is among what each of them allows. -/
theorem passed_sublist {index : Nat} {rule : Rule} (hrule : set.rules[index]? = some rule)
    (key : String) (hits : List Hit) :
    (passed key (set.run arithmetic hits)).Sublist
      (SlidingWindowLimiter.allowed key
        (rule.limiter.run arithmetic (hits.map fun hit => hit.check index))) := by
  induction hits generalizing set rule with
  | nil => exact List.Sublist.refl _
  | cons hit hits ih =>
      have hnext : (set.serve arithmetic hit).2.rules[index]? =
          some (rule.with (rule.limiter.serve arithmetic (hit.check index)).2) := by
        rw [serve_eq, List.getElem?_mapIdx, hrule]
        rfl
      have hlater := ih hnext
      simp only [run, List.map_cons, SlidingWindowLimiter.run, passed,
        SlidingWindowLimiter.allowed, List.filter_cons]
      by_cases hpassed : hit.key = key ∧ (set.serve arithmetic hit).1 = .allow
      · have hallowed : (hit.check index).key = key ∧
            (rule.limiter.serve arithmetic (hit.check index)).1 = .allow :=
          ⟨hpassed.1, serve_allow hrule hpassed.2⟩
        rw [if_pos (decide_eq_true hpassed), if_pos (decide_eq_true hallowed)]
        exact hlater.cons_cons _
      · simp only [hpassed, decide_false, Bool.false_eq_true, if_false]
        split
        next => exact hlater.cons _
        next => exact hlater

/-- Whatever other rules there are, an aligned window of a rule sees at most its limit of requests
of a key pass, and an interval as long as its window at most twice the limit less one. -/
theorem every_rule_bounds {index : Nat} {name : String} {action : Action} {windowMs limit : UInt64}
    {maxKeys : Nat} {order : List String → List String} (hwindow : windowMs ≠ 0)
    (hmax : 0 < maxKeys)
    (hrule : set.rules[index]? = some
      ⟨name, .withCapacity windowMs limit maxKeys order hwindow hmax, action⟩)
    (hlimit : 1 ≤ limit) (key : String) (hits : List Hit)
    (horderly : Orderly maxKeys (hits.map fun hit => hit.check index))
    (hrange : InRange windowMs key (hits.map fun hit => hit.check index)) :
    (∀ window, (passed key (set.run .exact hits)).countP
        (fun time => window * windowMs.toNat ≤ time ∧ time < (window + 1) * windowMs.toNat) ≤
          limit.toNat) ∧
      ∀ start, (passed key (set.run .exact hits)).countP
        (fun time => start ≤ time ∧ time < start + windowMs.toNat) ≤ 2 * limit.toNat - 1 := by
  have hwidth : 0 < windowMs.toNat := toNat_pos hwindow
  have hpos : 0 < limit.toNat := UInt64.le_iff_toNat_le.mp hlimit
  have hpassed := @passed_sublist .exact _ _ _ hrule key hits
  rw [SlidingWindowLimiter.allowed_run horderly hrange] at hpassed
  constructor
  · intro window
    refine hpassed.countP_le.trans ?_
    rw [← hits_eq_countP_interval hwidth]
    exact hits_admitted_le hwidth _ _ window
  · intro start
    refine hpassed.countP_le.trans (Nat.le_sub_one_of_lt ?_)
    exact countP_admitted_lt hwidth hpos (horderly.log_sorted key) start

theorem minute_ne_zero : (60000 : UInt64) ≠ 0 := by decide

/-- The rule of the gateway, and a second one that is stricter over a minute. -/
def perIp : RuleSet :=
  (RuleSet.new.rule "per-ip-per-second" 1000 50 .throttle id second_ne_zero).rule
    "per-ip-per-minute" 60000 2 .block id minute_ne_zero

def visits : List Hit :=
  [⟨"k", 999, fun _ => id⟩, ⟨"k", 1000, fun _ => id⟩, ⟨"k", 1000, fun _ => id⟩]

theorem visits_orderly :
    Orderly defaultMaxKeys (visits.map fun hit => hit.check 1) := ⟨by decide, by decide⟩

theorem visits_inRange : InRange 60000 "k" (visits.map fun hit => hit.check 1) := by
  refine ⟨by decide, fun index => Nat.lt_of_le_of_lt List.countP_le_length ?_⟩
  decide

/-- The second rule bounds what passes both. -/
theorem every_rule_bounds_perIp :
    Orderly defaultMaxKeys (visits.map fun hit => hit.check 1) ∧
      InRange 60000 "k" (visits.map fun hit => hit.check 1) ∧
      ∀ start, (passed "k" (perIp.run .exact visits)).countP
        (fun time => start ≤ time ∧ time < start + UInt64.toNat 60000) ≤
          2 * UInt64.toNat 2 - 1 := by
  have hkeys : 0 < defaultMaxKeys := by decide
  have hrule : perIp.rules[1]? = some ⟨"per-ip-per-minute",
      .withCapacity 60000 2 defaultMaxKeys id minute_ne_zero hkeys, .block⟩ := rfl
  exact ⟨visits_orderly, visits_inRange, (every_rule_bounds minute_ne_zero hkeys hrule (by decide)
    "k" visits visits_orderly visits_inRange).2⟩

end RuleSet

end Onced.Abuse
