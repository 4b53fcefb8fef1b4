import Onced.Core.Session

/-! # Pruning does not show

A record that pruning drops has expired, and an expired record counts for nothing: a
begin starts its key as if it were new, and a completion is refused with or without
it. Two engines whose stores differ in such records only, for however long, make the
same plans, so nobody who asks at or after the instant of pruning can tell them apart.
-/

namespace Onced

open Foundation

/-- The call is made at or after the instant. -/
def EngineCall.Since (instant : UInt64) : EngineCall → Prop
  | .begin _ _ nowMs => instant ≤ nowMs
  | .complete _ _ nowMs => instant ≤ nowMs
  | .flush => True
  | .pruneExpired _ nowMs => instant ≤ nowMs

instance (instant : UInt64) (call : EngineCall) : Decidable (call.Since instant) :=
  match call with
  | .begin _ _ nowMs => inferInstanceAs (Decidable (instant ≤ nowMs))
  | .complete _ _ nowMs => inferInstanceAs (Decidable (instant ≤ nowMs))
  | .flush => inferInstanceAs (Decidable True)
  | .pruneExpired _ nowMs => inferInstanceAs (Decidable (instant ≤ nowMs))

def Event.Since (instant : UInt64) : Event → Prop
  | .call _ engineCall => engineCall.Since instant
  | .crash => True

instance (instant : UInt64) (event : Event) : Decidable (event.Since instant) :=
  match event with
  | .call _ engineCall => inferInstanceAs (Decidable (engineCall.Since instant))
  | .crash => inferInstanceAs (Decidable True)

/-- The same decision on a request, and a completion accepted on both sides or on none. -/
def Answer.Agree : Answer → Answer → Prop
  | .begun one, .begun other => one = other
  | .completed one, .completed other => one.isOk = other.isOk
  | .done, .done => True
  | _, _ => False

theorem Answer.Agree.refl (answer : Answer) : answer.Agree answer := by
  cases answer with
  | begun decision => exact rfl
  | completed result => exact rfl
  | done => trivial

/-- The second state is the first, or the first has expired at the instant and is gone. -/
inductive Pruned (ttlMs instant : UInt64) : Option KeyState → Option KeyState → Prop where
  | same (state : Option KeyState) : Pruned ttlMs instant state state
  | gone {fingerprint : RequestFingerprint} {outcome : CachedOutcome} {completedAtMs : UInt64}
      (hexpired : saturatingAdd completedAtMs ttlMs ≤ instant) :
      Pruned ttlMs instant (some (.completed fingerprint outcome completedAtMs)) none

namespace Pruned

variable {ttlMs instant : UInt64} {state pruned : Option KeyState}

/-- Whatever predicate drops a record from both sides, they stay related. -/
theorem filter (hpruned : Pruned ttlMs instant state pruned) (keep : KeyState → Bool) :
    Pruned ttlMs instant (state.filter keep) (pruned.filter keep) := by
  cases hpruned with
  | same => exact .same _
  | @gone fingerprint outcome completedAtMs hexpired =>
      cases hkeep : keep (.completed fingerprint outcome completedAtMs) with
      | true =>
          rw [Option.filter_some_pos hkeep]
          exact .gone hexpired
      | false =>
          rw [Option.filter_some_neg (by simp [hkeep])]
          exact .same none

theorem effect (hpruned : Pruned ttlMs instant state pruned) (storeCall : StoreCall)
    (key : IdempotencyKey) :
    Pruned ttlMs instant (storeCall.effect key state) (storeCall.effect key pruned) := by
  cases storeCall with
  | put written fresh =>
      simp only [StoreCall.effect]
      split
      next => exact .same _
      next => exact hpruned
  | flush => exact hpruned
  | compact iteration keep => exact hpruned.filter (keep key)

/-- An expired record is started anew, as an absent one is. -/
theorem action_eq (hpruned : Pruned ttlMs instant state pruned) {nowMs : UInt64}
    (hsince : instant ≤ nowMs) (fingerprint : RequestFingerprint) :
    Engine.action ttlMs fingerprint nowMs state = Engine.action ttlMs fingerprint nowMs pruned := by
  cases hpruned with
  | same => rfl
  | gone hexpired =>
      simp only [Engine.action]
      exact if_pos (UInt64.le_trans hexpired hsince)

/-- What pruning does to a record. -/
theorem of_keeps (ttlMs instant : UInt64) (key : IdempotencyKey) (state : Option KeyState) :
    Pruned ttlMs instant state (state.filter (Engine.keeps ttlMs instant key)) := by
  match state with
  | none => exact .same none
  | some (.inProgress ..) => exact .same _
  | some (.completed fingerprint outcome completedAtMs) =>
      by_cases hlive : instant < saturatingAdd completedAtMs ttlMs
      · rw [Option.filter_some_pos (by simpa [Engine.keeps] using hlive)]
        exact .same _
      · rw [Option.filter_some_neg (by simpa [Engine.keeps] using hlive)]
        exact .gone (UInt64.not_lt.mp hlive)

end Pruned

/-- On states that differ in expired records only, a call made later makes the same
store call, leaves the same counter and answers alike. -/
theorem EngineCall.plan_pruned {leaseMs ttlMs nextFence instant : UInt64}
    {states pruned : IdempotencyKey → Option KeyState}
    (hpruned : ∀ key, Pruned ttlMs instant (states key) (pruned key)) {call : EngineCall}
    (hsince : call.Since instant) :
    (call.plan leaseMs ttlMs nextFence states).storeCall =
        (call.plan leaseMs ttlMs nextFence pruned).storeCall ∧
      (call.plan leaseMs ttlMs nextFence states).nextFence =
        (call.plan leaseMs ttlMs nextFence pruned).nextFence ∧
      (call.plan leaseMs ttlMs nextFence states).answer.Agree
        (call.plan leaseMs ttlMs nextFence pruned).answer := by
  cases call with
  | begin key fingerprint nowMs =>
      have haction := (hpruned key).action_eq hsince fingerprint
      simp only [plan, haction]
      exact ⟨trivial, trivial, .refl _⟩
  | complete token outcome nowMs =>
      have hkey := hpruned token.key
      simp only [plan]
      generalize states token.key = state, pruned token.key = kept at hkey ⊢
      cases hkey with
      | same => exact ⟨rfl, rfl, .refl _⟩
      -- a completed key refuses, and so does a key without a record
      | gone hexpired => exact ⟨rfl, rfl, rfl⟩
  | flush => exact ⟨rfl, rfl, trivial⟩
  | pruneExpired iteration nowMs => exact ⟨rfl, rfl, trivial⟩

/-- What a carried out plan leaves differs in expired records only. -/
theorem EngineCall.effect_pruned {leaseMs ttlMs nextFence instant : UInt64}
    {states pruned : IdempotencyKey → Option KeyState}
    (hpruned : ∀ key, Pruned ttlMs instant (states key) (pruned key)) {call : EngineCall}
    (hsince : call.Since instant) (key : IdempotencyKey) :
    Pruned ttlMs instant ((call.plan leaseMs ttlMs nextFence states).effect key (states key))
      ((call.plan leaseMs ttlMs nextFence pruned).effect key (pruned key)) := by
  unfold Plan.effect
  rw [(@plan_pruned leaseMs ttlMs nextFence instant states pruned hpruned call hsince).1]
  split
  next => exact hpruned key
  next storeCall _ => exact (hpruned key).effect storeCall key

/-- Pruned first or not, the machine answers the events alike. -/
def PruneUnobservable {σ ι : Type} (step : σ → Event → Except ι (Option Answer × σ)) (engine : σ)
    (iteration : Iteration) (instant : UInt64) (events : List Event) : Prop :=
  ∃ pruned answers prunedAnswers last prunedLast,
    step engine (.call .done (.pruneExpired iteration instant)) = .ok (some .done, pruned) ∧
    runSteps step engine events = .ok (answers, last) ∧
    runSteps step pruned events = .ok (prunedAnswers, prunedLast) ∧
    List.Forall₂ (Option.Rel Answer.Agree) answers prunedAnswers

/-! ## Engines in memory -/

namespace Memory

/-- Two engines that differ in expired records only. -/
structure Twins (instant : UInt64) (engine pruned : Engine MemoryStore) : Prop where
  leaseMs : pruned.leaseMs = engine.leaseMs
  ttlMs : pruned.ttlMs = engine.ttlMs
  nextFence : pruned.nextFence = engine.nextFence
  states : ∀ key, Pruned engine.ttlMs instant (Store.get engine.store key)
    (Store.get pruned.store key)

theorem lockstep_twins (instant : UInt64) :
    Lockstep serve serve (Twins instant) (Option.Rel Answer.Agree)
      fun _ event => event.Since instant := by
  intro engine pruned event htwins hsince
  cases event with
  | crash => exact ⟨none, engine, none, pruned, rfl, rfl, .none, htwins⟩
  | call io call =>
      obtain ⟨next, hserve, hlease, httl, hfence, hstates⟩ := serve_call engine io call
      obtain ⟨prunedNext, hprunedServe, hprunedLease, hprunedTtl, hprunedFence, hprunedStates⟩ :=
        serve_call pruned io call
      have hplan : pruned.plan call = call.plan engine.leaseMs engine.ttlMs engine.nextFence
          (Store.get pruned.store) := by
        rw [Engine.plan, htwins.leaseMs, htwins.ttlMs, htwins.nextFence]
      obtain ⟨-, hcounter, hanswer⟩ := @EngineCall.plan_pruned engine.leaseMs engine.ttlMs
        engine.nextFence instant _ _ htwins.states call hsince
      rw [← hplan] at hcounter hanswer
      refine ⟨_, next, _, prunedNext, hserve, hprunedServe, .some hanswer, ?_, ?_, ?_, ?_⟩
      · rw [hprunedLease, hlease, htwins.leaseMs]
      · rw [hprunedTtl, httl, htwins.ttlMs]
      · rw [hprunedFence, hfence, ← hcounter]
        rfl
      · intro key
        rw [hstates, hprunedStates, httl, hplan]
        exact EngineCall.effect_pruned htwins.states hsince key

/-- An engine and the same engine after it was pruned. -/
theorem twins_pruned (engine : Engine MemoryStore) (iteration : Iteration) (instant : UInt64) :
    ∃ pruned, serve engine (.call .done (.pruneExpired iteration instant)) =
        .ok (some .done, pruned) ∧ Twins instant engine pruned := by
  obtain ⟨pruned, hserve, hlease, httl, hfence, hstates⟩ :=
    serve_call engine .done (.pruneExpired iteration instant)
  refine ⟨pruned, hserve, hlease, httl, hfence, ?_⟩
  intro key
  rw [hstates]
  exact .of_keeps engine.ttlMs instant key _

theorem pruneUnobservable (engine : Engine MemoryStore) (iteration : Iteration) {instant : UInt64}
    {events : List Event} (hsince : ∀ event ∈ events, event.Since instant) :
    PruneUnobservable serve engine iteration instant events := by
  obtain ⟨pruned, hprune, htwins⟩ := twins_pruned engine iteration instant
  obtain ⟨answers, last, prunedAnswers, prunedLast, hrun, hprunedRun, hagree, -⟩ :=
    (lockstep_twins instant).run htwins
      (along_of_forall (fun event hevent _ => hsince event hevent) _)
  exact ⟨pruned, answers, prunedAnswers, last, prunedLast, hprune, hrun, hprunedRun, hagree⟩

end Memory

end Onced
