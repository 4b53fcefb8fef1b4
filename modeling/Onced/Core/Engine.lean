import Onced.Core.Store

/-! # The idempotency engine

The engine owns one store and a fence counter. It decides what to do with a
request from the stored state of its key, locks a key under a fresh fence,
and lets only the holder of the current fence complete it. Every call comes to
a plan read off the stored states: at most one store call, and an answer.
-/

namespace Onced

structure Engine (σ : Type) where
  store : σ
  leaseMs : UInt64
  ttlMs : UInt64
  /-- Next fence to mint. -/
  nextFence : UInt64
  deriving DecidableEq

def defaultTtlMs : UInt64 := 24 * 60 * 60 * 1000

/-- Authority to complete a key under one fence. -/
@[ext]
structure RunToken where
  key : IdempotencyKey
  fence : Fence
  deriving DecidableEq

/-- The decision on an incoming request. -/
inductive Begin where
  | run (token : RunToken)
  | replay (outcome : CachedOutcome)
  | inProgress
  | mismatch
  deriving DecidableEq

/-- Why a completion was refused. -/
inductive CompleteError where
  | staleFence
  | alreadyCompleted
  | unknown
  deriving DecidableEq

namespace Engine

section Decisions

/-- The decision of `begin`, made while only reading the store. -/
inductive Action where
  | start
  | replay (outcome : CachedOutcome)
  | inProgress
  | mismatch
  deriving DecidableEq

def action (ttlMs : UInt64) (fingerprint : RequestFingerprint) (nowMs : UInt64) :
    Option KeyState → Action
  | none => .start
  | some (.completed stored outcome completedAtMs) =>
      if nowMs ≥ saturatingAdd completedAtMs ttlMs then .start
      else if stored = fingerprint then .replay outcome
      else .mismatch
  | some (.inProgress _ stored leaseExpiresAtMs) =>
      if stored ≠ fingerprint then .mismatch
      else if nowMs ≥ leaseExpiresAtMs then .start
      else .inProgress

theorem action_eq_replay {ttlMs nowMs : UInt64} {fingerprint : RequestFingerprint}
    {state : Option KeyState} {outcome : CachedOutcome}
    (haction : action ttlMs fingerprint nowMs state = .replay outcome) :
    ∃ completedAtMs, state = some (.completed fingerprint outcome completedAtMs) := by
  unfold action at haction
  split at haction
  next => cases haction
  next stored kept completedAtMs =>
    split at haction
    next => cases haction
    next =>
      split at haction
      next hstored =>
        cases haction
        exact ⟨completedAtMs, by rw [hstored]⟩
      next => cases haction
  next =>
    split at haction
    next => cases haction
    next => split at haction <;> cases haction

/-- A request takes over its own key once the lease has run out. -/
theorem action_takeover {nowMs leaseExpiresAtMs : UInt64} (hexpired : leaseExpiresAtMs ≤ nowMs)
    (ttlMs : UInt64) (fingerprint : RequestFingerprint) (fence : Fence) :
    action ttlMs fingerprint nowMs (some (.inProgress fence fingerprint leaseExpiresAtMs)) =
      .start := by
  simp [action, hexpired]

/-- A locked key is started anew only for the same request and after its lease. -/
theorem action_inProgress_eq_start {ttlMs nowMs leaseExpiresAtMs : UInt64}
    {stored fingerprint : RequestFingerprint} {fence : Fence}
    (haction : action ttlMs fingerprint nowMs
      (some (.inProgress fence stored leaseExpiresAtMs)) = .start) :
    stored = fingerprint ∧ leaseExpiresAtMs ≤ nowMs := by
  simp only [action] at haction
  split at haction
  next => cases haction
  next hsame =>
    split at haction
    next hexpired => exact ⟨not_not.mp hsame, hexpired⟩
    next => cases haction

/-- A completed key is started anew only when it has expired. -/
theorem action_completed_eq_start {ttlMs nowMs completedAtMs : UInt64}
    {stored fingerprint : RequestFingerprint} {outcome : CachedOutcome}
    (haction : action ttlMs fingerprint nowMs
      (some (.completed stored outcome completedAtMs)) = .start) :
    saturatingAdd completedAtMs ttlMs ≤ nowMs := by
  simp only [action] at haction
  split at haction
  next hexpired => exact hexpired
  next =>
    split at haction <;> cases haction

/-- Which records pruning keeps: live leases, and outcomes within their time to live. -/
def keeps (ttlMs nowMs : UInt64) (_key : IdempotencyKey) : KeyState → Bool
  | .completed _ _ completedAtMs => nowMs < saturatingAdd completedAtMs ttlMs
  | .inProgress .. => true

end Decisions

section Calls

variable {σ : Type} [Store σ]

/-- Seed the fence counter above every recovered in-progress fence. -/
def withTtl (store : σ) (leaseMs ttlMs : UInt64) : Engine σ :=
  ⟨store, leaseMs, ttlMs, Store.maxInProgressFence store + 1⟩

def new (store : σ) (leaseMs : UInt64) : Engine σ := withTtl store leaseMs defaultTtlMs

/-- Run a call of the store inside the engine. -/
def onStore {α : Type} (call : EStateM Panic σ α) : EStateM Panic (Engine σ) α := fun engine =>
  match call engine.store with
  | .ok value store => .ok value { engine with store := store }
  | .error panic store => .error panic { engine with store := store }

def flush (io : Io) : EStateM Panic (Engine σ) Unit := onStore (Store.flush io)

def pruneExpired (io : Io) (iteration : Iteration) (nowMs : UInt64) :
    EStateM Panic (Engine σ) Unit := do
  let engine ← get
  onStore (Store.compact io iteration (keeps engine.ttlMs nowMs))

def mintFence : EStateM Panic (Engine σ) Fence := do
  let engine ← get
  set { engine with nextFence := engine.nextFence + 1 }
  return ⟨engine.nextFence⟩

/-- Record a fresh in-progress attempt and hand back its run token. -/
def start (io : Io) (key : IdempotencyKey) (fingerprint : RequestFingerprint) (nowMs : UInt64) :
    EStateM Panic (Engine σ) Begin := do
  let fence ← mintFence
  let engine ← get
  onStore (Store.put io key (.inProgress fence fingerprint (saturatingAdd nowMs engine.leaseMs)))
  return .run ⟨key, fence⟩

/-- Decide what to do with an incoming request bearing `key`. -/
def begin (io : Io) (key : IdempotencyKey) (fingerprint : RequestFingerprint) (nowMs : UInt64) :
    EStateM Panic (Engine σ) Begin := do
  let engine ← get
  match action engine.ttlMs fingerprint nowMs (Store.get engine.store key) with
  | .start => start io key fingerprint nowMs
  | .replay outcome => return .replay outcome
  | .inProgress => return .inProgress
  | .mismatch => return .mismatch

/-- Commit an outcome; only the current fence holder may complete. -/
def complete (io : Io) (token : RunToken) (outcome : CachedOutcome) (nowMs : UInt64) :
    EStateM Panic (Engine σ) (Except CompleteError Unit) := do
  let engine ← get
  match Store.get engine.store token.key with
  | some (.inProgress fence fingerprint _) =>
      if fence ≠ token.fence then return .error .staleFence
      else
        onStore (Store.put io token.key (.completed fingerprint outcome nowMs))
        return .ok ()
  | some (.completed ..) => return .error .alreadyCompleted
  | none => return .error .unknown

end Calls

end Engine

/-! ## Calls and their plans -/

/-- One call on an engine. -/
inductive EngineCall where
  | begin (key : IdempotencyKey) (fingerprint : RequestFingerprint) (nowMs : UInt64)
  | complete (token : RunToken) (outcome : CachedOutcome) (nowMs : UInt64)
  | flush
  | pruneExpired (iteration : Iteration) (nowMs : UInt64)

inductive Answer where
  | begun (decision : Begin)
  | completed (result : Except CompleteError Unit)
  | done
  deriving DecidableEq

/-- A call, with what becomes of its I/O, or the process dying between calls. -/
inductive Event where
  | call (io : Io) (engineCall : EngineCall)
  | crash

/-- At most one store call, the counter it leaves, and the answer once it returns. -/
structure Plan where
  storeCall : Option StoreCall
  nextFence : UInt64
  answer : Answer

/-- What a plan that is carried out does to the state of one key. -/
def Plan.effect (plan : Plan) (key : IdempotencyKey) (current : Option KeyState) :
    Option KeyState :=
  match plan.storeCall with
  | none => current
  | some storeCall => storeCall.effect key current

@[simp] theorem Plan.effect_none (nextFence : UInt64) (answer : Answer) (key : IdempotencyKey)
    (current : Option KeyState) : (Plan.mk none nextFence answer).effect key current = current :=
      rfl

@[simp] theorem Plan.effect_some (storeCall : StoreCall) (nextFence : UInt64) (answer : Answer)
    (key : IdempotencyKey) (current : Option KeyState) :
    (Plan.mk (some storeCall) nextFence answer).effect key current =
      storeCall.effect key current := rfl

namespace EngineCall

def run {σ : Type} [Store σ] (io : Io) : EngineCall → EStateM Panic (Engine σ) Answer
  | .begin key fingerprint nowMs => .begun <$> Engine.begin io key fingerprint nowMs
  | .complete token outcome nowMs => .completed <$> Engine.complete io token outcome nowMs
  | .flush => (fun _ => .done) <$> Engine.flush io
  | .pruneExpired iteration nowMs =>
      (fun _ => .done) <$> Engine.pruneExpired io iteration nowMs

/-- What the call comes to when the stored states are `states`. -/
def plan (leaseMs ttlMs nextFence : UInt64) (states : IdempotencyKey → Option KeyState) :
    EngineCall → Plan
  | .begin key fingerprint nowMs =>
      match Engine.action ttlMs fingerprint nowMs (states key) with
      | .start => ⟨some (.put key
            (.inProgress ⟨nextFence⟩ fingerprint (saturatingAdd nowMs leaseMs))),
          nextFence + 1, .begun (.run ⟨key, ⟨nextFence⟩⟩)⟩
      | .replay outcome => ⟨none, nextFence, .begun (.replay outcome)⟩
      | .inProgress => ⟨none, nextFence, .begun .inProgress⟩
      | .mismatch => ⟨none, nextFence, .begun .mismatch⟩
  | .complete token outcome nowMs =>
      match states token.key with
      | some (.inProgress fence fingerprint _) =>
          if fence = token.fence then
            ⟨some (.put token.key (.completed fingerprint outcome nowMs)), nextFence,
              .completed (.ok ())⟩
          else ⟨none, nextFence, .completed (.error .staleFence)⟩
      | some (.completed ..) => ⟨none, nextFence, .completed (.error .alreadyCompleted)⟩
      | none => ⟨none, nextFence, .completed (.error .unknown)⟩
  | .flush => ⟨some .flush, nextFence, .done⟩
  | .pruneExpired iteration nowMs =>
      ⟨some (.compact iteration (Engine.keeps ttlMs nowMs)), nextFence, .done⟩

/-- When a call touches the store, and how. -/
inductive Makes (leaseMs ttlMs nextFence : UInt64) (states : IdempotencyKey → Option KeyState) :
    EngineCall → StoreCall → Prop where
  | starts {key : IdempotencyKey} {fingerprint : RequestFingerprint} {nowMs : UInt64}
      (haction : Engine.action ttlMs fingerprint nowMs (states key) = .start) :
      Makes leaseMs ttlMs nextFence states (.begin key fingerprint nowMs)
        (.put key (.inProgress ⟨nextFence⟩ fingerprint (saturatingAdd nowMs leaseMs)))
  | commits {token : RunToken} {fingerprint : RequestFingerprint} {leaseExpiresAtMs : UInt64}
      (hstate : states token.key = some (.inProgress token.fence fingerprint leaseExpiresAtMs))
      (outcome : CachedOutcome) (nowMs : UInt64) :
      Makes leaseMs ttlMs nextFence states (.complete token outcome nowMs)
        (.put token.key (.completed fingerprint outcome nowMs))
  | flushes : Makes leaseMs ttlMs nextFence states .flush .flush
  | prunes (iteration : Iteration) (nowMs : UInt64) :
      Makes leaseMs ttlMs nextFence states (.pruneExpired iteration nowMs)
        (.compact iteration (Engine.keeps ttlMs nowMs))

/-- What a call comes to, branch by branch. -/
inductive Planned (leaseMs ttlMs nextFence : UInt64) (states : IdempotencyKey → Option KeyState) :
    EngineCall → Plan → Prop where
  | starts {key : IdempotencyKey} {fingerprint : RequestFingerprint} {nowMs : UInt64}
      (haction : Engine.action ttlMs fingerprint nowMs (states key) = .start) :
      Planned leaseMs ttlMs nextFence states (.begin key fingerprint nowMs)
        ⟨some (.put key (.inProgress ⟨nextFence⟩ fingerprint (saturatingAdd nowMs leaseMs))),
          nextFence + 1, .begun (.run ⟨key, ⟨nextFence⟩⟩)⟩
  | replays {key : IdempotencyKey} {fingerprint : RequestFingerprint} {nowMs : UInt64}
      {outcome : CachedOutcome}
      (haction : Engine.action ttlMs fingerprint nowMs (states key) = .replay outcome) :
      Planned leaseMs ttlMs nextFence states (.begin key fingerprint nowMs)
        ⟨none, nextFence, .begun (.replay outcome)⟩
  | waits {key : IdempotencyKey} {fingerprint : RequestFingerprint} {nowMs : UInt64}
      (haction : Engine.action ttlMs fingerprint nowMs (states key) = .inProgress) :
      Planned leaseMs ttlMs nextFence states (.begin key fingerprint nowMs)
        ⟨none, nextFence, .begun .inProgress⟩
  | mismatches {key : IdempotencyKey} {fingerprint : RequestFingerprint} {nowMs : UInt64}
      (haction : Engine.action ttlMs fingerprint nowMs (states key) = .mismatch) :
      Planned leaseMs ttlMs nextFence states (.begin key fingerprint nowMs)
        ⟨none, nextFence, .begun .mismatch⟩
  | commits {token : RunToken} {fingerprint : RequestFingerprint} {leaseExpiresAtMs : UInt64}
      {outcome : CachedOutcome} {nowMs : UInt64}
      (hstate : states token.key = some (.inProgress token.fence fingerprint leaseExpiresAtMs)) :
      Planned leaseMs ttlMs nextFence states (.complete token outcome nowMs)
        ⟨some (.put token.key (.completed fingerprint outcome nowMs)), nextFence,
          .completed (.ok ())⟩
  | refuses {token : RunToken} {outcome : CachedOutcome} {nowMs : UInt64}
      (refusal : CompleteError) :
      Planned leaseMs ttlMs nextFence states (.complete token outcome nowMs)
        ⟨none, nextFence, .completed (.error refusal)⟩
  | flushes : Planned leaseMs ttlMs nextFence states .flush ⟨some .flush, nextFence, .done⟩
  | prunes {iteration : Iteration} {nowMs : UInt64} :
      Planned leaseMs ttlMs nextFence states (.pruneExpired iteration nowMs)
        ⟨some (.compact iteration (Engine.keeps ttlMs nowMs)), nextFence, .done⟩

theorem planned (leaseMs ttlMs nextFence : UInt64) (states : IdempotencyKey → Option KeyState)
    (call : EngineCall) :
    Planned leaseMs ttlMs nextFence states call (call.plan leaseMs ttlMs nextFence states) := by
  cases call with
  | begin key fingerprint nowMs =>
      simp only [plan]
      split
      next haction => exact .starts haction
      next haction => exact .replays haction
      next haction => exact .waits haction
      next haction => exact .mismatches haction
  | complete token outcome nowMs =>
      simp only [plan]
      split
      next fence fingerprint leaseExpiresAtMs hstate =>
        split
        next hfence =>
          subst hfence
          exact .commits hstate
        next => exact .refuses .staleFence
      next => exact .refuses .alreadyCompleted
      next => exact .refuses .unknown
  | flush => exact .flushes
  | pruneExpired iteration nowMs => exact .prunes

theorem makes_of_plan {leaseMs ttlMs nextFence : UInt64}
    {states : IdempotencyKey → Option KeyState} {call : EngineCall} {storeCall : StoreCall}
    (hplan : (call.plan leaseMs ttlMs nextFence states).storeCall = some storeCall) :
    Makes leaseMs ttlMs nextFence states call storeCall := by
  have hplanned := planned leaseMs ttlMs nextFence states call
  generalize call.plan leaseMs ttlMs nextFence states = plan at hplan hplanned
  cases hplanned with
  | starts haction =>
      cases hplan
      exact .starts haction
  | commits hstate =>
      cases hplan
      exact .commits hstate _ _
  | flushes =>
      cases hplan
      exact .flushes
  | prunes =>
      cases hplan
      exact .prunes _ _
  | replays => contradiction
  | waits => contradiction
  | mismatches => contradiction
  | refuses => contradiction

/-- What a key holds after a plan was put there by the call, or was there before. -/
theorem plan_effect_eq_some {leaseMs ttlMs nextFence : UInt64}
    {states : IdempotencyKey → Option KeyState} {call : EngineCall} {key : IdempotencyKey}
    {state : KeyState}
    (heffect : (call.plan leaseMs ttlMs nextFence states).effect key (states key) = some state) :
    Makes leaseMs ttlMs nextFence states call (.put key state) ∨ states key = some state := by
  unfold Plan.effect at heffect
  cases hplan : (call.plan leaseMs ttlMs nextFence states).storeCall with
  | none =>
      rw [hplan] at heffect
      exact Or.inr heffect
  | some storeCall =>
      rw [hplan] at heffect
      rcases StoreCall.effect_eq_some heffect with rfl | hkept
      · exact Or.inl (makes_of_plan hplan)
      · exact Or.inr hkept

/-- A call that touches no store mints no fence. -/
theorem plan_nextFence_of_reads {leaseMs ttlMs nextFence : UInt64}
    {states : IdempotencyKey → Option KeyState} {call : EngineCall}
    (hplan : (call.plan leaseMs ttlMs nextFence states).storeCall = none) :
    (call.plan leaseMs ttlMs nextFence states).nextFence = nextFence := by
  have hplanned := planned leaseMs ttlMs nextFence states call
  generalize call.plan leaseMs ttlMs nextFence states = plan at hplan hplanned ⊢
  cases hplanned with
  | starts => contradiction
  | commits => rfl
  | flushes => rfl
  | prunes => rfl
  | replays => rfl
  | waits => rfl
  | mismatches => rfl
  | refuses => rfl

/-- A begin of `key`, or a prune, at or after `deadline`. -/
def Expires (key : IdempotencyKey) (deadline : UInt64) : EngineCall → Prop
  | .begin begun _ nowMs => begun = key ∧ deadline ≤ nowMs
  | .pruneExpired _ nowMs => deadline ≤ nowMs
  | .complete .. => False
  | .flush => False

section Completed

variable {leaseMs ttlMs nextFence : UInt64} {states : IdempotencyKey → Option KeyState}
  {key : IdempotencyKey} {fingerprint : RequestFingerprint} {outcome : CachedOutcome}
  {completedAtMs : UInt64}

/-- Until it expires, a completed key answers with its outcome or a mismatch. -/
theorem plan_begin_completed
    (hstate : states key = some (.completed fingerprint outcome completedAtMs))
    (other : RequestFingerprint) {nowMs : UInt64}
    (hnow : nowMs < saturatingAdd completedAtMs ttlMs) :
    (EngineCall.begin key other nowMs).plan leaseMs ttlMs nextFence states =
      ⟨none, nextFence, .begun (if other = fingerprint then .replay outcome else .mismatch)⟩ := by
  have hexpired : ¬ nowMs ≥ saturatingAdd completedAtMs ttlMs := UInt64.not_le.mpr hnow
  simp only [plan, hstate, Engine.action, hexpired, if_false]
  by_cases hfingerprint : fingerprint = other
  · simp [hfingerprint]
  · simp [hfingerprint, Ne.symm hfingerprint]

theorem plan_complete_completed {token : RunToken}
    (hstate : states token.key = some (.completed fingerprint outcome completedAtMs))
    (other : CachedOutcome) (nowMs : UInt64) :
    (EngineCall.complete token other nowMs).plan leaseMs ttlMs nextFence states =
      ⟨none, nextFence, .completed (.error .alreadyCompleted)⟩ := by
  simp only [plan, hstate]

/-- A call that does not expire a completed key leaves its record alone. -/
theorem effect_completed
    (hstate : states key = some (.completed fingerprint outcome completedAtMs))
    {call : EngineCall} (hlive : ¬ call.Expires key (saturatingAdd completedAtMs ttlMs))
    {storeCall : StoreCall} (hmakes : Makes leaseMs ttlMs nextFence states call storeCall) :
    storeCall.effect key (some (.completed fingerprint outcome completedAtMs)) =
      some (.completed fingerprint outcome completedAtMs) := by
  cases hmakes with
  | @starts begun other nowMs haction =>
      apply if_neg
      rintro rfl
      have hexpired : ¬ nowMs ≥ saturatingAdd completedAtMs ttlMs := fun hle => hlive ⟨rfl, hle⟩
      simp only [hstate, Engine.action, hexpired, if_false] at haction
      split at haction <;> contradiction
  | @commits token other leaseExpiresAtMs hholder =>
      apply if_neg
      rintro rfl
      rw [hstate] at hholder
      cases hholder
  | flushes => rfl
  | prunes iteration nowMs =>
      have hnow : nowMs < saturatingAdd completedAtMs ttlMs := UInt64.not_le.mp hlive
      simp [StoreCall.effect, Engine.keeps, hnow]

theorem plan_effect_completed
    (hstate : states key = some (.completed fingerprint outcome completedAtMs))
    {call : EngineCall} (hlive : ¬ call.Expires key (saturatingAdd completedAtMs ttlMs)) :
    (call.plan leaseMs ttlMs nextFence states).effect key (states key) = states key := by
  unfold Plan.effect
  cases hplan : (call.plan leaseMs ttlMs nextFence states).storeCall with
  | none => rfl
  | some storeCall =>
      rw [hstate]
      exact effect_completed hstate hlive (makes_of_plan hplan)

end Completed

/-- Neither the request that holds the key, once the lease is over, nor a completion
with its fence. -/
def Spares (key : IdempotencyKey) (holder : RequestFingerprint) (fence : Fence)
    (leaseExpiresAtMs : UInt64) : EngineCall → Prop
  | .begin begun fingerprint nowMs => begun = key → fingerprint = holder → nowMs < leaseExpiresAtMs
  | .complete token _ _ => token ≠ ⟨key, fence⟩
  | .flush => True
  | .pruneExpired .. => True

section Locked

variable {leaseMs ttlMs nextFence : UInt64} {states : IdempotencyKey → Option KeyState}
  {key : IdempotencyKey} {holder : RequestFingerprint} {fence : Fence} {leaseExpiresAtMs : UInt64}

/-- What a request for a locked key is told: to wait if it holds the key, and that the
key is taken otherwise. -/
def refusal (holder fingerprint : RequestFingerprint) : Begin :=
  if fingerprint = holder then .inProgress else .mismatch

/-- A locked key is refused, to other requests at any time. -/
theorem plan_begin_locked (hlocked : states key = some (.inProgress fence holder leaseExpiresAtMs))
    {fingerprint : RequestFingerprint} {nowMs : UInt64}
    (hspares : (EngineCall.begin key fingerprint nowMs).Spares key holder fence leaseExpiresAtMs) :
    (EngineCall.begin key fingerprint nowMs).plan leaseMs ttlMs nextFence states =
      ⟨none, nextFence, .begun (refusal holder fingerprint)⟩ := by
  by_cases hholder : fingerprint = holder
  · have haction : Engine.action ttlMs fingerprint nowMs (states key) = .inProgress := by
      have hlease : ¬ leaseExpiresAtMs ≤ nowMs := UInt64.not_le.mpr (hspares rfl hholder)
      rw [hlocked, Engine.action, if_neg (not_not.mpr hholder.symm), if_neg hlease]
    simp only [plan, haction, refusal, if_pos hholder]
  · have haction : Engine.action ttlMs fingerprint nowMs (states key) = .mismatch := by
      rw [hlocked, Engine.action, if_pos (Ne.symm hholder)]
    simp only [plan, haction, refusal, if_neg hholder]

/-- Calls that spare a locked key leave its record as it is. -/
theorem effect_of_spares (hlocked : states key = some (.inProgress fence holder leaseExpiresAtMs))
    {call : EngineCall} (hspares : call.Spares key holder fence leaseExpiresAtMs)
    {storeCall : StoreCall}
    (hplan : (call.plan leaseMs ttlMs nextFence states).storeCall = some storeCall) :
    storeCall.effect key (states key) = states key := by
  cases makes_of_plan hplan with
  | @starts begun fingerprint nowMs haction =>
      have hne : begun ≠ key := by
        rintro rfl
        rw [plan_begin_locked hlocked hspares] at hplan
        cases hplan
      exact if_neg hne
  | @commits token fingerprint expires hstate outcome nowMs =>
      have hne : token.key ≠ key := by
        rintro rfl
        rw [hlocked] at hstate
        cases hstate
        exact hspares rfl
      exact if_neg hne
  | flushes => rfl
  | prunes iteration nowMs => simp [StoreCall.effect, hlocked, Engine.keeps]

theorem plan_effect_of_spares
    (hlocked : states key = some (.inProgress fence holder leaseExpiresAtMs)) {call : EngineCall}
    (hspares : call.Spares key holder fence leaseExpiresAtMs) :
    (call.plan leaseMs ttlMs nextFence states).effect key (states key) = states key := by
  unfold Plan.effect
  cases hplan : (call.plan leaseMs ttlMs nextFence states).storeCall with
  | none => rfl
  | some storeCall => exact effect_of_spares hlocked hspares hplan

end Locked

section Plans

variable {leaseMs ttlMs nextFence : UInt64} {states : IdempotencyKey → Option KeyState}
  {key : IdempotencyKey} {fingerprint : RequestFingerprint} {nowMs leaseExpiresAtMs : UInt64}
  {token : RunToken} {outcome : CachedOutcome}

theorem plan_begin_start (haction : Engine.action ttlMs fingerprint nowMs (states key) = .start) :
    (EngineCall.begin key fingerprint nowMs).plan leaseMs ttlMs nextFence states =
      ⟨some (.put key (.inProgress ⟨nextFence⟩ fingerprint (saturatingAdd nowMs leaseMs))),
        nextFence + 1, .begun (.run ⟨key, ⟨nextFence⟩⟩)⟩ := by
  simp only [plan, haction]

theorem plan_complete_holder
    (hstate : states token.key = some (.inProgress token.fence fingerprint leaseExpiresAtMs)) :
    (EngineCall.complete token outcome nowMs).plan leaseMs ttlMs nextFence states =
      ⟨some (.put token.key (.completed fingerprint outcome nowMs)), nextFence,
        .completed (.ok ())⟩ := by
  simp only [plan, hstate, if_true]

theorem plan_complete_other (hstate : ∀ fingerprint leaseExpiresAtMs,
      states token.key ≠ some (.inProgress token.fence fingerprint leaseExpiresAtMs)) :
    ∃ refusal, (EngineCall.complete token outcome nowMs).plan leaseMs ttlMs nextFence states =
      ⟨none, nextFence, .completed (.error refusal)⟩ := by
  have hplanned := planned leaseMs ttlMs nextFence states (.complete token outcome nowMs)
  generalize plan leaseMs ttlMs nextFence states (.complete token outcome nowMs) = plan
    at hplanned ⊢
  cases hplanned with
  | commits hholder => exact absurd hholder (hstate _ _)
  | refuses refusal => exact ⟨refusal, rfl⟩

/-- A run token carries the next fence, and only a start hands one out. -/
theorem plan_begin_run
    (hanswer : ((EngineCall.begin key fingerprint nowMs).plan leaseMs ttlMs nextFence
      states).answer = .begun (.run token)) :
    Engine.action ttlMs fingerprint nowMs (states key) = .start ∧ token = ⟨key, ⟨nextFence⟩⟩ := by
  have hplanned := planned leaseMs ttlMs nextFence states (.begin key fingerprint nowMs)
  generalize plan leaseMs ttlMs nextFence states (.begin key fingerprint nowMs) = plan
    at hanswer hplanned
  cases hplanned with
  | starts haction =>
      cases hanswer
      exact ⟨haction, rfl⟩
  | replays => cases hanswer
  | waits => cases hanswer
  | mismatches => cases hanswer

/-- Only a completed record of the same fingerprint is replayed. -/
theorem plan_begin_replay
    (hanswer : ((EngineCall.begin key fingerprint nowMs).plan leaseMs ttlMs nextFence
      states).answer = .begun (.replay outcome)) :
    ∃ completedAtMs, states key = some (.completed fingerprint outcome completedAtMs) := by
  have hplanned := planned leaseMs ttlMs nextFence states (.begin key fingerprint nowMs)
  generalize plan leaseMs ttlMs nextFence states (.begin key fingerprint nowMs) = plan
    at hanswer hplanned
  cases hplanned with
  | replays haction =>
      cases hanswer
      exact Engine.action_eq_replay haction
  | starts => cases hanswer
  | waits => cases hanswer
  | mismatches => cases hanswer

/-- A replay touches no store. -/
theorem plan_reads_of_replay
    (hanswer : ((EngineCall.begin key fingerprint nowMs).plan leaseMs ttlMs nextFence
      states).answer = .begun (.replay outcome)) :
    ((EngineCall.begin key fingerprint nowMs).plan leaseMs ttlMs nextFence states).storeCall =
      none := by
  have hplanned := planned leaseMs ttlMs nextFence states (.begin key fingerprint nowMs)
  generalize plan leaseMs ttlMs nextFence states (.begin key fingerprint nowMs) = plan
    at hanswer hplanned ⊢
  cases hplanned with
  | starts => cases hanswer
  | replays => rfl
  | waits => rfl
  | mismatches => rfl

/-- A completion is accepted only from the holder of the current fence. -/
theorem plan_complete_ok
    (hanswer : ((EngineCall.complete token outcome nowMs).plan leaseMs ttlMs nextFence
      states).answer = .completed (.ok ())) :
    ∃ fingerprint leaseExpiresAtMs,
      states token.key = some (.inProgress token.fence fingerprint leaseExpiresAtMs) := by
  have hplanned := planned leaseMs ttlMs nextFence states (.complete token outcome nowMs)
  generalize plan leaseMs ttlMs nextFence states (.complete token outcome nowMs) = plan
    at hanswer hplanned
  cases hplanned with
  | commits hstate => exact ⟨_, _, hstate⟩
  | refuses => cases hanswer

end Plans

end EngineCall

namespace Engine

variable {σ : Type} [Store σ]

def plan (engine : Engine σ) (call : EngineCall) : Plan :=
  call.plan engine.leaseMs engine.ttlMs engine.nextFence (Store.get engine.store)

/-- Every call carries out its plan. -/
theorem run_eq_plan (io : Io) (call : EngineCall) (engine : Engine σ) :
    call.run io engine =
      match (engine.plan call).storeCall with
      | none => .ok (engine.plan call).answer engine
      | some storeCall =>
          match storeCall.run io engine.store with
          | .ok _ store => .ok (engine.plan call).answer
              { engine with store := store, nextFence := (engine.plan call).nextFence }
          | .error panic store => .error panic
              { engine with store := store, nextFence := (engine.plan call).nextFence } := by
  cases call with
  | begin key fingerprint nowMs =>
      simp only [plan, EngineCall.plan, EngineCall.run, begin]
      simp only [Functor.map, EStateM.map, bind, EStateM.bind, get, getThe, MonadStateOf.get,
        EStateM.get]
      cases action engine.ttlMs fingerprint nowMs (Store.get engine.store key) with
      | start =>
          simp only [start, mintFence, onStore, StoreCall.run, bind, EStateM.bind, get, getThe,
            MonadStateOf.get, EStateM.get, set, EStateM.set, pure, EStateM.pure]
          cases Store.put io key _ engine.store <;> rfl
      | replay outcome => rfl
      | inProgress => rfl
      | mismatch => rfl
  | complete token outcome nowMs =>
      simp only [plan, EngineCall.plan, EngineCall.run, complete]
      simp only [Functor.map, EStateM.map, bind, EStateM.bind, get, getThe, MonadStateOf.get,
        EStateM.get]
      match Store.get engine.store token.key with
      | none => rfl
      | some (.completed ..) => rfl
      | some (.inProgress fence fingerprint leaseExpiresAtMs) =>
          by_cases hfence : fence = token.fence
          · simp only [hfence, ne_eq, not_true_eq_false, if_true, if_false, onStore, StoreCall.run,
              EStateM.bind, pure, EStateM.pure]
            cases Store.put io token.key _ engine.store <;> rfl
          · simp only [hfence, ne_eq, not_false_eq_true, if_true, if_false, pure, EStateM.pure]
  | flush =>
      simp only [plan, EngineCall.plan, EngineCall.run, flush, onStore, StoreCall.run, Functor.map,
        EStateM.map]
      cases Store.flush io engine.store <;> rfl
  | pruneExpired iteration nowMs =>
      simp only [plan, EngineCall.plan, EngineCall.run, pruneExpired, onStore, StoreCall.run,
        Functor.map, EStateM.map, bind, EStateM.bind, get, getThe, MonadStateOf.get, EStateM.get]
      cases Store.compact io iteration (keeps engine.ttlMs nowMs) engine.store <;> rfl

variable {io : Io} {call : EngineCall} {engine : Engine σ} {storeCall : StoreCall} {store : σ}

theorem run_reads (hplan : (engine.plan call).storeCall = none) :
    call.run io engine = .ok (engine.plan call).answer engine := by
  simp only [run_eq_plan, hplan]

theorem run_returns (hplan : (engine.plan call).storeCall = some storeCall)
    (hrun : storeCall.run io engine.store = .ok () store) :
    call.run io engine = .ok (engine.plan call).answer
      { engine with store := store, nextFence := (engine.plan call).nextFence } := by
  simp only [run_eq_plan, hplan, hrun]

theorem run_panics (hplan : (engine.plan call).storeCall = some storeCall) {panic : Panic}
    (hrun : storeCall.run io engine.store = .error panic store) :
    call.run io engine = .error panic
      { engine with store := store, nextFence := (engine.plan call).nextFence } := by
  simp only [run_eq_plan, hplan, hrun]

/-- A call that returns gives the planned answer and carries out the planned store call. -/
theorem run_eq_ok {answer : Answer} {next : Engine σ}
    (hrun : call.run io engine = .ok answer next) :
    answer = (engine.plan call).answer ∧
      ((engine.plan call).storeCall = none ∧ next = engine ∨
        ∃ storeCall, (engine.plan call).storeCall = some storeCall ∧
          storeCall.run io engine.store = .ok () next.store) := by
  rw [run_eq_plan] at hrun
  split at hrun
  next hplan =>
    cases hrun
    exact ⟨rfl, Or.inl ⟨hplan, rfl⟩⟩
  next storeCall hplan =>
    split at hrun
    next hstore =>
      cases hrun
      exact ⟨rfl, Or.inr ⟨storeCall, hplan, hstore⟩⟩
    next => contradiction

/-- A call panics only inside its planned store call. -/
theorem run_eq_error {panic : Panic} {next : Engine σ}
    (hrun : call.run io engine = .error panic next) :
    ∃ storeCall, (engine.plan call).storeCall = some storeCall ∧
      storeCall.run io engine.store = .error panic next.store := by
  rw [run_eq_plan] at hrun
  split at hrun
  next => contradiction
  next storeCall hplan =>
    split at hrun
    next => contradiction
    next hstore =>
      cases hrun
      exact ⟨storeCall, hplan, hstore⟩

/-- On a lawful store, with I/O that succeeds, every call returns as planned. -/
theorem run_lawful [LawfulStore σ] (call : EngineCall) (engine : Engine σ) :
    ∃ next, call.run .done engine = .ok (engine.plan call).answer next ∧
      next.leaseMs = engine.leaseMs ∧ next.ttlMs = engine.ttlMs ∧
      next.nextFence = (engine.plan call).nextFence ∧
      ∀ key, Store.get next.store key =
        (engine.plan call).effect key (Store.get engine.store key) := by
  unfold Plan.effect
  cases hplan : (engine.plan call).storeCall with
  | none =>
      exact ⟨engine, run_reads hplan, rfl, rfl, (EngineCall.plan_nextFence_of_reads hplan).symm,
        fun _ => rfl⟩
  | some storeCall =>
      obtain ⟨store, hrun, hstates⟩ := LawfulStore.run_done storeCall engine.store
      exact ⟨{ engine with store := store, nextFence := (engine.plan call).nextFence },
        run_returns hplan hrun, rfl, rfl, rfl, hstates⟩

/-- What a mapped call returns. -/
theorem map_eq_ok {ε ς α β : Type} {f : α → β} {call : EStateM ε ς α} {state next : ς} {value : β}
    (hcall : (f <$> call) state = .ok value next) :
    ∃ returned, call state = .ok returned next ∧ f returned = value := by
  change EStateM.map f call state = _ at hcall
  unfold EStateM.map at hcall
  split at hcall
  next returned _ hreturned =>
    cases hcall
    exact ⟨returned, hreturned, rfl⟩
  next => contradiction

end Engine

end Onced
