import Onced.Foundation.Trace
import Onced.Gateway.Phases

/-! # A shard behind its lock

Requests on one shard take turns: each locked section is one event. Between its
two sections a request holds a ticket and the time it was captured at. A panic
inside a section poisons the lock, ends the request without an answer and leaves
the gateway as it was at that moment; the next request carries on from there.
-/

namespace Onced

open Foundation

/-- A request whose backend call is under way. -/
structure Forward where
  ticket : ForwardTicket
  nowMs : UInt64

/-- A gateway behind its lock. -/
structure Shard (σ : Type) where
  gateway : Gateway σ
  /-- A panic has happened under the lock. -/
  poisoned : Bool
  /-- The requests forwarded so far; a slot is empty once its request is finished. -/
  forwards : List (Option Forward)

/-- One locked section. -/
inductive ShardEvent where
  | begin (io : Io) (request : Request) (nowMs : UInt64)
  | complete (io : Io) (slot : Nat) (forwarded : Except String Response)
  | prune (io : Io) (iteration : Iteration) (nowMs : UInt64)

def ShardEvent.io : ShardEvent → Io
  | .begin io _ _ => io
  | .complete io _ _ => io
  | .prune io _ _ => io

/-- What a locked section comes to for the one who entered it. -/
inductive Reply where
  | answered (response : Response)
  | forwarding (ticket : ForwardTicket)
  | pruned
  | panicked (panic : Panic)
  /-- The request is not under way. -/
  | skipped

/-- A reply, with the engine call that was made and what the engine answered.
The source drops the answer to a completion; it is kept here to be reasoned about. -/
structure Handled where
  reply : Reply
  entry : Option (EngineCall × Answer)

namespace Shard

variable {σ : Type} [Store σ]

def fresh (gateway : Gateway σ) : Shard σ := ⟨gateway, false, []⟩

/-- The records the shard's engine sees. -/
abbrev states (shard : Shard σ) : IdempotencyKey → Option KeyState :=
  Store.get shard.gateway.engine.store

/-- Run a section under the lock, poisoned or not. -/
def lock {α : Type} (shard : Shard σ) (body : EStateM Panic (Gateway σ) α) :
    Except Panic α × Shard σ :=
  match body shard.gateway with
  | .ok value gateway => (.ok value, { shard with gateway := gateway })
  | .error panic gateway => (.error panic, { shard with gateway := gateway, poisoned := true })

/-- The first phase under the lock; a ticket is kept until it is handed back. -/
def beginOn (shard : Shard σ) (io : Io) (request : Request) (nowMs : UInt64) : Reply × Shard σ :=
  match shard.lock (Gateway.beginPhase io request nowMs) with
  | (.ok (.done response), next) => (.answered response, next)
  | (.ok (.forward ticket), next) =>
      (.forwarding ticket, { next with forwards := next.forwards ++ [some ⟨ticket, nowMs⟩] })
  | (.error panic, next) => (.panicked panic, next)

/-- The second phase under the lock; the ticket is consumed. -/
def completeOn (shard : Shard σ) (io : Io) (slot : Nat) (forwarded : Except String Response) :
    Reply × Shard σ :=
  match shard.forwards[slot]? with
  | some (some forward) =>
      let shard := { shard with forwards := shard.forwards.set slot none }
      match shard.lock (Gateway.completePhase io forward.ticket forwarded forward.nowMs) with
      | (.ok response, next) => (.answered response, next)
      | (.error panic, next) => (.panicked panic, next)
  | _ => (.skipped, shard)

def handle (shard : Shard σ) : ShardEvent → Reply × Shard σ
  | .begin io request nowMs => shard.beginOn io request nowMs
  | .complete io slot forwarded => shard.completeOn io slot forwarded
  | .prune io iteration nowMs =>
      match shard.lock (Gateway.pruneExpired io iteration nowMs) with
      | (.ok _, next) => (.pruned, next)
      | (.error panic, next) => (.panicked panic, next)

/-- The engine call a section makes. -/
def call (shard : Shard σ) : ShardEvent → Option EngineCall
  | .begin _ request nowMs => (request.header "idempotency-key").map fun key =>
      .begin ⟨key⟩ (fingerprintOf request shard.gateway.fingerprintKey) nowMs
  | .complete _ slot forwarded =>
      match shard.forwards[slot]? with
      | some (some forward) => (forward.ticket.commit forwarded).map fun (token, response) =>
          .complete token (toOutcome response) forward.nowMs
      | _ => none
  | .prune _ iteration nowMs => some (.pruneExpired iteration nowMs)

/-- The engine call and its answer, unless it panics. -/
def entry (shard : Shard σ) (event : ShardEvent) : Option (EngineCall × Answer) :=
  (shard.call event).bind fun call =>
    match call.run event.io shard.gateway.engine with
    | .ok answer _ => some (call, answer)
    | .error .. => none

/-- One event as a step of a machine that never stops. -/
def step (shard : Shard σ) (event : ShardEvent) : Except Empty (Handled × Shard σ) :=
  .ok (⟨(shard.handle event).1, shard.entry event⟩, (shard.handle event).2)

end Shard

/-- What a client is told, given the engine call made for it and its answer. -/
inductive Tells : ShardEvent → EngineCall → Answer → Reply → Prop where
  | runs {io : Io} {request : Request} {key : IdempotencyKey} {fingerprint : RequestFingerprint}
      {nowMs : UInt64} {token : RunToken} :
      Tells (.begin io request nowMs) (.begin key fingerprint nowMs) (.begun (.run token))
        (.forwarding ⟨some token⟩)
  | replays {io : Io} {request : Request} {key : IdempotencyKey}
      {fingerprint : RequestFingerprint} {nowMs : UInt64} {outcome : CachedOutcome} :
      Tells (.begin io request nowMs) (.begin key fingerprint nowMs) (.begun (.replay outcome))
        (.answered (tag (fromOutcome outcome) "replayed"))
  | waits {io : Io} {request : Request} {key : IdempotencyKey} {fingerprint : RequestFingerprint}
      {nowMs : UInt64} :
      Tells (.begin io request nowMs) (.begin key fingerprint nowMs) (.begun .inProgress)
        (.answered (taggedStatus 409 "in-progress"))
  | mismatches {io : Io} {request : Request} {key : IdempotencyKey}
      {fingerprint : RequestFingerprint} {nowMs : UInt64} :
      Tells (.begin io request nowMs) (.begin key fingerprint nowMs) (.begun .mismatch)
        (.answered (taggedStatus 422 "mismatch"))
  | creates {io : Io} {slot : Nat} {response : Response} {token : RunToken} {nowMs : UInt64}
      {result : Except CompleteError Unit} :
      Tells (.complete io slot (.ok response)) (.complete token (toOutcome response) nowMs)
        (.completed result) (.answered (tag response "created"))
  | prunes {io : Io} {iteration : Iteration} {nowMs : UInt64} :
      Tells (.prune io iteration nowMs) (.pruneExpired iteration nowMs) .done .pruned

namespace Shard

variable {σ : Type} [Store σ]

/-- The requests under way after a section: one more if it handed out a ticket,
one less if it took one back. -/
def forwardsAfter (shard : Shard σ) : ShardEvent → Reply → List (Option Forward)
  | .begin _ _ nowMs, .forwarding ticket => shard.forwards ++ [some ⟨ticket, nowMs⟩]
  | .begin .., _ => shard.forwards
  | .complete _ slot _, _ => shard.forwards.set slot none
  | .prune .., _ => shard.forwards

/-- What no engine call touches. -/
structure Keeps (shard : Shard σ) (event : ShardEvent) (reply : Reply) (next : Shard σ) : Prop where
  fingerprintKey : next.gateway.fingerprintKey = shard.gateway.fingerprintKey
  forwards : next.forwards = shard.forwardsAfter event reply

/-- What one locked section can do to the shard. -/
inductive Does (shard : Shard σ) (event : ShardEvent) : Handled → Shard σ → Prop where
  | passes {reply : Reply} {next : Shard σ} (hcall : shard.call event = none)
      (hengine : next.gateway.engine = shard.gateway.engine)
      (hpoisoned : next.poisoned = shard.poisoned) (hkeeps : shard.Keeps event reply next) :
      Does shard event ⟨reply, none⟩ next
  | returns {call : EngineCall} {answer : Answer} {reply : Reply} {next : Shard σ}
      (hcall : shard.call event = some call)
      (hrun : call.run event.io shard.gateway.engine = .ok answer next.gateway.engine)
      (htells : Tells event call answer reply) (hpoisoned : next.poisoned = shard.poisoned)
      (hkeeps : shard.Keeps event reply next) : Does shard event ⟨reply, some (call, answer)⟩ next
  | panics {call : EngineCall} {panic : Panic} {next : Shard σ}
      (hcall : shard.call event = some call)
      (hrun : call.run event.io shard.gateway.engine = .error panic next.gateway.engine)
      (hpoisoned : next.poisoned = true) (hkeeps : shard.Keeps event (.panicked panic) next) :
      Does shard event ⟨.panicked panic, none⟩ next

theorem entry_returns {shard : Shard σ} {event : ShardEvent} {call : EngineCall} {answer : Answer}
    {engine : Engine σ} (hcall : shard.call event = some call)
    (hrun : call.run event.io shard.gateway.engine = .ok answer engine) :
    shard.entry event = some (call, answer) := by
  simp only [entry, hcall, Option.bind_some, hrun]

theorem entry_panics {shard : Shard σ} {event : ShardEvent} {call : EngineCall} {panic : Panic}
    {engine : Engine σ} (hcall : shard.call event = some call)
    (hrun : call.run event.io shard.gateway.engine = .error panic engine) :
    shard.entry event = none := by
  simp only [entry, hcall, Option.bind_some, hrun]

theorem does_begin (shard : Shard σ) (io : Io) (request : Request) (nowMs : UInt64) :
    shard.Does (.begin io request nowMs)
      ⟨(shard.beginOn io request nowMs).1, shard.entry (.begin io request nowMs)⟩
      (shard.beginOn io request nowMs).2 := by
  cases hkey : request.header "idempotency-key" with
  | none =>
      have hcall : shard.call (.begin io request nowMs) = none := by simp [call, hkey]
      obtain ⟨metrics, hphase⟩ := Gateway.beginPhase_keyless shard.gateway io nowMs hkey
      have hentry : shard.entry (.begin io request nowMs) = none := by simp [entry, hcall]
      rw [hentry]
      simp only [beginOn, lock, hphase]
      exact .passes hcall rfl rfl ⟨rfl, rfl⟩
  | some key =>
      have hcall : shard.call (.begin io request nowMs) = some (.begin ⟨key⟩
          (fingerprintOf request shard.gateway.fingerprintKey) nowMs) := by simp [call, hkey]
      obtain ⟨metrics, hphase⟩ := Gateway.beginPhase_keyed shard.gateway io nowMs hkey
      have hrun : (EngineCall.begin ⟨key⟩ (fingerprintOf request shard.gateway.fingerprintKey)
          nowMs).run io shard.gateway.engine = EStateM.map Answer.begun (Engine.begin io ⟨key⟩
            (fingerprintOf request shard.gateway.fingerprintKey) nowMs) shard.gateway.engine := rfl
      unfold EStateM.map at hrun
      cases hbegin : Engine.begin io ⟨key⟩ (fingerprintOf request shard.gateway.fingerprintKey)
          nowMs shard.gateway.engine with
      | ok decision engine =>
          rw [hbegin] at hrun hphase
          rw [entry_returns hcall hrun]
          simp only [beginOn, lock, hphase]
          cases decision <;> exact .returns hcall hrun (by constructor) rfl ⟨rfl, rfl⟩
      | error panic engine =>
          rw [hbegin] at hrun hphase
          rw [entry_panics hcall hrun]
          simp only [beginOn, lock, hphase]
          exact .panics hcall hrun rfl ⟨rfl, rfl⟩

theorem does_complete (shard : Shard σ) (io : Io) (slot : Nat)
    (forwarded : Except String Response) :
    shard.Does (.complete io slot forwarded)
      ⟨(shard.completeOn io slot forwarded).1, shard.entry (.complete io slot forwarded)⟩
      (shard.completeOn io slot forwarded).2 := by
  match hslot : shard.forwards[slot]? with
  | none =>
      have hcall : shard.call (.complete io slot forwarded) = none := by simp [call, hslot]
      have hentry : shard.entry (.complete io slot forwarded) = none := by simp [entry, hcall]
      have hset : shard.forwards.set slot none = shard.forwards :=
        List.set_eq_of_length_le (List.getElem?_eq_none_iff.mp hslot)
      simp only [hentry, completeOn, hslot]
      exact .passes hcall rfl rfl ⟨rfl, hset.symm⟩
  | some none =>
      have hcall : shard.call (.complete io slot forwarded) = none := by simp [call, hslot]
      have hentry : shard.entry (.complete io slot forwarded) = none := by simp [entry, hcall]
      obtain ⟨hlength, hempty⟩ := List.getElem?_eq_some_iff.mp hslot
      have hset : shard.forwards.set slot none = shard.forwards := by
        rw [← hempty, List.set_getElem_self]
      simp only [hentry, completeOn, hslot]
      exact .passes hcall rfl rfl ⟨rfl, hset.symm⟩
  | some (some forward) =>
      cases hcommit : forward.ticket.commit forwarded with
      | none =>
          have hcall : shard.call (.complete io slot forwarded) = none := by
            simp [call, hslot, hcommit]
          have hentry : shard.entry (.complete io slot forwarded) = none := by simp [entry, hcall]
          obtain ⟨response, metrics, hphase, -⟩ :=
            Gateway.completePhase_passes shard.gateway io forward.nowMs hcommit
          simp only [hentry, completeOn, hslot, lock, hphase]
          exact .passes hcall rfl rfl ⟨rfl, rfl⟩
      | some commit =>
          obtain ⟨token, response⟩ := commit
          have hcall : shard.call (.complete io slot forwarded) =
              some (.complete token (toOutcome response) forward.nowMs) := by
            simp [call, hslot, hcommit]
          obtain ⟨metrics, hphase⟩ :=
            Gateway.completePhase_commits shard.gateway io forward.nowMs hcommit
          have hrun : (EngineCall.complete token (toOutcome response) forward.nowMs).run io
              shard.gateway.engine = EStateM.map Answer.completed (Engine.complete io token
                (toOutcome response) forward.nowMs) shard.gateway.engine := rfl
          unfold EStateM.map at hrun
          cases hcomplete : Engine.complete io token (toOutcome response) forward.nowMs
              shard.gateway.engine with
          | ok result engine =>
              rw [hcomplete] at hrun hphase
              rw [entry_returns hcall hrun]
              simp only [completeOn, hslot, lock, hphase]
              obtain ⟨-, rfl, -⟩ := ForwardTicket.commit_eq_some hcommit
              exact .returns hcall hrun .creates rfl ⟨rfl, rfl⟩
          | error panic engine =>
              rw [hcomplete] at hrun hphase
              rw [entry_panics hcall hrun]
              simp only [completeOn, hslot, lock, hphase]
              exact .panics hcall hrun rfl ⟨rfl, rfl⟩

/-- A section does what its engine call does, and tells the client accordingly. -/
theorem does_handle (shard : Shard σ) (event : ShardEvent) :
    shard.Does event ⟨(shard.handle event).1, shard.entry event⟩ (shard.handle event).2 := by
  cases event with
  | begin io request nowMs => exact shard.does_begin io request nowMs
  | complete io slot forwarded => exact shard.does_complete io slot forwarded
  | prune io iteration nowMs =>
      have hcall : shard.call (.prune io iteration nowMs) = some (.pruneExpired iteration nowMs) :=
        rfl
      have hrun : (EngineCall.pruneExpired iteration nowMs).run io shard.gateway.engine =
          EStateM.map (fun _ => Answer.done) (Engine.pruneExpired io iteration nowMs)
            shard.gateway.engine := rfl
      unfold EStateM.map at hrun
      cases hprune : Engine.pruneExpired io iteration nowMs shard.gateway.engine with
      | ok _ engine =>
          rw [hprune] at hrun
          rw [entry_returns hcall hrun]
          simp only [handle, lock, Gateway.pruneExpired, Gateway.onEngine, hprune]
          exact .returns hcall hrun .prunes rfl ⟨rfl, rfl⟩
      | error panic engine =>
          rw [hprune] at hrun
          rw [entry_panics hcall hrun]
          simp only [handle, lock, Gateway.pruneExpired, Gateway.onEngine, hprune]
          exact .panics hcall hrun rfl ⟨rfl, rfl⟩

theorem step_does (shard : Shard σ) (event : ShardEvent) :
    ∃ handled next, shard.step event = .ok (handled, next) ∧ shard.Does event handled next :=
  ⟨_, _, rfl, shard.does_handle event⟩

theorem does_of_step {shard next : Shard σ} {event : ShardEvent} {handled : Handled}
    (hstep : shard.step event = .ok (handled, next)) : shard.Does event handled next := by
  cases hstep
  exact shard.does_handle event

/-- A section on a lawful store with I/O that succeeds carries out the plan of
its engine call. -/
inductive Plans (shard : Shard σ) (event : ShardEvent) : Handled → Shard σ → Prop where
  | passes {reply : Reply} {next : Shard σ} (hcall : shard.call event = none)
      (hengine : next.gateway.engine = shard.gateway.engine)
      (hkeeps : shard.Keeps event reply next) : Plans shard event ⟨reply, none⟩ next
  | returns {call : EngineCall} {reply : Reply} {next : Shard σ}
      (hcall : shard.call event = some call)
      (htells : Tells event call (shard.gateway.engine.plan call).answer reply)
      (hleaseMs : next.gateway.engine.leaseMs = shard.gateway.engine.leaseMs)
      (httlMs : next.gateway.engine.ttlMs = shard.gateway.engine.ttlMs)
      (hnextFence : next.gateway.engine.nextFence = (shard.gateway.engine.plan call).nextFence)
      (hstates : ∀ key, next.states key =
        (shard.gateway.engine.plan call).effect key (shard.states key))
      (hkeeps : shard.Keeps event reply next) :
      Plans shard event ⟨reply, some (call, (shard.gateway.engine.plan call).answer)⟩ next

theorem step_plans [LawfulStore σ] (shard : Shard σ) {event : ShardEvent}
    (hdone : event.io = .done) :
    ∃ handled next, shard.step event = .ok (handled, next) ∧ shard.Plans event handled next := by
  obtain ⟨handled, next, hstep, hdoes⟩ := shard.step_does event
  refine ⟨handled, next, hstep, ?_⟩
  cases hdoes with
  | passes hcall hengine _ hkeeps => exact .passes hcall hengine hkeeps
  | @returns call answer _ next hcall hrun htells _ hkeeps =>
      obtain ⟨planned, hplanned, hleaseMs, httlMs, hnextFence, hstates⟩ :=
        Engine.run_lawful call shard.gateway.engine
      rw [hdone, hplanned] at hrun
      cases hrun
      exact .returns hcall htells hleaseMs httlMs hnextFence hstates hkeeps
  | @panics call panic next hcall hrun =>
      obtain ⟨planned, hplanned, -⟩ := Engine.run_lawful call shard.gateway.engine
      rw [hdone, hplanned] at hrun
      contradiction

/-! ## Sections with a known plan -/

section Known

variable [LawfulStore σ] (shard : Shard σ)

/-- The configuration, which no section changes. -/
structure SameSetup (shard next : Shard σ) : Prop where
  leaseMs : next.gateway.engine.leaseMs = shard.gateway.engine.leaseMs
  ttlMs : next.gateway.engine.ttlMs = shard.gateway.engine.ttlMs
  fingerprintKey : next.gateway.fingerprintKey = shard.gateway.fingerprintKey

omit [LawfulStore σ] in
variable {shard} in
theorem Plans.sameSetup {event : ShardEvent} {handled : Handled} {next : Shard σ}
    (hplans : shard.Plans event handled next) : shard.SameSetup next := by
  cases hplans with
  | passes _ hengine hkeeps => exact ⟨by rw [hengine], by rw [hengine], hkeeps.fingerprintKey⟩
  | returns _ _ hleaseMs httlMs _ _ hkeeps => exact ⟨hleaseMs, httlMs, hkeeps.fingerprintKey⟩

/-- A keyed request that starts a run is handed a ticket. -/
theorem step_starts (nowMs : UInt64) {request : Request} {key : String}
    (hkey : request.header "idempotency-key" = some key)
    (haction : Engine.action shard.gateway.engine.ttlMs
      (fingerprintOf request shard.gateway.fingerprintKey) nowMs (shard.states ⟨key⟩) = .start) :
    ∃ next, shard.step (.begin .done request nowMs) =
        .ok (⟨.forwarding ⟨some ⟨⟨key⟩, ⟨shard.gateway.engine.nextFence⟩⟩⟩,
          some (.begin ⟨key⟩ (fingerprintOf request shard.gateway.fingerprintKey) nowMs,
            .begun (.run ⟨⟨key⟩, ⟨shard.gateway.engine.nextFence⟩⟩))⟩, next) ∧
      shard.SameSetup next ∧
      next.states ⟨key⟩ = some (.inProgress ⟨shard.gateway.engine.nextFence⟩
        (fingerprintOf request shard.gateway.fingerprintKey)
        (saturatingAdd nowMs shard.gateway.engine.leaseMs)) ∧
      next.gateway.engine.nextFence = shard.gateway.engine.nextFence + 1 ∧
      next.forwards = shard.forwards ++
        [some ⟨⟨some ⟨⟨key⟩, ⟨shard.gateway.engine.nextFence⟩⟩⟩, nowMs⟩] := by
  have hcall : shard.call (.begin .done request nowMs) = some (.begin ⟨key⟩
      (fingerprintOf request shard.gateway.fingerprintKey) nowMs) := by simp [call, hkey]
  have hplan : shard.gateway.engine.plan (.begin ⟨key⟩
      (fingerprintOf request shard.gateway.fingerprintKey) nowMs) = _ :=
    EngineCall.plan_begin_start haction
  obtain ⟨handled, next, hstep, hplans⟩ :=
    shard.step_plans (show (ShardEvent.begin .done request nowMs).io = .done from rfl)
  have hsetup := hplans.sameSetup
  cases hplans with
  | passes hnone => rw [hcall] at hnone; contradiction
  | returns hsome htells _ _ hnextFence hstates hkeeps =>
      obtain rfl := Option.some.inj (hcall.symm.trans hsome)
      rw [hplan] at hstep htells hnextFence hstates
      cases htells
      exact ⟨next, hstep, hsetup, by rw [hstates]; exact if_pos rfl, hnextFence, hkeeps.forwards⟩

omit [LawfulStore σ] in
/-- A request for a completed key is answered from its record, whatever becomes of I/O. -/
theorem step_replays (io : Io) {nowMs completedAtMs : UInt64} {request : Request} {key : String}
    {outcome : CachedOutcome} (hkey : request.header "idempotency-key" = some key)
    (hstate : shard.states ⟨key⟩ = some (.completed
      (fingerprintOf request shard.gateway.fingerprintKey) outcome completedAtMs))
    (hnow : nowMs < saturatingAdd completedAtMs shard.gateway.engine.ttlMs) :
    ∃ next, shard.step (.begin io request nowMs) =
        .ok (⟨.answered (tag (fromOutcome outcome) "replayed"),
          some (.begin ⟨key⟩ (fingerprintOf request shard.gateway.fingerprintKey) nowMs,
            .begun (.replay outcome))⟩, next) ∧
      next.gateway.engine = shard.gateway.engine := by
  have hcall : shard.call (.begin io request nowMs) = some (.begin ⟨key⟩
      (fingerprintOf request shard.gateway.fingerprintKey) nowMs) := by simp [call, hkey]
  have hplan : shard.gateway.engine.plan (.begin ⟨key⟩
      (fingerprintOf request shard.gateway.fingerprintKey) nowMs) = _ :=
    EngineCall.plan_begin_completed hstate (fingerprintOf request shard.gateway.fingerprintKey) hnow
  rw [if_pos rfl] at hplan
  have hreads := @Engine.run_reads σ _ io _ shard.gateway.engine (congrArg Plan.storeCall hplan)
  obtain ⟨handled, next, hstep, hdoes⟩ := shard.step_does (.begin io request nowMs)
  cases hdoes with
  | passes hnone => rw [hcall] at hnone; contradiction
  | returns hsome hrun htells =>
      obtain rfl := Option.some.inj (hcall.symm.trans hsome)
      obtain ⟨rfl, hengine⟩ := EStateM.Result.ok.inj (hreads.symm.trans hrun)
      rw [hplan] at hstep htells
      cases htells
      exact ⟨next, hstep, hengine.symm⟩
  | panics hsome hrun =>
      obtain rfl := Option.some.inj (hcall.symm.trans hsome)
      cases hreads.symm.trans hrun

/-- A completion by the holder of the fence stores the outcome. -/
theorem step_commits {slot : Nat} {token : RunToken} {nowMs leaseExpiresAtMs : UInt64}
    {fingerprint : RequestFingerprint} {response : Response}
    (hslot : shard.forwards[slot]? = some (some ⟨⟨some token⟩, nowMs⟩))
    (hstatus : ¬ response.status ≥ 500)
    (hstate : shard.states token.key =
      some (.inProgress token.fence fingerprint leaseExpiresAtMs)) :
    ∃ next, shard.step (.complete .done slot (.ok response)) =
        .ok (⟨.answered (tag response "created"),
          some (.complete token (toOutcome response) nowMs, .completed (.ok ()))⟩, next) ∧
      shard.SameSetup next ∧
      next.states token.key = some (.completed fingerprint (toOutcome response) nowMs) ∧
      next.forwards = shard.forwards.set slot none := by
  have hcall : shard.call (.complete .done slot (.ok response)) =
      some (.complete token (toOutcome response) nowMs) := by
    simp [call, hslot, ForwardTicket.commit, hstatus]
  have hplan : shard.gateway.engine.plan (.complete token (toOutcome response) nowMs) = _ :=
    EngineCall.plan_complete_holder hstate
  obtain ⟨handled, next, hstep, hplans⟩ :=
    shard.step_plans (show (ShardEvent.complete .done slot (.ok response)).io = .done from rfl)
  have hsetup := hplans.sameSetup
  cases hplans with
  | passes hnone => rw [hcall] at hnone; contradiction
  | returns hsome htells _ _ _ hstates hkeeps =>
      obtain rfl := Option.some.inj (hcall.symm.trans hsome)
      rw [hplan] at hstep htells hstates
      cases htells
      exact ⟨next, hstep, hsetup, by rw [hstates]; exact if_pos rfl, hkeeps.forwards⟩

/-- A completion by anyone else is refused, and answered all the same. -/
theorem step_refused {slot : Nat} {token : RunToken} {nowMs : UInt64} {response : Response}
    (hslot : shard.forwards[slot]? = some (some ⟨⟨some token⟩, nowMs⟩))
    (hstatus : ¬ response.status ≥ 500)
    (hstate : ∀ fingerprint leaseExpiresAtMs, shard.states token.key ≠
      some (.inProgress token.fence fingerprint leaseExpiresAtMs)) :
    ∃ refusal next, shard.step (.complete .done slot (.ok response)) =
        .ok (⟨.answered (tag response "created"),
          some (.complete token (toOutcome response) nowMs, .completed (.error refusal))⟩, next) ∧
      ∀ key, next.states key = shard.states key := by
  have hcall : shard.call (.complete .done slot (.ok response)) =
      some (.complete token (toOutcome response) nowMs) := by
    simp [call, hslot, ForwardTicket.commit, hstatus]
  obtain ⟨refusal, hrefusal⟩ := @EngineCall.plan_complete_other shard.gateway.engine.leaseMs
    shard.gateway.engine.ttlMs shard.gateway.engine.nextFence _ nowMs _ (toOutcome response) hstate
  have hplan : shard.gateway.engine.plan (.complete token (toOutcome response) nowMs) = _ :=
    hrefusal
  obtain ⟨handled, next, hstep, hplans⟩ :=
    shard.step_plans (show (ShardEvent.complete .done slot (.ok response)).io = .done from rfl)
  cases hplans with
  | passes hnone => rw [hcall] at hnone; contradiction
  | returns hsome htells _ _ _ hstates _ =>
      obtain rfl := Option.some.inj (hcall.symm.trans hsome)
      rw [hplan] at hstep htells hstates
      cases htells
      exact ⟨refusal, next, hstep, hstates⟩

end Known

end Shard

end Onced
