import Onced.Core.Engine
import Onced.Core.Hash
import Onced.Foundation.Enumeration
import Onced.Gateway.Http

/-! # The two locked phases of a request

A request is decided in one locked section and finished in another; the backend
is called in between without the lock. The first phase answers from the engine
or hands out a ticket, the second takes the ticket back with what the backend
said. Both come to at most one call of the engine.
-/

namespace Onced

open Foundation

/-- Operational counters, which wrap around. -/
structure Metrics where
  requestsTotal : UInt64 := 0
  created : UInt64 := 0
  replayed : UInt64 := 0
  inProgress : UInt64 := 0
  mismatch : UInt64 := 0
  denied : UInt64 := 0
  upstreamError : UInt64 := 0
  passthrough : UInt64 := 0
  deriving DecidableEq

/-- Fold another shard's counters into this one. -/
def Metrics.merge (total other : Metrics) : Metrics where
  requestsTotal := total.requestsTotal + other.requestsTotal
  created := total.created + other.created
  replayed := total.replayed + other.replayed
  inProgress := total.inProgress + other.inProgress
  mismatch := total.mismatch + other.mismatch
  denied := total.denied + other.denied
  upstreamError := total.upstreamError + other.upstreamError
  passthrough := total.passthrough + other.passthrough

/-- An idempotency engine with its counters and the key of its fingerprints. -/
structure Gateway (σ : Type) where
  engine : Engine σ
  metrics : Metrics
  fingerprintKey : Bytes32

/-- What the first phase hands to the second: the run token of a keyed request. -/
structure ForwardTicket where
  token : Option RunToken
  deriving DecidableEq

inductive BeginPhase where
  | done (response : Response)
  | forward (ticket : ForwardTicket)
  deriving DecidableEq

/-! ## Fingerprints and responses -/

/-- A field after its length in four bytes, most significant first. -/
def framedField (field : List UInt8) : List UInt8 :=
  beBytes 4 (UInt32.ofNat field.length).toNat ++ field

/-- The bytes of a request that its fingerprint covers. -/
def canonicalBytes (request : Request) : List UInt8 :=
  framedField (utf8 request.method) ++ framedField (utf8 request.target) ++
    framedField request.body

def fingerprintOf (request : Request) (serverKey : Bytes32) : RequestFingerprint :=
  ⟨hmacSha256 serverKey.toList (canonicalBytes request)⟩

/-- The headers are collected into a map: of two with one name the later wins. -/
def toOutcome (response : Response) : CachedOutcome :=
  ⟨response.status, insertAll response.headers ∅, response.body⟩

def fromOutcome (outcome : CachedOutcome) : Response :=
  ⟨outcome.status, outcome.headers.toList, outcome.body⟩

/-- Attach the header that says how the response was produced. -/
def tag (response : Response) (status : String) : Response :=
  { response with headers := response.headers ++ [("Onced-Status", status)] }

def taggedStatus (code : UInt16) (status : String) : Response :=
  ⟨code, [("Onced-Status", status)], []⟩

def badGateway : Response := ⟨502, [("Onced-Status", "upstream-error")], []⟩

/-! ## Phases -/

namespace Gateway

variable {σ : Type} [Store σ]

def new (engine : Engine σ) : Gateway σ := ⟨engine, {}, List.Vector.replicate 32 0⟩

def withFingerprintKey (gateway : Gateway σ) (key : Bytes32) : Gateway σ :=
  { gateway with fingerprintKey := key }

/-- Run a call of the engine inside the gateway. -/
def onEngine {α : Type} (call : EStateM Panic (Engine σ) α) : EStateM Panic (Gateway σ) α :=
  fun gateway =>
    match call gateway.engine with
    | .ok value engine => .ok value { gateway with engine := engine }
    | .error panic engine => .error panic { gateway with engine := engine }

/-- Update the counters. -/
def count (bump : Metrics → Metrics) : EStateM Panic (Gateway σ) Unit :=
  modify fun gateway => { gateway with metrics := bump gateway.metrics }

def pruneExpired (io : Io) (iteration : Iteration) (nowMs : UInt64) :
    EStateM Panic (Gateway σ) Unit :=
  onEngine (Engine.pruneExpired io iteration nowMs)

/-- Decide what to do with a request: answer it, or call the backend. -/
def beginPhase (io : Io) (request : Request) (nowMs : UInt64) :
    EStateM Panic (Gateway σ) BeginPhase := do
  count fun metrics => { metrics with requestsTotal := metrics.requestsTotal + 1 }
  match request.header "idempotency-key" with
  | none => return .forward ⟨none⟩
  | some key =>
      let gateway ← get
      let fingerprint := fingerprintOf request gateway.fingerprintKey
      match ← onEngine (Engine.begin io ⟨key⟩ fingerprint nowMs) with
      | .run token => return .forward ⟨some token⟩
      | .replay outcome =>
          count fun metrics => { metrics with replayed := metrics.replayed + 1 }
          return .done (tag (fromOutcome outcome) "replayed")
      | .inProgress =>
          count fun metrics => { metrics with inProgress := metrics.inProgress + 1 }
          return .done (taggedStatus 409 "in-progress")
      | .mismatch =>
          count fun metrics => { metrics with mismatch := metrics.mismatch + 1 }
          return .done (taggedStatus 422 "mismatch")

/-- Finish a request with the backend's response or its failure. -/
def completePhase (io : Io) (ticket : ForwardTicket) (forwarded : Except String Response)
    (nowMs : UInt64) : EStateM Panic (Gateway σ) Response :=
  match ticket.token, forwarded with
  | some token, .ok response =>
      -- a server error is served but not stored, so that a retry may run again
      if response.status ≥ 500 then do
        count fun metrics => { metrics with upstreamError := metrics.upstreamError + 1 }
        return response
      else do
        -- whether the completion was accepted is not looked at
        let _ ← onEngine (Engine.complete io token (toOutcome response) nowMs)
        count fun metrics => { metrics with created := metrics.created + 1 }
        return tag response "created"
  | some _, .error _ => do
      count fun metrics => { metrics with upstreamError := metrics.upstreamError + 1 }
      return badGateway
  | none, .ok response => do
      count fun metrics => { metrics with passthrough := metrics.passthrough + 1 }
      return response
  | none, .error _ => do
      count fun metrics => { metrics with upstreamError := metrics.upstreamError + 1 }
      return badGateway

end Gateway

/-! ## Engine calls of a phase -/

/-- What the first phase makes of the engine's decision. -/
def Begin.phase : Begin → BeginPhase
  | .run token => .forward ⟨some token⟩
  | .replay outcome => .done (tag (fromOutcome outcome) "replayed")
  | .inProgress => .done (taggedStatus 409 "in-progress")
  | .mismatch => .done (taggedStatus 422 "mismatch")

/-- What the first phase adds to the counters, given the engine's decision. -/
def Begin.counted : Begin → Metrics
  | .run _ => { requestsTotal := 1 }
  | .replay _ => { requestsTotal := 1, replayed := 1 }
  | .inProgress => { requestsTotal := 1, inProgress := 1 }
  | .mismatch => { requestsTotal := 1, mismatch := 1 }

/-- What the second phase answers, and adds to the counters. -/
def ForwardTicket.answer (ticket : ForwardTicket) : Except String Response → Response × Metrics
  | .error _ => (badGateway, { upstreamError := 1 })
  | .ok response =>
      if ticket.token = none then (response, { passthrough := 1 })
      else if response.status ≥ 500 then (response, { upstreamError := 1 })
      else (tag response "created", { created := 1 })

/-- The completion the second phase attempts, if it does. -/
def ForwardTicket.commit (ticket : ForwardTicket) (forwarded : Except String Response) :
    Option (RunToken × Response) :=
  match ticket.token, forwarded with
  | some token, .ok response => if response.status ≥ 500 then none else some (token, response)
  | _, _ => none

theorem ForwardTicket.commit_eq_some {ticket : ForwardTicket} {forwarded : Except String Response}
    {token : RunToken} {response : Response}
    (hcommit : ticket.commit forwarded = some (token, response)) :
    ticket.token = some token ∧ forwarded = .ok response ∧ ¬ response.status ≥ 500 := by
  unfold commit at hcommit
  split at hcommit
  next hticket =>
    split at hcommit
    next => contradiction
    next hstatus =>
      cases hcommit
      exact ⟨hticket, rfl, hstatus⟩
  next => contradiction

/-- A response under a ticket is not committed only if the backend failed. -/
theorem ForwardTicket.status_of_commit_none {ticket : ForwardTicket} {token : RunToken}
    {response : Response} (hticket : ticket.token = some token)
    (hcommit : ticket.commit (.ok response) = none) : response.status ≥ 500 := by
  by_contra hstatus
  unfold commit at hcommit
  rw [hticket] at hcommit
  simp [hstatus] at hcommit

namespace Gateway

variable {σ : Type} [Store σ] (gateway : Gateway σ) (io : Io) (nowMs : UInt64)
variable {request : Request} {ticket : ForwardTicket} {forwarded : Except String Response}

omit [Store σ] in
theorem count_bind {α : Type} (bump : Metrics → Metrics)
    (rest : Unit → EStateM Panic (Gateway σ) α) :
    (count bump >>= rest) gateway = rest () { gateway with metrics := bump gateway.metrics } := rfl

theorem beginPhase_keyless_eq (hkey : request.header "idempotency-key" = none) :
    beginPhase io request nowMs gateway =
      .ok (.forward ⟨none⟩)
        { gateway with metrics := gateway.metrics.merge { requestsTotal := 1 } } := by
  unfold beginPhase
  rw [hkey, count_bind]
  simp [Metrics.merge, pure, EStateM.pure]

theorem beginPhase_keyless (hkey : request.header "idempotency-key" = none) :
    ∃ metrics, beginPhase io request nowMs gateway =
      .ok (.forward ⟨none⟩) { gateway with metrics := metrics } :=
  ⟨_, beginPhase_keyless_eq gateway io nowMs hkey⟩

/-- A keyed request is decided by one begin of the engine. -/
theorem beginPhase_keyed_eq {key : String} (hkey : request.header "idempotency-key" = some key) :
    beginPhase io request nowMs gateway =
      match Engine.begin io ⟨key⟩ (fingerprintOf request gateway.fingerprintKey) nowMs
          gateway.engine with
      | .ok decision engine => .ok decision.phase
          { gateway with engine := engine, metrics := gateway.metrics.merge decision.counted }
      | .error panic engine => .error panic { gateway with
          engine := engine, metrics := gateway.metrics.merge { requestsTotal := 1 } } := by
  unfold beginPhase
  simp only [hkey, count, onEngine, bind, EStateM.bind, modify, modifyGet, MonadStateOf.modifyGet,
    EStateM.modifyGet, get, getThe, MonadStateOf.get, EStateM.get]
  cases Engine.begin io ⟨key⟩ (fingerprintOf request gateway.fingerprintKey) nowMs
    gateway.engine with
  | error panic engine => simp [Metrics.merge]
  | ok decision engine =>
      cases decision <;> simp [Metrics.merge, Begin.counted, Begin.phase, pure, EStateM.pure,
        EStateM.bind, EStateM.modifyGet]

theorem beginPhase_keyed {key : String} (hkey : request.header "idempotency-key" = some key) :
    ∃ metrics, beginPhase io request nowMs gateway =
      match Engine.begin io ⟨key⟩ (fingerprintOf request gateway.fingerprintKey) nowMs
          gateway.engine with
      | .ok decision engine =>
          .ok decision.phase { gateway with engine := engine, metrics := metrics }
      | .error panic engine =>
          .error panic { gateway with engine := engine, metrics := metrics } := by
  rw [beginPhase_keyed_eq gateway io nowMs hkey]
  split
  next => exact ⟨_, rfl⟩
  next => exact ⟨_, rfl⟩

/-- A response below 500 to a keyed request is committed by one complete of the
engine, whose result does not matter. -/
theorem completePhase_commits_eq {token : RunToken} {response : Response}
    (hcommit : ticket.commit forwarded = some (token, response)) :
    completePhase io ticket forwarded nowMs gateway =
      match Engine.complete io token (toOutcome response) nowMs gateway.engine with
      | .ok _ engine => .ok (ticket.answer forwarded).1 { gateway with
          engine := engine, metrics := gateway.metrics.merge (ticket.answer forwarded).2 }
      | .error panic engine => .error panic { gateway with engine := engine } := by
  obtain ⟨hticket, hforwarded, hstatus⟩ := ForwardTicket.commit_eq_some hcommit
  unfold completePhase
  rw [hticket, hforwarded]
  simp only [if_neg hstatus, count, onEngine, bind, EStateM.bind, modify, modifyGet,
    MonadStateOf.modifyGet, EStateM.modifyGet]
  cases Engine.complete io token (toOutcome response) nowMs gateway.engine with
  | error panic engine => rfl
  | ok result engine =>
      simp [ForwardTicket.answer, hticket, hstatus, Metrics.merge, pure, EStateM.pure]

theorem completePhase_commits {token : RunToken} {response : Response}
    (hcommit : ticket.commit forwarded = some (token, response)) :
    ∃ metrics, completePhase io ticket forwarded nowMs gateway =
      match Engine.complete io token (toOutcome response) nowMs gateway.engine with
      | .ok _ engine => .ok (tag response "created")
          { gateway with engine := engine, metrics := metrics }
      | .error panic engine =>
          .error panic { gateway with engine := engine, metrics := metrics } := by
  obtain ⟨hticket, rfl, hstatus⟩ := ForwardTicket.commit_eq_some hcommit
  have hanswer : (ticket.answer (.ok response)).1 = tag response "created" := by
    simp [ForwardTicket.answer, hticket, hstatus]
  rw [completePhase_commits_eq gateway io nowMs hcommit, hanswer]
  split
  next => exact ⟨_, rfl⟩
  next => exact ⟨gateway.metrics, rfl⟩

/-- Any other response is passed on, or replaced by a bad gateway. -/
theorem completePhase_passes_eq (hcommit : ticket.commit forwarded = none) :
    completePhase io ticket forwarded nowMs gateway = .ok (ticket.answer forwarded).1
      { gateway with metrics := gateway.metrics.merge (ticket.answer forwarded).2 } := by
  unfold completePhase
  match hticket : ticket.token, forwarded with
  | some token, .ok response =>
      have hstatus := ForwardTicket.status_of_commit_none hticket hcommit
      simp [hstatus, count_bind, ForwardTicket.answer, hticket, Metrics.merge, pure, EStateM.pure]
  | some token, .error failure =>
      simp [count_bind, ForwardTicket.answer, Metrics.merge, pure, EStateM.pure]
  | none, .ok response =>
      simp [count_bind, ForwardTicket.answer, hticket, Metrics.merge, pure, EStateM.pure]
  | none, .error failure =>
      simp [count_bind, ForwardTicket.answer, Metrics.merge, pure, EStateM.pure]

theorem completePhase_passes (hcommit : ticket.commit forwarded = none) :
    ∃ response metrics, completePhase io ticket forwarded nowMs gateway =
        .ok response { gateway with metrics := metrics } ∧
      (forwarded = .ok response ∨ response = badGateway) := by
  refine ⟨_, _, completePhase_passes_eq gateway io nowMs hcommit, ?_⟩
  match hticket : ticket.token, forwarded with
  | some token, .ok response =>
      have hstatus := ForwardTicket.status_of_commit_none hticket hcommit
      exact Or.inl (by simp [ForwardTicket.answer, hticket, hstatus])
  | some token, .error failure => exact Or.inr rfl
  | none, .ok response => exact Or.inl (by simp [ForwardTicket.answer, hticket])
  | none, .error failure => exact Or.inr rfl

end Gateway

end Onced
