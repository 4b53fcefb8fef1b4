import Onced.Core.Discipline
import Onced.Gateway.Leases

/-! # Sharding is transparent

Requests that are handled one after the other cannot tell a router from a single
gateway. Engine state is split by key, abuse counters by client identity, counters
by shard, and none of the three interact: what a request comes to depends on the
record of its key, up to the fence, and on the tallies of its identity.
-/

namespace Onced

open Foundation Abuse

/-! ## Handling a request -/

/-- A backend, which may keep state: its response, or the failure to reach it. -/
abbrev Upstream (β : Type) := β → Request → Except String Response × β

/-- What a request comes to. -/
structure Served where
  response : Response
  /-- The request the backend was called with, if it was called. -/
  forwarded : Option Request
  deriving DecidableEq

variable {σ τ β : Type} [Store σ] [Store τ]

/-- The idempotency and passthrough stage, with the lock held across the backend call. -/
def Gateway.handleAfterAbuse (upstream : Upstream β) (request : Request) (nowMs : UInt64)
    (gateway : Gateway σ) (state : β) : Except Panic (Served × Gateway σ × β) :=
  match beginPhase .done request nowMs gateway with
  | .error panic _ => .error panic
  | .ok (.done response) gateway => .ok (⟨response, none⟩, gateway, state)
  | .ok (.forward ticket) gateway =>
      let (forwarded, state) := upstream state request
      match completePhase .done ticket forwarded nowMs gateway with
      | .error panic _ => .error panic
      | .ok response gateway => .ok (⟨response, some request⟩, gateway, state)

/-- A gateway on its own, which evaluates the abuse rules itself. -/
structure Solo (σ : Type) where
  gateway : Gateway σ
  rules : RuleSet

/-- Handle one request end to end: operational endpoints, abuse, then idempotency. -/
def Solo.handle (upstream : Upstream β) (request : Request) (nowMs : UInt64) (solo : Solo σ)
    (state : β) : Except Panic (Served × Solo σ × β) :=
  if pathOf request = "/healthz" then .ok (⟨healthOk, none⟩, solo, state)
  else if pathOf request = "/metrics" then
    .ok (⟨metricsResponse solo.gateway.metrics, none⟩, solo, state)
  else
    let (verdict, rules) := solo.rules.evaluate request.identity nowMs
    match verdict with
    | .deny rule action =>
        let metrics := solo.gateway.metrics
        .ok (⟨tooManyRequests rule action, none⟩,
          ⟨{ solo.gateway with metrics := { metrics with denied := metrics.denied + 1 } }, rules⟩,
          state)
    | .allow =>
        match solo.gateway.handleAfterAbuse upstream request nowMs state with
        | .error panic => .error panic
        | .ok (served, gateway, state) => .ok (served, ⟨gateway, rules⟩, state)

def Solo.pruneExpired (iteration : Iteration) (nowMs : UInt64) (solo : Solo σ) :
    Except Panic (Solo σ) :=
  match Gateway.pruneExpired .done iteration nowMs solo.gateway with
  | .error panic _ => .error panic
  | .ok _ gateway => .ok { solo with gateway := gateway }

namespace Router

/-- Run a section on a shard, under its lock. -/
def onShard {α : Type} (index : Nat) (body : EStateM Panic (Gateway σ) α) (router : Router σ) :
    Except Panic (α × Router σ) :=
  match router.shards[index]? with
  | none => .error "index out of bounds"
  | some shard =>
      match shard.lock body with
      | (.error panic, _) => .error panic
      | (.ok value, next) => .ok (value, { router with shards := router.shards.set index next })

/-- The two phases on one shard, with the backend called in between. -/
def handleOn (index : Nat) (upstream : Upstream β) (request : Request) (nowMs : UInt64)
    (router : Router σ) (state : β) : Except Panic (Served × Router σ × β) := do
  let (begun, router) ← router.onShard index (Gateway.beginPhase .done request nowMs)
  match begun with
  | .done response => return (⟨response, none⟩, router, state)
  | .forward ticket =>
      let (forwarded, state) := upstream state request
      let (response, router) ←
        router.onShard index (Gateway.completePhase .done ticket forwarded nowMs)
      return (⟨response, some request⟩, router, state)

/-- Handle one request end to end. -/
def handle (hash : String → UInt64) (upstream : Upstream β) (request : Request) (nowMs : UInt64)
    (router : Router σ) (state : β) : Except Panic (Served × Router σ × β) := do
  match router.operationalResponse request with
  | some response => return (⟨response, none⟩, router, state)
  | none =>
      let (denied, router) ← router.denyIfAbusive hash request nowMs
      match denied with
      | some response => return (⟨response, none⟩, router, state)
      | none =>
          let (index, router) := router.routeShard hash request
          router.handleOn index upstream request nowMs state

/-- The loop over the shards. -/
def pruneShards (iterations : Nat → Iteration) (nowMs : UInt64) :
    Nat → List (Shard σ) → Except Panic (List (Shard σ))
  | _, [] => .ok []
  | index, shard :: shards =>
      match shard.lock (Gateway.pruneExpired .done (iterations index) nowMs) with
      | (.error panic, _) => .error panic
      | (.ok _, next) => (pruneShards iterations nowMs (index + 1) shards).map (next :: ·)

/-- Reclaim expired keys and compact the store of every shard. -/
def pruneExpired (iterations : Nat → Iteration) (nowMs : UInt64) (router : Router σ) :
    Except Panic (Router σ) :=
  (pruneShards iterations nowMs 0 router.shards).map fun shards => { router with shards := shards }

end Router

/-! ## The turn of a request -/

/-- What a request comes to at a gateway: what is served, the backend afterwards,
what is added to the counters and the record of its key afterwards. -/
structure Turn (β : Type) where
  served : Served
  state : β
  counted : Metrics
  record : Option KeyState

section Turns

variable (upstream : Upstream β) (request : Request) (nowMs : UInt64) (state : β)

/-- A request that is forwarded with a ticket, and the record if it is not completed. -/
def Turn.forwarded (ticket : ForwardTicket) (fingerprint : RequestFingerprint)
    (pending : Option KeyState) : Turn β where
  served := ⟨(ticket.answer (upstream state request).1).1, some request⟩
  state := (upstream state request).2
  counted := ({ requestsTotal := 1 } : Metrics).merge (ticket.answer (upstream state request).1).2
  record :=
    match ticket.commit (upstream state request).1 with
    | some (_, response) => some (.completed fingerprint (toOutcome response) nowMs)
    | none => pending

/-- The turn of a request, given the record of its key. -/
def turn (leaseMs ttlMs : UInt64) (fence : Fence) (fingerprint : RequestFingerprint)
    (current : Option KeyState) : Turn β :=
  match request.header "idempotency-key" with
  | none => .forwarded upstream request nowMs state ⟨none⟩ fingerprint none
  | some key =>
      match Engine.action ttlMs fingerprint nowMs current with
      | .start => .forwarded upstream request nowMs state ⟨some ⟨⟨key⟩, fence⟩⟩ fingerprint
          (some (.inProgress fence fingerprint (saturatingAdd nowMs leaseMs)))
      | .replay outcome => ⟨⟨tag (fromOutcome outcome) "replayed", none⟩, state,
          (Begin.replay outcome).counted, current⟩
      | .inProgress => ⟨⟨taggedStatus 409 "in-progress", none⟩, state, Begin.inProgress.counted,
          current⟩
      | .mismatch => ⟨⟨taggedStatus 422 "mismatch", none⟩, state, Begin.mismatch.counted, current⟩

/-- Two turns that no one outside can tell apart. -/
structure Turn.Same (one other : Turn β) : Prop where
  served : one.served = other.served
  state : one.state = other.state
  counted : one.counted = other.counted
  record : one.record.map KeyState.unfenced = other.record.map KeyState.unfenced

/-- Fences do not show. -/
theorem turn_same (leaseMs ttlMs : UInt64) (fence otherFence : Fence)
    (fingerprint : RequestFingerprint) {current other : Option KeyState}
    (hcurrent : current.map KeyState.unfenced = other.map KeyState.unfenced) :
    (turn upstream request nowMs state leaseMs ttlMs fence fingerprint current).Same
      (turn upstream request nowMs state leaseMs ttlMs otherFence fingerprint other) := by
  have haction : Engine.action ttlMs fingerprint nowMs current =
      Engine.action ttlMs fingerprint nowMs other := by
    rw [← Engine.action_unfenced, hcurrent, Engine.action_unfenced]
  unfold turn
  cases request.header "idempotency-key" with
  | none => exact ⟨rfl, rfl, rfl, rfl⟩
  | some key =>
      simp only [haction]
      cases Engine.action ttlMs fingerprint nowMs other with
      | start =>
          -- a ticket is answered alike whatever its token is
          refine ⟨?_, rfl, ?_, ?_⟩
          · simp [Turn.forwarded, ForwardTicket.answer]
          · simp [Turn.forwarded, ForwardTicket.answer]
          · simp only [Turn.forwarded, ForwardTicket.commit]
            cases (upstream state request).1 with
            | error failure => rfl
            | ok response =>
                by_cases hstatus : response.status ≥ 500 <;> simp [hstatus, KeyState.unfenced]
      | replay outcome => exact ⟨rfl, rfl, rfl, hcurrent⟩
      | inProgress => exact ⟨rfl, rfl, rfl, hcurrent⟩
      | mismatch => exact ⟨rfl, rfl, rfl, hcurrent⟩

end Turns

theorem Metrics.merge_assoc (one two three : Metrics) :
    (one.merge two).merge three = one.merge (two.merge three) := by
  simp [merge, add_assoc]

theorem Metrics.merge_right_comm (one two three : Metrics) :
    (one.merge two).merge three = (one.merge three).merge two := by
  simp [merge, add_right_comm]

namespace Gateway

variable (upstream : Upstream β) (request : Request) (nowMs : UInt64) (state : β)

/-- The record of the request's key. -/
def record (gateway : Gateway σ) : Option KeyState :=
  (request.header "idempotency-key").bind fun key => Store.get gateway.engine.store ⟨key⟩

/-- The turn of a request at this gateway. -/
def turn (gateway : Gateway σ) : Turn β :=
  Onced.turn upstream request nowMs state gateway.engine.leaseMs gateway.engine.ttlMs
    ⟨gateway.engine.nextFence⟩ (fingerprintOf request gateway.fingerprintKey)
    (gateway.record request)

/-- What a turn leaves behind: one record and the counters have changed. -/
structure Took (gateway : Gateway σ) (turn : Turn β) (next : Gateway σ) : Prop where
  leaseMs : next.engine.leaseMs = gateway.engine.leaseMs
  ttlMs : next.engine.ttlMs = gateway.engine.ttlMs
  fingerprintKey : next.fingerprintKey = gateway.fingerprintKey
  metrics : next.metrics = gateway.metrics.merge turn.counted
  states : ∀ key, Store.get next.engine.store key =
    if request.header "idempotency-key" = some key.val then turn.record
    else Store.get gateway.engine.store key

variable {upstream request nowMs state}

theorem beginPhase_lawful [LawfulStore σ] (gateway : Gateway σ) {key : String}
    (hkey : request.header "idempotency-key" = some key) {decision : Begin}
    (hanswer : (gateway.engine.plan (.begin ⟨key⟩ (fingerprintOf request gateway.fingerprintKey)
      nowMs)).answer = .begun decision) :
    ∃ engine, beginPhase .done request nowMs gateway = .ok decision.phase
        { gateway with engine := engine, metrics := gateway.metrics.merge decision.counted } ∧
      engine.leaseMs = gateway.engine.leaseMs ∧ engine.ttlMs = gateway.engine.ttlMs ∧
      ∀ other, Store.get engine.store other = (gateway.engine.plan (.begin ⟨key⟩
        (fingerprintOf request gateway.fingerprintKey) nowMs)).effect other
          (Store.get gateway.engine.store other) := by
  obtain ⟨engine, hrun, hlease, httl, -, hstates⟩ := Engine.run_lawful
    (.begin ⟨key⟩ (fingerprintOf request gateway.fingerprintKey) nowMs) gateway.engine
  obtain ⟨returned, hbegin, hreturned⟩ := Engine.map_eq_ok hrun
  rw [hanswer] at hreturned
  cases hreturned
  refine ⟨engine, ?_, hlease, httl, hstates⟩
  rw [beginPhase_keyed_eq gateway .done nowMs hkey, hbegin]

/-- A request that is answered from its record. -/
theorem handleAfterAbuse_answers [LawfulStore σ] (gateway : Gateway σ) {key : String}
    (hkey : request.header "idempotency-key" = some key) (decision : Begin) {response : Response}
    (hplan : gateway.engine.plan (.begin ⟨key⟩ (fingerprintOf request gateway.fingerprintKey)
      nowMs) = ⟨none, gateway.engine.nextFence, .begun decision⟩)
    (hphase : decision.phase = .done response)
    (hturn : gateway.turn upstream request nowMs state =
      ⟨⟨response, none⟩, state, decision.counted, gateway.record request⟩) :
    ∃ next, gateway.handleAfterAbuse upstream request nowMs state =
        .ok ((gateway.turn upstream request nowMs state).served, next,
          (gateway.turn upstream request nowMs state).state) ∧
      gateway.Took request (gateway.turn upstream request nowMs state) next := by
  obtain ⟨engine, hbegin, hlease, httl, hstates⟩ :=
    gateway.beginPhase_lawful hkey (congrArg Plan.answer hplan)
  rw [hphase] at hbegin
  rw [hturn]
  refine ⟨{ gateway with engine := engine, metrics := gateway.metrics.merge decision.counted },
    by simp only [handleAfterAbuse, hbegin], hlease, httl, rfl, rfl, fun other => ?_⟩
  rw [hstates, hplan, Plan.effect_none]
  split
  next hother =>
    obtain rfl := Option.some.inj (hkey.symm.trans hother)
    simp [record, hkey]
  next => rfl

/-- The second phase of a request whose ticket is current, or carries no token. -/
theorem completePhase_lawful [LawfulStore σ] (gateway : Gateway σ) {ticket : ForwardTicket}
    {fingerprint : RequestFingerprint} {leaseExpiresAtMs : UInt64}
    (hcurrent : ∀ token, ticket.token = some token → Store.get gateway.engine.store token.key =
      some (.inProgress token.fence fingerprint leaseExpiresAtMs))
    (forwarded : Except String Response) :
    ∃ engine, completePhase .done ticket forwarded nowMs gateway = .ok (ticket.answer forwarded).1
        { gateway with
          engine := engine, metrics := gateway.metrics.merge (ticket.answer forwarded).2 } ∧
      engine.leaseMs = gateway.engine.leaseMs ∧ engine.ttlMs = gateway.engine.ttlMs ∧
      ∀ other, Store.get engine.store other =
        match ticket.commit forwarded with
        | some (token, response) =>
            if token.key = other then some (.completed fingerprint (toOutcome response) nowMs)
            else Store.get gateway.engine.store other
        | none => Store.get gateway.engine.store other := by
  cases hcommit : ticket.commit forwarded with
  | none =>
      exact ⟨gateway.engine, completePhase_passes_eq gateway .done nowMs hcommit, rfl, rfl,
        fun _ => rfl⟩
  | some commit =>
      obtain ⟨token, response⟩ := commit
      obtain ⟨hticket, -, -⟩ := ForwardTicket.commit_eq_some hcommit
      obtain ⟨engine, hrun, hlease, httl, -, hstates⟩ := Engine.run_lawful
        (.complete token (toOutcome response) nowMs) gateway.engine
      obtain ⟨returned, hcomplete, -⟩ := Engine.map_eq_ok hrun
      refine ⟨engine, ?_, hlease, httl, fun other => ?_⟩
      · rw [completePhase_commits_eq gateway .done nowMs hcommit, hcomplete]
      · rw [hstates, Engine.plan, EngineCall.plan_complete_holder (hcurrent token hticket)]
        rfl

theorem handleAfterAbuse_of_forward {gateway middle next : Gateway σ} {ticket : ForwardTicket}
    {response : Response}
    (hbegin : beginPhase .done request nowMs gateway = .ok (.forward ticket) middle)
    (hcomplete : completePhase .done ticket (upstream state request).1 nowMs middle =
      .ok response next) :
    gateway.handleAfterAbuse upstream request nowMs state =
      .ok (⟨response, some request⟩, next, (upstream state request).2) := by
  simp only [handleAfterAbuse, hbegin, hcomplete]

/-- A request that is forwarded, once the first phase has locked its key if it has one. -/
theorem handleAfterAbuse_forwards [LawfulStore σ] (gateway : Gateway σ) {ticket : ForwardTicket}
    {engine : Engine σ}
    (hbegin : beginPhase .done request nowMs gateway = .ok (.forward ticket)
      { gateway with engine := engine, metrics := gateway.metrics.merge { requestsTotal := 1 } })
    (hlease : engine.leaseMs = gateway.engine.leaseMs)
    (httl : engine.ttlMs = gateway.engine.ttlMs)
    (hticket : ticket.token.map (fun token => token.key.val) = request.header "idempotency-key")
    {fingerprint : RequestFingerprint} {leaseExpiresAtMs : UInt64}
    (hstates : ∀ key, Store.get engine.store key =
      if request.header "idempotency-key" = some key.val then
        ticket.token.map fun token => .inProgress token.fence fingerprint leaseExpiresAtMs
      else Store.get gateway.engine.store key) :
    ∃ next, gateway.handleAfterAbuse upstream request nowMs state =
        .ok (⟨(ticket.answer (upstream state request).1).1, some request⟩, next,
          (upstream state request).2) ∧
      gateway.Took request (.forwarded upstream request nowMs state ticket fingerprint
        (ticket.token.map fun token => .inProgress token.fence fingerprint leaseExpiresAtMs))
          next := by
  have hcurrent : ∀ token, ticket.token = some token → Store.get engine.store token.key =
      some (.inProgress token.fence fingerprint leaseExpiresAtMs) := by
    intro token htoken
    rw [hstates, ← hticket, htoken]
    simp
  obtain ⟨last, hcomplete, hlastLease, hlastTtl, hlast⟩ := @completePhase_lawful σ _ nowMs _
    { gateway with engine := engine, metrics := gateway.metrics.merge { requestsTotal := 1 } }
    ticket _ _ hcurrent (upstream state request).1
  refine ⟨_, handleAfterAbuse_of_forward hbegin hcomplete, hlastLease.trans hlease,
    hlastTtl.trans httl, rfl, ?_, fun key => ?_⟩
  · exact Metrics.merge_assoc _ _ _
  · rw [hlast]
    simp only [Turn.forwarded]
    cases hcommit : ticket.commit (upstream state request).1 with
    | none => exact hstates key
    | some commit =>
        obtain ⟨token, response⟩ := commit
        have htoken := (ForwardTicket.commit_eq_some hcommit).1
        rw [htoken] at hticket
        have hsame : token.key = key ↔ request.header "idempotency-key" = some key.val := by
          rw [← hticket]
          simp [IdempotencyKey.ext_iff]
        by_cases hkey : request.header "idempotency-key" = some key.val
        · simp only [if_pos (hsame.mpr hkey), if_pos hkey]
        · simp only [if_neg (fun hsome => hkey (hsame.mp hsome)), if_neg hkey]
          rw [hstates, if_neg hkey]

variable (upstream request nowMs state) in
/-- Over a lawful store every request takes its turn. -/
theorem handleAfterAbuse_turn [LawfulStore σ] (gateway : Gateway σ) :
    ∃ next, gateway.handleAfterAbuse upstream request nowMs state =
        .ok ((gateway.turn upstream request nowMs state).served, next,
          (gateway.turn upstream request nowMs state).state) ∧
      gateway.Took request (gateway.turn upstream request nowMs state) next := by
  cases hkey : request.header "idempotency-key" with
  | none =>
      have hturn : gateway.turn upstream request nowMs state = .forwarded upstream request nowMs
          state ⟨none⟩ (fingerprintOf request gateway.fingerprintKey) none := by
        simp only [turn, Onced.turn, hkey]
      have hstates : ∀ key : IdempotencyKey, Store.get gateway.engine.store key =
          if request.header "idempotency-key" = some key.val then none
          else Store.get gateway.engine.store key := by
        intro key
        simp [hkey]
      have hbegin := beginPhase_keyless_eq gateway .done nowMs hkey
      rw [hturn]
      exact @handleAfterAbuse_forwards _ _ _ _ _ _ _ _ gateway ⟨none⟩ _ hbegin rfl rfl hkey.symm _ 0
        hstates
  | some key =>
      have hrecord : gateway.record request = Store.get gateway.engine.store ⟨key⟩ := by
        simp [record, hkey]
      cases haction : Engine.action gateway.engine.ttlMs
          (fingerprintOf request gateway.fingerprintKey) nowMs
          (Store.get gateway.engine.store ⟨key⟩) with
      | start =>
          have hplan := @EngineCall.plan_begin_start gateway.engine.leaseMs _
            gateway.engine.nextFence _ _ _ _ haction
          obtain ⟨engine, hbegin, hlease, httl, hstates⟩ :=
            gateway.beginPhase_lawful hkey (congrArg Plan.answer hplan)
          have hturn : gateway.turn upstream request nowMs state = .forwarded upstream request nowMs
              state ⟨some ⟨⟨key⟩, ⟨gateway.engine.nextFence⟩⟩⟩
              (fingerprintOf request gateway.fingerprintKey)
              (some (.inProgress ⟨gateway.engine.nextFence⟩
                (fingerprintOf request gateway.fingerprintKey)
                (saturatingAdd nowMs gateway.engine.leaseMs))) := by
            simp only [turn, Onced.turn, hkey, hrecord, haction]
          rw [hturn]
          apply gateway.handleAfterAbuse_forwards hbegin hlease httl hkey.symm
          intro other
          rw [hstates, Engine.plan, hplan]
          simp [StoreCall.effect, hkey, IdempotencyKey.ext_iff]
      | replay outcome =>
          exact gateway.handleAfterAbuse_answers hkey (.replay outcome)
            (by simp only [Engine.plan, EngineCall.plan, haction]) rfl
            (by simp only [turn, Onced.turn, hkey, hrecord, haction])
      | inProgress =>
          exact gateway.handleAfterAbuse_answers hkey .inProgress
            (by simp only [Engine.plan, EngineCall.plan, haction]) rfl
            (by simp only [turn, Onced.turn, hkey, hrecord, haction])
      | mismatch =>
          exact gateway.handleAfterAbuse_answers hkey .mismatch
            (by simp only [Engine.plan, EngineCall.plan, haction]) rfl
            (by simp only [turn, Onced.turn, hkey, hrecord, haction])

end Gateway

namespace Gateway

/-- What a prune leaves behind: only records have gone. -/
structure Pruned (nowMs : UInt64) (gateway next : Gateway σ) : Prop where
  leaseMs : next.engine.leaseMs = gateway.engine.leaseMs
  ttlMs : next.engine.ttlMs = gateway.engine.ttlMs
  fingerprintKey : next.fingerprintKey = gateway.fingerprintKey
  metrics : next.metrics = gateway.metrics
  states : ∀ key, Store.get next.engine.store key =
    (Store.get gateway.engine.store key).filter (Engine.keeps gateway.engine.ttlMs nowMs key)

theorem pruneExpired_lawful [LawfulStore σ] (iteration : Iteration) (nowMs : UInt64)
    (gateway : Gateway σ) :
    ∃ next, pruneExpired .done iteration nowMs gateway = .ok () next ∧
      gateway.Pruned nowMs next := by
  obtain ⟨engine, hrun, hlease, httl, -, hstates⟩ :=
    Engine.run_lawful (.pruneExpired iteration nowMs) gateway.engine
  obtain ⟨⟨⟩, hprune, -⟩ := Engine.map_eq_ok hrun
  refine ⟨{ gateway with engine := engine }, ?_, hlease, httl, rfl, rfl, hstates⟩
  simp only [pruneExpired, onEngine, hprune]

end Gateway

/-! ## A router that mirrors a gateway -/

namespace Router

/-- The counters of the shards, added up. -/
def total (shards : List (Shard σ)) (start : Metrics) : Metrics :=
  shards.foldl (fun total shard => total.merge shard.gateway.metrics) start

omit [Store σ] in
theorem aggregateMetrics_eq (router : Router σ) :
    router.aggregateMetrics = (total router.shards {}).merge { denied := router.denied } := by
  simp [aggregateMetrics, total, Metrics.merge]

omit [Store σ] in
theorem total_merge (shards : List (Shard σ)) (start counted : Metrics) :
    total shards (start.merge counted) = (total shards start).merge counted := by
  induction shards generalizing start with
  | nil => rfl
  | cons shard shards ih =>
      calc total (shard :: shards) (start.merge counted)
          = total shards ((start.merge counted).merge shard.gateway.metrics) := rfl
        _ = total shards ((start.merge shard.gateway.metrics).merge counted) := by
            rw [Metrics.merge_right_comm]
        _ = (total (shard :: shards) start).merge counted := ih _

omit [Store σ] in
/-- What one shard counts, the router counts. -/
theorem total_set {shards : List (Shard σ)} {index : Nat} {shard next : Shard σ}
    (hshard : shards[index]? = some shard) {counted : Metrics}
    (hnext : next.gateway.metrics = shard.gateway.metrics.merge counted) (start : Metrics) :
    total (shards.set index next) start = (total shards start).merge counted := by
  induction shards generalizing index start with
  | nil => cases hshard
  | cons first shards ih =>
      cases index with
      | zero =>
          cases hshard
          calc total (next :: shards) start
              = total shards (start.merge next.gateway.metrics) := rfl
            _ = total shards ((start.merge shard.gateway.metrics).merge counted) := by
                rw [hnext, Metrics.merge_assoc]
            _ = (total (shard :: shards) start).merge counted := total_merge shards _ counted
      | succ index => exact ih hshard (start.merge first.gateway.metrics)

omit [Store σ] in
theorem total_fresh {shards : List (Shard σ)}
    (hfresh : ∀ shard ∈ shards, shard.gateway.metrics = {}) (start : Metrics) :
    total shards start = start := by
  induction shards generalizing start with
  | nil => rfl
  | cons shard shards ih =>
      have hfirst : start.merge shard.gateway.metrics = start := by
        rw [hfresh shard List.mem_cons_self]
        simp [Metrics.merge]
      calc total (shard :: shards) start = total shards (start.merge shard.gateway.metrics) := rfl
        _ = start := by
            rw [hfirst]
            exact ih (fun other hother => hfresh other (List.mem_cons_of_mem _ hother)) start

omit [Store σ] in
theorem total_of_forall₂ {related : Shard σ → Shard σ → Prop}
    (hmetrics : ∀ shard next, related shard next → next.gateway.metrics = shard.gateway.metrics)
    {shards nexts : List (Shard σ)} (hrelated : List.Forall₂ related shards nexts)
    (start : Metrics) : total nexts start = total shards start := by
  induction hrelated generalizing start with
  | nil => rfl
  | @cons shard next shards nexts hfirst _ ih =>
      calc total (next :: nexts) start = total nexts (start.merge next.gateway.metrics) := rfl
        _ = total shards (start.merge shard.gateway.metrics) := by rw [hmetrics _ _ hfirst, ih]
        _ = total (shard :: shards) start := rfl

theorem pruneShards_lawful [LawfulStore σ] (iterations : Nat → Iteration) (nowMs : UInt64)
    (index : Nat) (shards : List (Shard σ)) :
    ∃ nexts, pruneShards iterations nowMs index shards = .ok nexts ∧
      List.Forall₂ (fun shard next => shard.gateway.Pruned nowMs next.gateway) shards nexts := by
  induction shards generalizing index with
  | nil => exact ⟨[], rfl, .nil⟩
  | cons shard shards ih =>
      obtain ⟨gateway, hprune, hpruned⟩ :=
        shard.gateway.pruneExpired_lawful (iterations index) nowMs
      obtain ⟨nexts, hrest, hnexts⟩ := ih (index + 1)
      refine ⟨{ shard with gateway := gateway } :: nexts, ?_, .cons hpruned hnexts⟩
      simp only [pruneShards, Shard.lock, hprune, hrest]
      rfl

/-- No sequence of requests one after the other can tell the router from the single
gateway: the shard that owns a key has the same record of it up to the fence, the
counters add up, and the rules that own an identity know the same about it. -/
structure Mirrors (hash : String → UInt64) (identities : List String) (router : Router σ)
    (solo : Solo τ) : Prop where
  shards : 0 < router.shards.length
  abuse : 0 < router.abuse.length
  setup : ∀ shard ∈ router.shards,
    shard.gateway.engine.leaseMs = solo.gateway.engine.leaseMs ∧
      shard.gateway.engine.ttlMs = solo.gateway.engine.ttlMs ∧
      shard.gateway.fingerprintKey = solo.gateway.fingerprintKey
  records : ∀ key, (router.keyState hash key).map KeyState.unfenced =
    (Store.get solo.gateway.engine.store key).map KeyState.unfenced
  metrics : router.aggregateMetrics = solo.gateway.metrics
  tallies : ∀ identity rules, router.abuse[router.abuseForIdentity hash identity]? = some rules →
    rules.tallies identity = solo.rules.tallies identity
  tracks : ∀ rules ∈ router.abuse, rules.Tracks identities
  soloTracks : solo.rules.Tracks identities

namespace Mirrors

variable {hash : String → UInt64} {identities : List String} {router : Router σ} {solo : Solo τ}
  {upstream : Upstream β} {request : Request} {nowMs : UInt64} {state : β}

variable (upstream nowMs state) in
/-- A turn on the shard the request goes to mirrors the turn at the single gateway. -/
theorem turn (hmirrors : router.Mirrors hash identities solo) {index : Nat} {shard : Shard σ}
    (hshard : router.shards[index]? = some shard)
    (hindex : ∀ key, request.header "idempotency-key" = some key →
      router.shardForKey hash key = index) :
    (shard.gateway.turn upstream request nowMs state).Same
      (solo.gateway.turn upstream request nowMs state) := by
  obtain ⟨hlease, httl, hfingerprint⟩ := hmirrors.setup shard (List.mem_of_getElem? hshard)
  simp only [Gateway.turn, hlease, httl, hfingerprint]
  apply turn_same
  cases hkey : request.header "idempotency-key" with
  | none => simp [Gateway.record, hkey]
  | some key =>
      have hrecord : router.keyState hash ⟨key⟩ = shard.states ⟨key⟩ := by
        rw [keyState, hindex key hkey, hshard]
        rfl
      simpa [Gateway.record, hkey, hrecord] using hmirrors.records ⟨key⟩

/-- After the two turns the router still mirrors the gateway. -/
theorem took (hmirrors : router.Mirrors hash identities solo) {index : Nat} {shard after : Shard σ}
    (hshard : router.shards[index]? = some shard)
    (hindex : ∀ key, request.header "idempotency-key" = some key →
      router.shardForKey hash key = index)
    {turn soloTurn : Turn β} (hsame : turn.Same soloTurn) {alone : Gateway τ}
    (htook : shard.gateway.Took request turn after.gateway)
    (hsoloTook : solo.gateway.Took request soloTurn alone) {next : Router σ}
    (hshards : next.shards = router.shards.set index after) (habuse : next.abuse = router.abuse)
    (hdenied : next.denied = router.denied) :
    next.Mirrors hash identities { solo with gateway := alone } := by
  constructor
  case shards =>
    rw [hshards, List.length_set]
    exact hmirrors.shards
  case abuse =>
    rw [habuse]
    exact hmirrors.abuse
  case setup =>
    intro other hother
    rw [hsoloTook.leaseMs, hsoloTook.ttlMs, hsoloTook.fingerprintKey]
    rw [hshards] at hother
    rcases List.mem_or_eq_of_mem_set hother with hold | rfl
    · exact hmirrors.setup other hold
    · rw [htook.leaseMs, htook.ttlMs, htook.fingerprintKey]
      exact hmirrors.setup shard (List.mem_of_getElem? hshard)
  case records =>
    intro key
    rw [hsoloTook.states, keyState_set router hshard hshards]
    by_cases hkey : request.header "idempotency-key" = some key.val
    · rw [if_pos (hindex _ hkey), if_pos hkey, Shard.states, htook.states, if_pos hkey]
      exact hsame.record
    · rw [if_neg hkey, ← hmirrors.records key]
      split
      next howner =>
        rw [Shard.states, htook.states, if_neg hkey, keyState, howner, hshard]
        rfl
      next => rfl
  case metrics =>
    rw [hsoloTook.metrics, ← hmirrors.metrics, ← hsame.counted, aggregateMetrics_eq,
      aggregateMetrics_eq, hshards, hdenied, total_set hshard htook.metrics]
    exact Metrics.merge_right_comm _ _ _
  case tallies =>
    unfold abuseForIdentity
    rw [habuse]
    exact hmirrors.tallies
  case tracks =>
    rw [habuse]
    exact hmirrors.tracks
  case soloTracks => exact hmirrors.soloTracks

end Mirrors

omit [Store σ] in
theorem onShard_ok {α : Type} {router : Router σ} {index : Nat} {shard : Shard σ}
    (hshard : router.shards[index]? = some shard) {body : EStateM Panic (Gateway σ) α} {value : α}
    {gateway : Gateway σ} (hbody : body shard.gateway = .ok value gateway) :
    router.onShard index body = .ok (value, { router with
      shards := router.shards.set index { shard with gateway := gateway } }) := by
  simp only [onShard, hshard, Shard.lock, hbody]

omit [Store σ] in
theorem routeShard_rest (hash : String → UInt64) (router : Router σ) (request : Request) :
    ∃ cursor, (router.routeShard hash request).2 = { router with nextShard := cursor } := by
  unfold routeShard
  split
  next => exact ⟨router.nextShard, rfl⟩
  next => exact ⟨_, rfl⟩

/-- The two phases on a shard are those of its gateway. -/
theorem handleOn_ok {upstream : Upstream β} {request : Request} {nowMs : UInt64} {state last : β}
    {router : Router σ} {index : Nat} {shard : Shard σ}
    (hshard : router.shards[index]? = some shard)
    {served : Served} {gateway : Gateway σ}
    (hhandle : shard.gateway.handleAfterAbuse upstream request nowMs state =
      .ok (served, gateway, last)) :
    router.handleOn index upstream request nowMs state = .ok (served, { router with
      shards := router.shards.set index { shard with gateway := gateway } }, last) := by
  unfold Gateway.handleAfterAbuse at hhandle
  split at hhandle
  next => contradiction
  next response middle hbegin =>
    cases hhandle
    simp only [handleOn, onShard_ok hshard hbegin]
    rfl
  next ticket middle hbegin =>
    simp only at hhandle
    split at hhandle
    next => contradiction
    next response last hcomplete =>
      cases hhandle
      -- the second section finds the gateway that the first one left
      have hagain : (router.shards.set index { shard with gateway := middle })[index]? =
          some { shard with gateway := middle } :=
        List.getElem?_set_self (List.getElem?_eq_some_iff.mp hshard).1
      simp only [handleOn, onShard_ok hshard hbegin]
      simp only [bind, Except.bind]
      rw [onShard_ok hagain hcomplete, List.set_set]
      rfl

namespace Mirrors

variable {hash : String → UInt64} {identities : List String} {router : Router σ} {solo : Solo τ}
  {upstream : Upstream β} {request : Request} {nowMs : UInt64} {state : β}

variable (upstream request nowMs state) in
/-- Past the abuse stage, a request is served the same. -/
theorem handleOn [LawfulStore σ] [LawfulStore τ] (hmirrors : router.Mirrors hash identities solo) :
    ∃ served next alone last,
      (router.routeShard hash request).2.handleOn
        (router.routeShard hash request).1 upstream request
        nowMs state = .ok (served, next, last) ∧
      solo.gateway.handleAfterAbuse upstream request nowMs state = .ok (served, alone, last) ∧
      next.Mirrors hash identities { solo with gateway := alone } := by
  have hroute : (router.routeShard hash request).1 < router.shards.length := by
    unfold routeShard
    split
    next => exact Nat.mod_lt _ hmirrors.shards
    next => exact Nat.mod_lt _ hmirrors.shards
  obtain ⟨shard, hshard⟩ : ∃ shard, router.shards[(router.routeShard hash request).1]? =
    some shard :=
    ⟨_, List.getElem?_eq_getElem hroute⟩
  have hindex : ∀ key, request.header "idempotency-key" = some key →
      router.shardForKey hash key = (router.routeShard hash request).1 :=
    fun key hkey => (routeShard_keyed hash router hkey).symm
  have hsame := hmirrors.turn upstream nowMs state hshard hindex
  obtain ⟨after, hhandle, htook⟩ :=
    Gateway.handleAfterAbuse_turn upstream request nowMs state shard.gateway
  obtain ⟨alone, hsolo, hsoloTook⟩ :=
    Gateway.handleAfterAbuse_turn upstream request nowMs state solo.gateway
  obtain ⟨cursor, hcursor⟩ := routeShard_rest hash router request
  have hrouted : (router.routeShard hash request).2.shards[(router.routeShard hash request).1]? =
      some shard := by rwa [routeShard_shards]
  refine ⟨_, _, alone, _, handleOn_ok hrouted hhandle, ?_, ?_⟩
  · rw [hsame.served, hsame.state]
    exact hsolo
  · have hafter : shard.gateway.Took request _ { shard with gateway := after }.gateway := htook
    apply hmirrors.took hshard hindex hsame hafter hsoloTook
    · rw [hcursor]
    · rw [hcursor]
    · rw [hcursor]

variable (nowMs) in
/-- The abuse stage comes to the same verdict. -/
theorem deny (hmirrors : router.Mirrors hash identities solo)
    (hidentity : request.identity ∈ identities) :
    ∃ next, next.Mirrors hash identities
        ⟨solo.gateway, (solo.rules.evaluate request.identity nowMs).2⟩ ∧
      router.denyIfAbusive hash request nowMs =
        match (solo.rules.evaluate request.identity nowMs).1 with
        | .deny rule action =>
            .ok (some (tooManyRequests rule action), { next with denied := next.denied + 1 })
        | .allow => .ok (none, next) := by
  have hbound : router.abuseForIdentity hash request.identity < router.abuse.length :=
    Nat.mod_lt _ hmirrors.abuse
  obtain ⟨rules, hrules⟩ :
      ∃ rules, router.abuse[router.abuseForIdentity hash request.identity]? = some rules :=
    ⟨_, List.getElem?_eq_getElem hbound⟩
  have htracks := hmirrors.tracks rules (List.mem_of_getElem? hrules)
  have htallies := fun other =>
    RuleSet.evaluate_tallies (htracks.roomy request.identity) nowMs other
  have hsolo := fun other =>
    RuleSet.evaluate_tallies (hmirrors.soloTracks.roomy request.identity) nowMs other
  have hverdict : (rules.evaluate request.identity nowMs).1 =
      (solo.rules.evaluate request.identity nowMs).1 := by
    rw [(htallies request.identity).1, (hsolo request.identity).1,
      hmirrors.tallies request.identity rules hrules]
  refine ⟨{ router with
      abuse := router.abuse.set (router.abuseForIdentity hash request.identity)
        (rules.evaluate request.identity nowMs).2 },
    ⟨hmirrors.shards, ?_, hmirrors.setup, hmirrors.records, hmirrors.metrics, ?_, ?_,
      hmirrors.soloTracks.evaluate hidentity nowMs⟩, ?_⟩
  · rw [List.length_set]
    exact hmirrors.abuse
  · intro identity found hfound
    rw [(hsolo identity).2]
    have howner : ∀ changed : List RuleSet, changed.length = router.abuse.length →
        abuseForIdentity hash { router with abuse := changed } identity =
          router.abuseForIdentity hash identity := fun changed hlength => by
      rw [abuseForIdentity, abuseForIdentity, hlength]
    rw [howner _ List.length_set] at hfound
    by_cases hplace : router.abuseForIdentity hash request.identity =
        router.abuseForIdentity hash identity
    · rw [← hplace, List.getElem?_set_self hbound] at hfound
      obtain rfl := Option.some.inj hfound
      rw [(htallies identity).2, hmirrors.tallies request.identity rules hrules,
        hmirrors.tallies identity rules (hplace ▸ hrules)]
    · have hother : request.identity ≠ identity := by
        rintro rfl
        exact hplace rfl
      rw [List.getElem?_set_ne hplace] at hfound
      rw [if_neg hother]
      exact hmirrors.tallies identity found hfound
  · intro found hfound
    rcases List.mem_or_eq_of_mem_set hfound with hold | rfl
    · exact hmirrors.tracks found hold
    · exact htracks.evaluate hidentity nowMs
  · cases hsame : (solo.rules.evaluate request.identity nowMs).1 with
    | allow => simp only [denyIfAbusive, hrules, hverdict.trans hsame]
    | deny rule action => simp only [denyIfAbusive, hrules, hverdict.trans hsame]

/-- A denial is counted on both sides. -/
theorem denied (hmirrors : router.Mirrors hash identities solo) :
    ({ router with denied := router.denied + 1 } : Router σ).Mirrors hash identities
      ⟨{ solo.gateway with metrics :=
        { solo.gateway.metrics with denied := solo.gateway.metrics.denied + 1 } }, solo.rules⟩ := by
  refine ⟨hmirrors.shards, hmirrors.abuse, hmirrors.setup, hmirrors.records, ?_, hmirrors.tallies,
    hmirrors.tracks, hmirrors.soloTracks⟩
  rw [← hmirrors.metrics]
  simp [aggregateMetrics, add_assoc]

variable (upstream nowMs state) in
/-- A request is served the same by the router and by the gateway. -/
theorem handle [LawfulStore σ] [LawfulStore τ] (hmirrors : router.Mirrors hash identities solo)
    (hidentity : request.identity ∈ identities) :
    ∃ served next soloNext last,
      router.handle hash upstream request nowMs state = .ok (served, next, last) ∧
      solo.handle upstream request nowMs state = .ok (served, soloNext, last) ∧
      next.Mirrors hash identities soloNext := by
  by_cases hhealth : pathOf request = "/healthz"
  · refine ⟨⟨healthOk, none⟩, router, solo, state, ?_, ?_, hmirrors⟩
    · simp only [Router.handle, operationalResponse, if_pos hhealth]
      rfl
    · simp only [Solo.handle, if_pos hhealth]
  by_cases hmetrics : pathOf request = "/metrics"
  · refine ⟨⟨metricsResponse solo.gateway.metrics, none⟩, router, solo, state, ?_, ?_, hmirrors⟩
    · simp only [Router.handle, operationalResponse, if_neg hhealth, if_pos hmetrics,
        hmirrors.metrics]
      rfl
    · simp only [Solo.handle, if_neg hhealth, if_pos hmetrics]
  have hoperational : router.operationalResponse request = none := by
    simp only [operationalResponse, if_neg hhealth, if_neg hmetrics]
  obtain ⟨judged, hjudged, hdeny⟩ := hmirrors.deny nowMs hidentity
  cases hverdict : (solo.rules.evaluate request.identity nowMs).1 with
  | deny rule action =>
      rw [hverdict] at hdeny
      refine ⟨⟨tooManyRequests rule action, none⟩, _, _, state, ?_, ?_, hjudged.denied⟩
      · simp only [Router.handle, hoperational, hdeny]
        rfl
      · simp only [Solo.handle, if_neg hhealth, if_neg hmetrics, hverdict]
  | allow =>
      rw [hverdict] at hdeny
      obtain ⟨served, next, alone, last, hon, hsolo, hnext⟩ :=
        hjudged.handleOn upstream request nowMs state
      refine ⟨served, next, _, last, ?_, ?_, hnext⟩
      · simp only [Router.handle, hoperational, hdeny]
        exact hon
      · simp only [Solo.handle, if_neg hhealth, if_neg hmetrics, hverdict]
        rw [hsolo]

/-- A prune of all shards mirrors a prune of the single gateway. -/
theorem prune [LawfulStore σ] [LawfulStore τ] (hmirrors : router.Mirrors hash identities solo)
    (iterations : Nat → Iteration) (iteration : Iteration) (nowMs : UInt64) :
    ∃ next soloNext, router.pruneExpired iterations nowMs = .ok next ∧
      solo.pruneExpired iteration nowMs = .ok soloNext ∧
      next.Mirrors hash identities soloNext := by
  obtain ⟨shards, hprune, hpruned⟩ := pruneShards_lawful iterations nowMs 0 router.shards
  obtain ⟨alone, hsolo, hsoloPruned⟩ := solo.gateway.pruneExpired_lawful iteration nowMs
  have hlength := hpruned.length_eq
  refine ⟨{ router with shards := shards }, { solo with gateway := alone },
    by rw [Router.pruneExpired, hprune]; rfl, by simp only [Solo.pruneExpired, hsolo],
    ?_, hmirrors.abuse, ?_, ?_, ?_, hmirrors.tallies, hmirrors.tracks, hmirrors.soloTracks⟩
  · exact hlength ▸ hmirrors.shards
  · intro after hafter
    obtain ⟨shard, hshard, hone⟩ := exists_mem_of_forall₂ hpruned hafter
    rw [hone.leaseMs, hone.ttlMs, hone.fingerprintKey, hsoloPruned.leaseMs, hsoloPruned.ttlMs,
      hsoloPruned.fingerprintKey]
    exact hmirrors.setup shard hshard
  · intro key
    have hstates : keyState hash { router with shards := shards } key =
        (router.keyState hash key).filter (Engine.keeps solo.gateway.engine.ttlMs nowMs key) := by
      have howner : router.shardForKey hash key.val < router.shards.length :=
        Nat.mod_lt _ hmirrors.shards
      have hafter := (List.forall₂_iff_get.mp hpruned).2 _ howner (hlength ▸ howner)
      have hsame : shardForKey hash { router with shards := shards } key.val =
          router.shardForKey hash key.val := by
        simp only [shardForKey, hlength]
      have hkept := hafter.states key
      rw [(hmirrors.setup _ (List.get_mem _ _)).2.1] at hkept
      rw [keyState, keyState, hsame, List.getElem?_eq_getElem howner,
        List.getElem?_eq_getElem (hlength ▸ howner)]
      exact hkept
    rw [hstates, hsoloPruned.states, Engine.filter_keeps_unfenced, hmirrors.records key,
      Engine.filter_keeps_unfenced]
  · rw [hsoloPruned.metrics, ← hmirrors.metrics, aggregateMetrics_eq, aggregateMetrics_eq,
      total_of_forall₂ (fun _ _ hone => hone.metrics) hpruned]

end Mirrors

end Router

/-! ## Traffic, one request after the other -/

/-- A request that is handled to its end, or a prune. The shards and the single
gateway each iterate their own maps. -/
inductive Traffic where
  | request (sent : Request) (nowMs : UInt64)
  | prune (iterations : Nat → Iteration) (iteration : Iteration) (nowMs : UInt64)

/-- The client identity that a request counts against. -/
def Traffic.identity : Traffic → Option String
  | .request sent _ => some sent.identity
  | .prune .. => none

/-- The router as a machine that serves traffic, together with the backend. -/
def Router.serve (hash : String → UInt64) (upstream : Upstream β) (current : Router σ × β) :
    Traffic → Except Panic (Option Served × Router σ × β)
  | .request sent nowMs =>
      (current.1.handle hash upstream sent nowMs current.2).map fun (served, next) =>
        (some served, next)
  | .prune iterations _ nowMs =>
      (current.1.pruneExpired iterations nowMs).map fun router => (none, router, current.2)

/-- The single gateway as a machine that serves traffic, together with the backend. -/
def Solo.serve (upstream : Upstream β) (current : Solo τ × β) :
    Traffic → Except Panic (Option Served × Solo τ × β)
  | .request sent nowMs =>
      (current.1.handle upstream sent nowMs current.2).map fun (served, next) =>
        (some served, next)
  | .prune _ iteration nowMs =>
      (current.1.pruneExpired iteration nowMs).map fun solo => (none, solo, current.2)

/-- A router that mirrors a gateway serves the same, and calls the backend the same. -/
theorem Router.lockstep_mirrors [LawfulStore σ] [LawfulStore τ] (hash : String → UInt64)
    (upstream : Upstream β) (identities : List String) :
    Lockstep (Router.serve hash upstream : Router σ × β → Traffic → _)
      (Solo.serve upstream : Solo τ × β → Traffic → _)
      (fun current alone => current.1.Mirrors hash identities alone.1 ∧ current.2 = alone.2) Eq
      (fun _ event => ∀ identity, event.identity = some identity → identity ∈ identities) := by
  rintro ⟨router, state⟩ ⟨solo, _⟩ event ⟨hmirrors, rfl⟩ hidentity
  cases event with
  | request sent nowMs =>
      obtain ⟨served, next, soloNext, last, hhandle, hsolo, hnext⟩ :=
        hmirrors.handle upstream nowMs state (hidentity _ rfl)
      refine ⟨some served, (next, last), some served, (soloNext, last), ?_, ?_, rfl, hnext, rfl⟩
      · simp only [Router.serve, hhandle, Except.map]
      · simp only [Solo.serve, hsolo, Except.map]
  | prune iterations iteration nowMs =>
      obtain ⟨next, soloNext, hprune, hsolo, hnext⟩ := hmirrors.prune iterations iteration nowMs
      refine ⟨none, (next, state), none, (soloNext, state), ?_, ?_, rfl, hnext, rfl⟩
      · simp only [Router.serve, hprune, Except.map]
      · simp only [Solo.serve, hsolo, Except.map]

/-- Nothing is stored and nothing is counted yet. -/
structure Gateway.Fresh (gateway : Gateway σ) : Prop where
  states : ∀ key, Store.get gateway.engine.store key = none
  metrics : gateway.metrics = {}

/-- The same lease, time to live and fingerprint key. -/
structure Gateway.Configured (gateway : Gateway σ) (other : Gateway τ) : Prop where
  leaseMs : gateway.engine.leaseMs = other.engine.leaseMs
  ttlMs : gateway.engine.ttlMs = other.engine.ttlMs
  fingerprintKey : gateway.fingerprintKey = other.fingerprintKey

section Start

variable {gateways : List (Gateway σ)} {abuse : List RuleSet} {router : Router σ} {solo : Solo τ}

/-- A new router over fresh shards mirrors a fresh gateway. -/
theorem Router.mirrors_of_new (hash : String → UInt64)
    (hnew : Router.new gateways abuse = .ok router)
    (hgateways : ∀ gateway ∈ gateways, gateway.Fresh ∧ gateway.Configured solo.gateway)
    (hsolo : solo.gateway.Fresh)
    (hrules : ∀ rules ∈ abuse, ∀ identity, rules.tallies identity = solo.rules.tallies identity)
    (hcounters : ∀ rule ∈ solo.rules.rules, rule.limiter.counters = ∅) {identities : List String}
    (hcap : ∀ rule ∈ solo.rules.rules, identities.dedup.length < rule.limiter.maxKeys) :
    router.Mirrors hash identities solo := by
  have hsoloTracks : solo.rules.Tracks identities := by
    refine ⟨fun identity _ tally htally => ?_, hcap⟩
    obtain ⟨rule, hrule, rfl⟩ := List.mem_map.mp htally
    simp [Rule.tally, hcounters rule hrule]
  obtain ⟨hshards, habuse, rfl⟩ := Router.new_eq_ok hnew
  constructor
  case shards => simpa using List.length_pos_iff.mpr hshards
  case abuse => exact List.length_pos_iff.mpr habuse
  case setup =>
    intro shard hshard
    obtain ⟨gateway, hgateway, rfl⟩ := List.mem_map.mp hshard
    obtain ⟨-, hconfigured⟩ := hgateways gateway hgateway
    exact ⟨hconfigured.leaseMs, hconfigured.ttlMs, hconfigured.fingerprintKey⟩
  case records =>
    intro key
    rw [keyState_of_new hash hnew fun gateway hgateway => (hgateways gateway hgateway).1.states key,
      hsolo.states]
  case metrics =>
    rw [hsolo.metrics, aggregateMetrics_eq]
    have hzero : total (gateways.map Shard.fresh) {} = {} := by
      apply total_fresh
      intro shard hshard
      obtain ⟨gateway, hgateway, rfl⟩ := List.mem_map.mp hshard
      exact (hgateways gateway hgateway).1.metrics
    rw [hzero]
    rfl
  case tallies =>
    intro identity rules hfound
    exact hrules rules (List.mem_of_getElem? hfound) identity
  case tracks =>
    intro rules hfound
    refine ⟨fun identity hidentity => ?_, fun rule hrule => ?_⟩
    · rw [hrules rules hfound identity]
      exact hsoloTracks.tracked identity hidentity
    · have hcaps : rules.caps = solo.rules.caps := by
        rw [RuleSet.caps_eq _ "", RuleSet.caps_eq _ "", hrules rules hfound]
      have hmem : rule.limiter.maxKeys ∈ solo.rules.caps := hcaps ▸ List.mem_map_of_mem hrule
      obtain ⟨twin, htwin, hcap⟩ := List.mem_map.mp hmem
      rw [← hcap]
      exact hsoloTracks.fits twin htwin
  case soloTracks => exact hsoloTracks

/-- Sharding is transparent: requests that are handled one after the other, with
prunes anywhere, are served the same by a router as by a single gateway with the same
rules and configuration, and call the backend with the same requests. -/
theorem sharding_transparent [LawfulStore σ] [LawfulStore τ] (hash : String → UInt64)
    (upstream : Upstream β) (hnew : Router.new gateways abuse = .ok router)
    (hgateways : ∀ gateway ∈ gateways, gateway.Fresh ∧ gateway.Configured solo.gateway)
    (hsolo : solo.gateway.Fresh)
    (hrules : ∀ rules ∈ abuse, ∀ identity, rules.tallies identity = solo.rules.tallies identity)
    (hcounters : ∀ rule ∈ solo.rules.rules, rule.limiter.counters = ∅) (traffic : List Traffic)
    (hcap : ∀ rule ∈ solo.rules.rules,
      (traffic.filterMap Traffic.identity).dedup.length < rule.limiter.maxKeys) (state : β) :
    ∃ served last soloLast stateLast,
      runSteps (Router.serve hash upstream) (router, state) traffic =
        .ok (served, last, stateLast) ∧
      runSteps (Solo.serve upstream) (solo, state) traffic =
        .ok (served, soloLast, stateLast) := by
  have hmirrors := Router.mirrors_of_new hash hnew hgateways hsolo hrules hcounters hcap
  have halong : Along (Solo.serve upstream) (fun _ event => ∀ identity, event.identity =
      some identity → identity ∈ traffic.filterMap Traffic.identity) (solo, state) traffic :=
    along_of_forall (fun event hevent _ identity hidentity =>
      List.mem_filterMap.mpr ⟨event, hevent, hidentity⟩) _
  have hstart : (router, state).1.Mirrors hash _ (solo, state).1 ∧ (router, state).2 =
      (solo, state).2 :=
    ⟨hmirrors, rfl⟩
  obtain ⟨served, ⟨last, stateLast⟩, soloServed, ⟨soloLast, soloStateLast⟩, hrun, hsoloRun, hagree,
    hlast⟩ := (Router.lockstep_mirrors hash upstream _).run hstart halong
  obtain rfl := List.forall₂_eq_eq_eq ▸ hagree
  obtain rfl : stateLast = soloStateLast := hlast.2
  exact ⟨served, last, soloLast, stateLast, hrun, hsoloRun⟩

end Start

/-! ## Errands at several desks -/

/-- At most five requests of a client in a second. -/
def burst : RuleSet := RuleSet.new.rule "burst" 1000 5 .block id RuleSet.second_ne_zero

/-- A backend that counts its calls. -/
def counting : Upstream Nat := fun calls _ => (.ok ⟨200, [], []⟩, calls + 1)

def errands : List Traffic :=
  [.request charge 0, .request charge 5, .prune (fun _ => .listed) .listed 6,
    .request ⟨"GET", "/metrics", [], []⟩ 7]

theorem sharding_transparent_errands :
    ∃ router served last soloLast calls, Router.new (Router.desks 3) [burst, burst] = .ok router ∧
      runSteps (Router.serve (fun _ => 7) counting) (router, 0) errands =
        .ok (served, last, calls) ∧
      runSteps (Solo.serve counting) (⟨.new (.withTtl MemoryStore.new 10 100), burst⟩, 0) errands =
        .ok (served, soloLast, calls) := by
  have hnew : Router.new (Router.desks 3) [burst, burst] =
      .ok ⟨(Router.desks 3).map .fresh, [burst, burst], 0, 0⟩ := rfl
  have hfresh : (Gateway.new (.withTtl MemoryStore.new 10 100)).Fresh :=
    ⟨fun key => by simp [Gateway.new, Engine.withTtl, MemoryStore.new], rfl⟩
  have hlength : (errands.filterMap Traffic.identity).dedup.length ≤ 4 :=
    (List.dedup_sublist _).length_le.trans (List.length_filterMap_le _ _)
  obtain ⟨served, last, soloLast, calls, hrun, hsolo⟩ := sharding_transparent (fun _ => 7) counting
    hnew (fun gateway hgateway => by
      obtain ⟨-, rfl⟩ := List.mem_replicate.mp hgateway
      exact ⟨hfresh, rfl, rfl, rfl⟩) (show Gateway.Fresh (Solo.gateway ⟨_, burst⟩) from hfresh)
    (by simp) (by simp [burst, RuleSet.rule, RuleSet.new, SlidingWindowLimiter.new,
      SlidingWindowLimiter.withCapacity]) errands
    (by
      intro rule hrule
      obtain rfl := List.mem_singleton.mp hrule
      exact hlength.trans_lt (by decide)) 0
  exact ⟨_, served, last, soloLast, calls, hnew, hrun, hsolo⟩

end Onced
