import Onced.Core.Abuse
import Onced.Gateway.Shard

/-! # The router

A router holds shards, each with an engine of its own, and routes a request to the
shard its idempotency key hashes to; requests without a key take turns. Abuse rules
are sharded as well, by the identity of the client. The hash is a function of the
string and nothing else is known about it.
-/

namespace Onced

open Foundation Abuse

/-! ## Operational endpoints and refusals -/

/-- Render as Prometheus text exposition format. -/
def Metrics.render (metrics : Metrics) : String :=
  let outcomes : List (String × UInt64) :=
    [("created", metrics.created), ("replayed", metrics.replayed),
      ("in_progress", metrics.inProgress), ("mismatch", metrics.mismatch),
      ("denied", metrics.denied), ("upstream_error", metrics.upstreamError),
      ("passthrough", metrics.passthrough)]
  "# HELP onced_requests_total Proxied requests handled.\n" ++
    "# TYPE onced_requests_total counter\n" ++
    "onced_requests_total " ++ toString metrics.requestsTotal ++ "\n" ++
    "# HELP onced_outcomes_total Responses by how they were produced.\n" ++
    "# TYPE onced_outcomes_total counter\n" ++
    String.join (outcomes.map fun (outcome, count) =>
      "onced_outcomes_total\x7boutcome=\"" ++ outcome ++ "\"\x7d " ++ toString count ++ "\n")

/-- The path portion of the request target, without any query string. -/
def pathOf (request : Request) : String :=
  String.ofList (request.target.toList.takeWhile (· ≠ '?'))

def healthOk : Response := ⟨200, [("Onced-Status", "healthy")], utf8 "ok"⟩

def metricsResponse (metrics : Metrics) : Response :=
  ⟨200, [("Content-Type", "text/plain; version=0.0.4")], utf8 metrics.render⟩

/-- The response to a request that an abuse rule denies. -/
def tooManyRequests (rule : String) (action : Abuse.Action) : Response :=
  let action := match action with
    | .challenge => "challenge"
    | .throttle => "throttle"
    | .block => "block"
  ⟨429, [("Onced-Status", "denied"), ("Onced-Rule", rule), ("Onced-Action", action)], []⟩

/-- Who a request counts against. -/
def Request.identity (request : Request) : String :=
  (request.header "x-forwarded-for").getD "anonymous"

/-! ## Routing -/

/-- Idempotency shards behind their locks, and the abuse rules. -/
structure Router (σ : Type) where
  shards : List (Shard σ)
  abuse : List RuleSet
  /-- Requests rejected by the abuse stage, which are counted in no shard. -/
  denied : UInt64
  /-- Rotating cursor for requests without a key. -/
  nextShard : UInt64

namespace Router

variable {σ : Type} [Store σ] (hash : String → UInt64)

/-- Without a shard or without rules there is nothing to route to. -/
def new (shards : List (Gateway σ)) (abuse : List RuleSet) : Except Panic (Router σ) :=
  if shards.isEmpty then .error "router needs at least one shard"
  else if abuse.isEmpty then .error "router needs at least one abuse shard"
  else .ok ⟨shards.map .fresh, abuse, 0, 0⟩

/-- Index of the idempotency shard that owns the key. -/
def shardForKey (router : Router σ) (key : String) : Nat :=
  (hash key).toNat % router.shards.length

/-- Index of the abuse rules that own the identity. -/
def abuseForIdentity (router : Router σ) (identity : String) : Nat :=
  (hash identity).toNat % router.abuse.length

/-- The shard a request goes to. -/
def routeShard (router : Router σ) (request : Request) : Nat × Router σ :=
  match request.header "idempotency-key" with
  | some key => (router.shardForKey hash key, router)
  | none => (router.nextShard.toNat % router.shards.length,
      { router with nextShard := router.nextShard + 1 })

/-- The counters of all shards, and the denials of the router itself. -/
def aggregateMetrics (router : Router σ) : Metrics :=
  let total : Metrics :=
    router.shards.foldl (fun total shard => total.merge shard.gateway.metrics) {}
  { total with denied := total.denied + router.denied }

/-- The endpoints that the router answers itself. -/
def operationalResponse (router : Router σ) (request : Request) : Option Response :=
  if pathOf request = "/healthz" then some healthOk
  else if pathOf request = "/metrics" then some (metricsResponse router.aggregateMetrics)
  else none

/-- The abuse stage, on the rules of the client's identity. -/
def denyIfAbusive (router : Router σ) (request : Request) (nowMs : UInt64) :
    Except Panic (Option Response × Router σ) :=
  let index := router.abuseForIdentity hash request.identity
  match router.abuse[index]? with
  | none => .error "index out of bounds"
  | some rules =>
      let (verdict, rules) := rules.evaluate request.identity nowMs
      let router := { router with abuse := router.abuse.set index rules }
      match verdict with
      | .deny rule action =>
          .ok (some (tooManyRequests rule action), { router with denied := router.denied + 1 })
      | .allow => .ok (none, router)

/-! ## Sections of concurrent requests

The stages before the first phase share no state with the shards. A request that
has passed them enters the first phase at some later moment, and the second one
after its backend call; a prune takes the lock of each shard in turn. -/

/-- One locked section of some request, or of the pruner. -/
inductive Event where
  | begin (io : Io) (request : Request) (nowMs : UInt64)
  /-- The request in this slot of the shard is back from the backend. -/
  | complete (io : Io) (index slot : Nat) (forwarded : Except String Response)
  | prune (io : Io) (index : Nat) (iteration : Iteration) (nowMs : UInt64)

def Event.io : Event → Io
  | .begin io _ _ => io
  | .complete io _ _ _ => io
  | .prune io _ _ _ => io

/-- The shard an event goes to, and the event there. -/
def enters (router : Router σ) : Event → Nat × ShardEvent × Router σ
  | .begin io request nowMs =>
      let (index, router) := router.routeShard hash request
      (index, .begin io request nowMs, router)
  | .complete io index slot forwarded => (index, .complete io slot forwarded, router)
  | .prune io index iteration nowMs => (index, .prune io iteration nowMs, router)

/-- What came of a section, and on which shard. -/
structure Entered where
  index : Nat
  handled : Handled

/-- Enter a section. There is no section on a shard that does not exist. -/
def step (router : Router σ) (event : Event) : Except Empty (Entered × Router σ) :=
  let (index, shardEvent, router) := router.enters hash event
  match router.shards[index]? with
  | none => .ok (⟨index, .skipped, none⟩, router)
  | some shard =>
      .ok (⟨index, (shard.handle shardEvent).1, shard.entry shardEvent⟩,
        { router with shards := router.shards.set index (shard.handle shardEvent).2 })

end Router

end Onced
