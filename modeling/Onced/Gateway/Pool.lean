import Onced.Core.Rules
import Onced.Gateway.Sharding

/-! # Requests side by side

Every transport serves its requests side by side. A request is judged by the abuse stage,
routed, decided in a locked section of its shard, sent to the backend with no lock held,
and finished in another locked section; a scrape takes the locks of the shards in turn.
Sections of different requests, and those of the pruner, come in any order, and only the
sections of one request come one after the other. A panic ends the process.
-/

namespace Onced

open Foundation Abuse

/-! ## Stages and sections -/

/-- How far a request has come. -/
inductive Stage where
  | received
  /-- The counters of the shards before this one have been added up. -/
  | scraping (total : Metrics) (index : Nat)
  /-- The abuse stage has let the request pass. -/
  | admitted
  | routed (index : Nat)
  /-- The backend is called, and no lock is held. -/
  | forwarding (index : Nat) (ticket : ForwardTicket)
  | answered (response : Response) (called : Bool)
  deriving DecidableEq

/-- The request is answered, or waits for the backend. -/
def Stage.Settled : Stage → Prop
  | .forwarding .. => True
  | .answered .. => True
  | _ => False

/-- There is no section for a request at this stage: one that is answered or waits has none of
its own, and one that does not wait has none with an answer. -/
def Stage.Rests : Option (Except String Response) → Stage → Prop
  | none, stage => stage.Settled
  | some _, stage => ∀ index ticket, stage ≠ .forwarding index ticket

/-- A request under way, with the time that was read when it came in. -/
structure Job where
  request : Request
  nowMs : UInt64
  stage : Stage
  deriving DecidableEq

/-- Where the first phase on a shard leads. -/
def BeginPhase.leads (index : Nat) : BeginPhase → Stage
  | .done response => .answered response false
  | .forward ticket => .forwarding index ticket

namespace Job

variable {σ : Type} [Store σ]

/-- The next section of a request that is neither waiting for the backend nor answered. -/
def proceed (hash : String → UInt64) (job : Job) (router : Router σ) :
    Except Panic (Stage × Router σ) :=
  match job.stage with
  | .received =>
      if pathOf job.request = "/healthz" then .ok (.answered healthOk false, router)
      else if pathOf job.request = "/metrics" then .ok (.scraping {} 0, router)
      else (router.denyIfAbusive hash job.request job.nowMs).map fun (denied, router) =>
        (denied.elim .admitted fun response => .answered response false, router)
  | .scraping total index =>
      match router.shards[index]? with
      | some shard => .ok (.scraping (total.merge shard.gateway.metrics) (index + 1), router)
      | none =>
          let total := { total with denied := total.denied + router.denied }
          .ok (.answered (metricsResponse total) false, router)
  | .admitted =>
      let (index, router) := router.routeShard hash job.request
      .ok (.routed index, router)
  | .routed index =>
      (router.onShard index (Gateway.beginPhase .done job.request job.nowMs)).map
        fun (begun, router) => (begun.leads index, router)
  | .forwarding index ticket => .ok (.forwarding index ticket, router)
  | .answered response called => .ok (.answered response called, router)

/-- The last section of a request that is waiting for the backend. -/
def complete (forwarded : Except String Response) (job : Job) (router : Router σ) :
    Except Panic (Stage × Router σ) :=
  match job.stage with
  | .forwarding index ticket =>
      (router.onShard index (Gateway.completePhase .done ticket forwarded job.nowMs)).map
        fun (response, router) => (.answered response true, router)
  | stage => .ok (stage, router)

end Job

/-! ## The pool -/

/-- A router, and the requests that came in so far, each under its number. -/
structure Pool (σ : Type) where
  router : Router σ
  jobs : List Job

/-- What happens next. -/
inductive Pool.Event where
  | arrive (request : Request) (nowMs : UInt64)
  /-- The next section of a request. -/
  | proceed (id : Nat)
  /-- The backend's answer to a request, or the failure to get one. -/
  | returned (id : Nat) (forwarded : Except String Response)
  /-- The pruner's section on a shard. -/
  | prune (index : Nat) (iteration : Iteration) (nowMs : UInt64)

/-- What the transport hears. -/
inductive Notice where
  | accepted (id : Nat)
  /-- The backend is to be called with the request. -/
  | called (id : Nat) (request : Request)
  | answered (id : Nat) (response : Response)
  deriving DecidableEq

/-- What the transport hears when a request changes its stage. -/
def Job.notice (id : Nat) (job : Job) (after : Stage) : Option Notice :=
  match job.stage, after with
  | .answered .., _ => none
  | .forwarding .., .forwarding .. => none
  | _, .forwarding .. => some (.called id job.request)
  | _, .answered response _ => some (.answered id response)
  | _, _ => none

namespace Pool

variable {σ : Type} [Store σ]

/-- Run a section of a request. There is none of a request that has not come in. -/
def run (id : Nat) (body : Job → Router σ → Except Panic (Stage × Router σ)) (pool : Pool σ) :
    Except Panic (Option Notice × Pool σ) :=
  match pool.jobs[id]? with
  | none => .ok (none, pool)
  | some job => (body job pool.router).map fun (after, router) =>
      (job.notice id after, ⟨router, pool.jobs.set id { job with stage := after }⟩)

def step (hash : String → UInt64) (pool : Pool σ) :
    Pool.Event → Except Panic (Option Notice × Pool σ)
  | .arrive request nowMs => .ok (some (.accepted pool.jobs.length),
      { pool with jobs := pool.jobs ++ [⟨request, nowMs, .received⟩] })
  | .proceed id => pool.run id (Job.proceed hash)
  | .returned id forwarded => pool.run id (Job.complete forwarded)
  | .prune index iteration nowMs =>
      if index < pool.router.shards.length then
        (pool.router.onShard index (Gateway.pruneExpired .done iteration nowMs)).map
          fun (_, router) => (none, { pool with router := router })
      else .ok (none, pool)

end Pool

/-! ## What a section does -/

/-- The plan of a call, or of no call. -/
def Engine.planOf {σ : Type} [Store σ] (engine : Engine σ) : Option EngineCall → Plan
  | none => ⟨none, engine.nextFence, .done⟩
  | some call => engine.plan call

/-- A section that comes to this engine call, or to none. -/
structure Gateway.Carries {σ : Type} [Store σ] (gateway : Gateway σ) (call : Option EngineCall)
    (next : Gateway σ) : Prop where
  leaseMs : next.engine.leaseMs = gateway.engine.leaseMs
  ttlMs : next.engine.ttlMs = gateway.engine.ttlMs
  fingerprintKey : next.fingerprintKey = gateway.fingerprintKey
  nextFence : next.engine.nextFence = (gateway.engine.planOf call).nextFence
  states : ∀ key, Store.get next.engine.store key =
    (gateway.engine.planOf call).effect key (Store.get gateway.engine.store key)

/-- The request is for the backend, and not for the router itself. -/
def Request.Proxied (request : Request) : Prop :=
  pathOf request ≠ "/healthz" ∧ pathOf request ≠ "/metrics"

namespace Router

variable {σ : Type} [Store σ]

/-- The names of the rules of the abuse stage. -/
def ruleNames (router : Router σ) : List (List String) := router.abuse.map RuleSet.names

/-- The shard exists, and owns the key of the request if it has one. -/
def Routes (hash : String → UInt64) (router : Router σ) (request : Request) (index : Nat) : Prop :=
  index < router.shards.length ∧
    ∀ key, request.header "idempotency-key" = some key → router.shardForKey hash key = index

/-- A section that comes to this engine call on one shard, or to none. -/
structure Carries (router : Router σ) (index : Nat) (call : Option EngineCall)
    (next : Router σ) : Prop where
  ruleNames : next.ruleNames = router.ruleNames
  length : next.shards.length = router.shards.length
  shards : ∀ place (shard : Shard σ), router.shards[place]? = some shard →
    ∃ after : Shard σ, next.shards[place]? = some after ∧
      shard.gateway.Carries (if place = index then call else none) after.gateway

end Router

namespace Job

variable {σ : Type} [Store σ] (hash : String → UInt64) (router : Router σ)

/-- What happens to a request aside from the shards' engines. -/
inductive Aside (back : Option (Except String Response)) (job : Job) : Stage → Prop where
  | stays (hrests : job.stage.Rests back) : Aside back job job.stage
  | health (hstage : job.stage = .received) (hpath : pathOf job.request = "/healthz") :
      Aside back job (.answered healthOk false)
  | scrapes (hstage : job.stage = .received) (hpath : pathOf job.request = "/metrics") :
      Aside back job (.scraping {} 0)
  | adds {total : Metrics} {index : Nat} (more : Metrics)
      (hstage : job.stage = .scraping total index) (hindex : index < router.shards.length) :
      Aside back job (.scraping (total.merge more) (index + 1))
  | scraped {total : Metrics} {index : Nat} (metrics : Metrics)
      (hstage : job.stage = .scraping total index) :
      Aside back job (.answered (metricsResponse metrics) false)
  | denies (rule : String) (action : Abuse.Action) (hstage : job.stage = .received)
      (hrule : rule ∈ router.ruleNames.flatten) :
      Aside back job (.answered (tooManyRequests rule action) false)
  | admits (hstage : job.stage = .received) (hproxied : job.request.Proxied) :
      Aside back job .admitted
  | routes {index : Nat} (hstage : job.stage = .admitted)
      (hroutes : router.Routes hash job.request index) : Aside back job (.routed index)

/-- What a section of a request does, given what is back from the backend: the stage it leads
to, and the engine call it comes to on which shard. -/
inductive Section (back : Option (Except String Response)) (job : Job) :
    Stage → Nat → Option EngineCall → Prop where
  | aside {after : Stage} (index : Nat) (haside : job.Aside hash router back after) :
      Section back job after index none
  | passes {index : Nat} (hstage : job.stage = .routed index)
      (hkey : job.request.header "idempotency-key" = none) :
      Section back job (.forwarding index ⟨none⟩) index none
  | decides {index : Nat} {shard : Shard σ} {key : String} {decision : Begin}
      (hstage : job.stage = .routed index) (hshard : router.shards[index]? = some shard)
      (hkey : job.request.header "idempotency-key" = some key)
      (hanswer : (shard.gateway.engine.plan (.begin ⟨key⟩
        (fingerprintOf job.request shard.gateway.fingerprintKey) job.nowMs)).answer =
          .begun decision) :
      Section back job (decision.phase.leads index) index
        (some (.begin ⟨key⟩ (fingerprintOf job.request shard.gateway.fingerprintKey) job.nowMs))
  | finishes {index : Nat} {ticket : ForwardTicket} {forwarded : Except String Response}
      (hstage : job.stage = .forwarding index ticket) (hback : back = some forwarded) :
      Section back job (.answered (ticket.answer forwarded).1 true) index
        ((ticket.commit forwarded).map fun (token, response) =>
          .complete token (toOutcome response) job.nowMs)

end Job

/-! ## Sections on a lawful store -/

namespace Gateway

variable {σ : Type} [Store σ] {request : Request} {nowMs : UInt64}

theorem carries_none (gateway : Gateway σ) (metrics : Metrics) :
    gateway.Carries none { gateway with metrics := metrics } :=
  ⟨rfl, rfl, rfl, rfl, fun _ => rfl⟩

variable [LawfulStore σ]

theorem carries_of_run (gateway : Gateway σ) (call : EngineCall) :
    ∃ engine, call.run .done gateway.engine = .ok (gateway.engine.plan call).answer engine ∧
      ∀ metrics, gateway.Carries (some call)
        { gateway with engine := engine, metrics := metrics } := by
  obtain ⟨engine, hrun, hlease, httl, hfence, hstates⟩ := Engine.run_lawful call gateway.engine
  exact ⟨engine, hrun, fun _ => ⟨hlease, httl, rfl, hfence, hstates⟩⟩

theorem beginPhase_carries (gateway : Gateway σ) {key : String}
    (hkey : request.header "idempotency-key" = some key) {decision : Begin}
    (hanswer : (gateway.engine.plan (.begin ⟨key⟩ (fingerprintOf request gateway.fingerprintKey)
      nowMs)).answer = .begun decision) :
    ∃ next, beginPhase .done request nowMs gateway = .ok decision.phase next ∧
      gateway.Carries (some (.begin ⟨key⟩ (fingerprintOf request gateway.fingerprintKey) nowMs))
        next := by
  obtain ⟨engine, hrun, hcarries⟩ := gateway.carries_of_run
    (.begin ⟨key⟩ (fingerprintOf request gateway.fingerprintKey) nowMs)
  obtain ⟨returned, hbegin, hreturned⟩ := Engine.map_eq_ok hrun
  rw [hanswer] at hreturned
  cases hreturned
  refine ⟨_, ?_, hcarries (gateway.metrics.merge decision.counted)⟩
  rw [beginPhase_keyed_eq gateway .done nowMs hkey, hbegin]

theorem completePhase_carries (gateway : Gateway σ) (ticket : ForwardTicket)
    (forwarded : Except String Response) (nowMs : UInt64) :
    ∃ next, completePhase .done ticket forwarded nowMs gateway =
        .ok (ticket.answer forwarded).1 next ∧
      gateway.Carries ((ticket.commit forwarded).map fun (token, response) =>
        .complete token (toOutcome response) nowMs) next := by
  cases hcommit : ticket.commit forwarded with
  | none =>
      exact ⟨_, completePhase_passes_eq gateway .done nowMs hcommit, gateway.carries_none _⟩
  | some commit =>
      obtain ⟨token, response⟩ := commit
      obtain ⟨engine, hrun, hcarries⟩ := gateway.carries_of_run
        (.complete token (toOutcome response) nowMs)
      obtain ⟨returned, hcomplete, -⟩ := Engine.map_eq_ok hrun
      refine ⟨_, ?_, hcarries (gateway.metrics.merge (ticket.answer forwarded).2)⟩
      rw [completePhase_commits_eq gateway .done nowMs hcommit, hcomplete]

theorem pruneExpired_carries (gateway : Gateway σ) (iteration : Iteration) (nowMs : UInt64) :
    ∃ next, pruneExpired .done iteration nowMs gateway = .ok () next ∧
      gateway.Carries (some (.pruneExpired iteration nowMs)) next := by
  obtain ⟨engine, hrun, hcarries⟩ := gateway.carries_of_run (.pruneExpired iteration nowMs)
  obtain ⟨⟨⟩, hprune, -⟩ := Engine.map_eq_ok hrun
  refine ⟨_, ?_, hcarries gateway.metrics⟩
  simp only [pruneExpired, onEngine, hprune]

/-- What the engine answers a begin is a decision. -/
theorem plan_begins (gateway : Gateway σ) (key : IdempotencyKey)
    (fingerprint : RequestFingerprint) (nowMs : UInt64) :
    ∃ decision, (gateway.engine.plan (.begin key fingerprint nowMs)).answer = .begun decision := by
  obtain ⟨engine, hrun, -⟩ := gateway.carries_of_run (.begin key fingerprint nowMs)
  obtain ⟨decision, -, hdecision⟩ := Engine.map_eq_ok hrun
  exact ⟨decision, hdecision.symm⟩

end Gateway

namespace Router

variable {σ : Type} [Store σ] {router next : Router σ}

theorem carries_of_shards (index : Nat) (hshards : next.shards = router.shards)
    (hnames : next.ruleNames = router.ruleNames) : router.Carries index none next := by
  refine ⟨hnames, by rw [hshards], ?_⟩
  intro place shard hshard
  rw [hshards, ite_self]
  exact ⟨shard, hshard, shard.gateway.carries_none _⟩

/-- A section that is run on a shard. -/
theorem onShard_carries {α : Type} {index : Nat} {shard : Shard σ} {call : Option EngineCall}
    {body : EStateM Panic (Gateway σ) α} {value : α} {gateway : Gateway σ}
    (hshard : router.shards[index]? = some shard) (hbody : body shard.gateway = .ok value gateway)
    (hcarries : shard.gateway.Carries call gateway) :
    ∃ next, router.onShard index body = .ok (value, next) ∧ router.Carries index call next := by
  refine ⟨_, onShard_ok hshard hbody, rfl, List.length_set, ?_⟩
  intro place other hother
  by_cases hplace : place = index
  · subst hplace
    cases hshard.symm.trans hother
    rw [if_pos rfl, List.getElem?_set_self (List.getElem?_eq_some_iff.mp hshard).1]
    exact ⟨_, rfl, hcarries⟩
  · rw [if_neg hplace, List.getElem?_set_ne (Ne.symm hplace)]
    exact ⟨other, hother, other.gateway.carries_none _⟩

/-- The shard as it was before. -/
theorem Carries.before {index : Nat} {call : Option EngineCall}
    (hcarries : router.Carries index call next) {place : Nat} {after : Shard σ}
    (hafter : next.shards[place]? = some after) :
    ∃ shard, router.shards[place]? = some shard ∧
      shard.gateway.Carries (if place = index then call else none) after.gateway := by
  have hplace : place < router.shards.length := by
    rw [← hcarries.length]
    exact (List.getElem?_eq_some_iff.mp hafter).1
  obtain ⟨shard, hshard⟩ : ∃ shard, router.shards[place]? = some shard :=
    ⟨_, List.getElem?_eq_getElem hplace⟩
  obtain ⟨other, hother, hcarried⟩ := hcarries.shards place shard hshard
  cases hafter.symm.trans hother
  exact ⟨shard, hshard, hcarried⟩

omit [Store σ] in
theorem ruleNames_length (hnames : next.ruleNames = router.ruleNames) :
    next.abuse.length = router.abuse.length := by
  have hlength := congrArg List.length hnames
  rwa [ruleNames, ruleNames, List.length_map, List.length_map] at hlength

omit [Store σ] in
/-- The abuse stage denies a request by one of its rules or lets it pass, and leaves the shards
alone. -/
theorem denyIfAbusive_eq (hash : String → UInt64) (request : Request) (nowMs : UInt64)
    (habuse : 0 < router.abuse.length) :
    ∃ next : Router σ,
      ((∃ rule action, router.denyIfAbusive hash request nowMs =
          .ok (some (tooManyRequests rule action), next) ∧ rule ∈ router.ruleNames.flatten) ∨
        router.denyIfAbusive hash request nowMs = .ok (none, next)) ∧
      next.shards = router.shards ∧ next.ruleNames = router.ruleNames := by
  have hbound : router.abuseForIdentity hash request.identity < router.abuse.length :=
    Nat.mod_lt _ habuse
  obtain ⟨rules, hrules⟩ :
      ∃ rules, router.abuse[router.abuseForIdentity hash request.identity]? = some rules :=
    ⟨_, List.getElem?_eq_getElem hbound⟩
  obtain ⟨hsame, hnamed⟩ := RuleSet.evaluate_names rules request.identity nowMs
  have hnames : (router.abuse.set (router.abuseForIdentity hash request.identity)
      (rules.evaluate request.identity nowMs).2).map RuleSet.names = router.ruleNames := by
    obtain ⟨hindex, rfl⟩ := List.getElem?_eq_some_iff.mp hrules
    rw [List.map_set, hsame, ← List.map_set, List.set_getElem_self hindex]
    rfl
  cases hverdict : (rules.evaluate request.identity nowMs).1 with
  | allow =>
      have hdeny : router.denyIfAbusive hash request nowMs = .ok (none, { router with
          abuse := router.abuse.set (router.abuseForIdentity hash request.identity)
            (rules.evaluate request.identity nowMs).2 }) := by
        simp only [denyIfAbusive, hrules, hverdict]
      exact ⟨_, Or.inr hdeny, rfl, hnames⟩
  | deny rule action =>
      have hdeny : router.denyIfAbusive hash request nowMs =
          .ok (some (tooManyRequests rule action), { router with
            abuse := router.abuse.set (router.abuseForIdentity hash request.identity)
              (rules.evaluate request.identity nowMs).2
            denied := router.denied + 1 }) := by
        simp only [denyIfAbusive, hrules, hverdict]
      have hrule : rule ∈ router.ruleNames.flatten :=
        List.mem_flatten_of_mem (List.mem_map_of_mem (List.mem_of_getElem? hrules))
          (hnamed rule action hverdict)
      exact ⟨_, Or.inl ⟨rule, action, hdeny, hrule⟩, rfl, hnames⟩

omit [Store σ] in
theorem routeShard_routes (hash : String → UInt64) (request : Request)
    (hshards : 0 < router.shards.length) :
    router.Routes hash request (router.routeShard hash request).1 := by
  constructor
  · unfold routeShard
    split
    next => exact Nat.mod_lt _ hshards
    next => exact Nat.mod_lt _ hshards
  · intro key hkey
    exact (routeShard_keyed hash router hkey).symm

omit [Store σ] in
theorem Routes.of_length {hash : String → UInt64} {request : Request} {index : Nat}
    (hroutes : router.Routes hash request index)
    (hlength : next.shards.length = router.shards.length) : next.Routes hash request index := by
  refine ⟨hlength ▸ hroutes.1, ?_⟩
  intro key hkey
  rw [shardForKey, hlength]
  exact hroutes.2 key hkey

end Router

/-! ## Proper stages -/

/-- What is settled about a request at its stage. -/
def Stage.Proper (routes : Nat → Prop) (request : Request) : Stage → Prop
  | .received => True
  | .scraping .. => pathOf request = "/metrics"
  | .admitted => request.Proxied
  | .routed index => request.Proxied ∧ routes index
  | .forwarding index ticket => request.Proxied ∧ routes index ∧
      ticket.token.map (fun token => token.key.val) = request.header "idempotency-key"
  | .answered _ called => called = true → request.Proxied

/-- A router that routes, and requests that are where they belong. -/
structure Pool.Proper {σ : Type} (hash : String → UInt64) (pool : Pool σ) : Prop where
  shards : 0 < pool.router.shards.length
  abuse : 0 < pool.router.abuse.length
  jobs : ∀ job ∈ pool.jobs, job.stage.Proper (pool.router.Routes hash job.request) job.request

namespace Job

variable {σ : Type} [Store σ] {hash : String → UInt64} {router next : Router σ}
  {back : Option (Except String Response)} {job : Job} {after : Stage} {index : Nat}
  {call : Option EngineCall}

omit [Store σ] in
theorem Aside.proper (haside : job.Aside hash router back after)
    (hproper : job.stage.Proper (router.Routes hash job.request) job.request) :
    after.Proper (router.Routes hash job.request) job.request := by
  cases haside with
  | stays => exact hproper
  | health => exact fun hcalled => by cases hcalled
  | scrapes _ hpath => exact hpath
  | adds _ hstage =>
      rw [hstage] at hproper
      exact hproper
  | scraped => exact fun hcalled => by cases hcalled
  | denies => exact fun hcalled => by cases hcalled
  | admits _ hproxied => exact hproxied
  | routes hstage hroutes =>
      rw [hstage] at hproper
      exact ⟨hproper, hroutes⟩

theorem Section.proper (hsection : job.Section hash router back after index call)
    (hproper : job.stage.Proper (router.Routes hash job.request) job.request) :
    after.Proper (router.Routes hash job.request) job.request := by
  cases hsection with
  | aside _ haside => exact haside.proper hproper
  | passes hstage hkey =>
      rw [hstage] at hproper
      exact ⟨hproper.1, hproper.2, hkey.symm⟩
  | @decides _ shard key decision hstage hshard hkey hanswer =>
      rw [hstage] at hproper
      cases decision with
      | run token =>
          obtain ⟨-, rfl⟩ := EngineCall.plan_begin_run hanswer
          exact ⟨hproper.1, hproper.2, hkey.symm⟩
      | replay outcome => exact fun hcalled => by cases hcalled
      | inProgress => exact fun hcalled => by cases hcalled
      | mismatch => exact fun hcalled => by cases hcalled
  | finishes hstage =>
      rw [hstage] at hproper
      exact fun _ => hproper.1

variable [LawfulStore σ]

/-- A section before the backend is called. -/
theorem proceed_section (hshards : 0 < router.shards.length) (habuse : 0 < router.abuse.length)
    (hproper : job.stage.Proper (router.Routes hash job.request) job.request) :
    ∃ after next index call, job.proceed hash router = .ok (after, next) ∧
      job.Section hash router none after index call ∧ router.Carries index call next := by
  have hsame := router.carries_of_shards 0 rfl rfl
  obtain ⟨request, nowMs, stage⟩ := job
  cases stage with
  | received =>
      by_cases hhealth : pathOf request = "/healthz"
      · exact ⟨_, _, 0, _, by simp [proceed, hhealth], .aside 0 (.health rfl hhealth), hsame⟩
      · by_cases hmetrics : pathOf request = "/metrics"
        · exact ⟨_, _, 0, _, by simp [proceed, hmetrics], .aside 0 (.scrapes rfl hmetrics), hsame⟩
        · obtain ⟨next, ⟨rule, action, hdeny, hrule⟩ | hdeny, hkept, hnames⟩ :=
            Router.denyIfAbusive_eq hash request nowMs habuse
          · refine ⟨_, next, 0, _, ?_, .aside 0 (.denies rule action rfl hrule),
              Router.carries_of_shards 0 hkept hnames⟩
            simp only [proceed, hhealth, hmetrics, if_false, hdeny]
            rfl
          · refine ⟨_, next, 0, _, ?_, .aside 0 (.admits rfl ⟨hhealth, hmetrics⟩),
              Router.carries_of_shards 0 hkept hnames⟩
            simp only [proceed, hhealth, hmetrics, if_false, hdeny]
            rfl
  | scraping total index =>
      cases hshard : router.shards[index]? with
      | some shard =>
          exact ⟨_, _, 0, _, by simp [proceed, hshard], .aside 0 (.adds shard.gateway.metrics rfl
            (List.getElem?_eq_some_iff.mp hshard).1), hsame⟩
      | none =>
          refine ⟨.answered (metricsResponse { total with denied := total.denied + router.denied })
            false, router, 0, none, ?_, .aside 0 (.scraped _ rfl), hsame⟩
          simp only [proceed, hshard]
  | admitted =>
      obtain ⟨cursor, hcursor⟩ := Router.routeShard_rest hash router request
      refine ⟨.routed (router.routeShard hash request).1, (router.routeShard hash request).2, 0,
        none, rfl, .aside 0 (.routes rfl (Router.routeShard_routes hash request hshards)), ?_⟩
      rw [hcursor]
      exact Router.carries_of_shards 0 rfl rfl
  | routed index =>
      obtain ⟨shard, hshard⟩ : ∃ shard, router.shards[index]? = some shard :=
        ⟨_, List.getElem?_eq_getElem hproper.2.1⟩
      cases hkey : request.header "idempotency-key" with
      | none =>
          have hbegin := Gateway.beginPhase_keyless_eq shard.gateway .done nowMs hkey
          obtain ⟨next, hsection, hcarries⟩ :=
            Router.onShard_carries hshard hbegin (shard.gateway.carries_none _)
          refine ⟨_, next, index, none, ?_, .passes rfl hkey, hcarries⟩
          simp only [proceed, hsection]
          rfl
      | some key =>
          obtain ⟨decision, hanswer⟩ := shard.gateway.plan_begins ⟨key⟩
            (fingerprintOf request shard.gateway.fingerprintKey) nowMs
          obtain ⟨gateway, hbegin, hcall⟩ := shard.gateway.beginPhase_carries hkey hanswer
          obtain ⟨next, hsection, hcarries⟩ := Router.onShard_carries hshard hbegin hcall
          refine ⟨_, next, index, _, ?_, .decides rfl hshard hkey hanswer, hcarries⟩
          simp only [proceed, hsection]
          rfl
  | forwarding index ticket => exact ⟨_, _, 0, _, rfl, .aside 0 (.stays trivial), hsame⟩
  | answered response called => exact ⟨_, _, 0, _, rfl, .aside 0 (.stays trivial), hsame⟩

/-- The section after the backend was called. -/
theorem complete_section (forwarded : Except String Response)
    (hproper : job.stage.Proper (router.Routes hash job.request) job.request) :
    ∃ after next index call, job.complete forwarded router = .ok (after, next) ∧
      job.Section hash router (some forwarded) after index call ∧
      router.Carries index call next := by
  have hsame := router.carries_of_shards 0 rfl rfl
  obtain ⟨request, nowMs, stage⟩ := job
  cases stage with
  | forwarding index ticket =>
      obtain ⟨shard, hshard⟩ : ∃ shard, router.shards[index]? = some shard :=
        ⟨_, List.getElem?_eq_getElem hproper.2.1.1⟩
      obtain ⟨gateway, hcomplete, hcall⟩ :=
        shard.gateway.completePhase_carries ticket forwarded nowMs
      obtain ⟨next, hsection, hcarries⟩ := Router.onShard_carries hshard hcomplete hcall
      refine ⟨_, next, index, _, ?_, .finishes rfl rfl, hcarries⟩
      simp only [complete, hsection]
      rfl
  | received => exact ⟨_, _, 0, _, rfl, .aside 0 (.stays (by simp [Stage.Rests])), hsame⟩
  | scraping => exact ⟨_, _, 0, _, rfl, .aside 0 (.stays (by simp [Stage.Rests])), hsame⟩
  | admitted => exact ⟨_, _, 0, _, rfl, .aside 0 (.stays (by simp [Stage.Rests])), hsame⟩
  | routed => exact ⟨_, _, 0, _, rfl, .aside 0 (.stays (by simp [Stage.Rests])), hsame⟩
  | answered => exact ⟨_, _, 0, _, rfl, .aside 0 (.stays (by simp [Stage.Rests])), hsame⟩

end Job

/-! ## How many sections there are -/

/-- How many sections are left at most until the request is answered or waits. -/
def Stage.left (shards : Nat) : Stage → Nat
  | .received => shards + 3
  | .scraping _ index => shards - index + 1
  | .admitted => 2
  | .routed _ => 1
  | .forwarding .. => 0
  | .answered .. => 0

namespace Job

variable {σ : Type} [Store σ] {hash : String → UInt64} {router : Router σ} {job : Job}
  {after : Stage} {index : Nat} {call : Option EngineCall}

omit [Store σ] in
theorem Aside.left (haside : job.Aside hash router none after) (hunsettled : ¬ job.stage.Settled) :
    after.left router.shards.length < job.stage.left router.shards.length := by
  cases haside with
  | stays hrests => exact absurd hrests hunsettled
  | health hstage => simp [hstage, Stage.left]
  | scrapes hstage => simp [hstage, Stage.left]
  | @adds total index more hstage hindex =>
      simp only [hstage, Stage.left]
      omega
  | scraped metrics hstage => simp [hstage, Stage.left]
  | denies rule action hstage => simp [hstage, Stage.left]
  | admits hstage => simp [hstage, Stage.left]
  | routes hstage => simp [hstage, Stage.left]

/-- A section of its own brings a request closer to its answer. -/
theorem Section.left (hsection : job.Section hash router none after index call)
    (hunsettled : ¬ job.stage.Settled) :
    after.left router.shards.length < job.stage.left router.shards.length := by
  cases hsection with
  | aside _ haside => exact haside.left hunsettled
  | passes hstage => simp [hstage, Stage.left]
  | @decides _ shard key decision hstage =>
      rw [hstage]
      cases decision <;> exact Nat.one_pos
  | finishes _ hback => cases hback

/-- The section after the backend was called is the last. -/
theorem Section.ends {forwarded : Except String Response}
    (hsection : job.Section hash router (some forwarded) after index call)
    (hsettled : job.stage.Settled) : ∃ response called, after = .answered response called := by
  cases hsection with
  | aside _ haside =>
      cases haside with
      | stays hrests =>
          generalize job.stage = stage at hrests hsettled
          cases stage with
          | answered response called => exact ⟨response, called, rfl⟩
          | forwarding index ticket => exact absurd rfl (hrests index ticket)
          | received => cases hsettled
          | scraping => cases hsettled
          | admitted => cases hsettled
          | routed => cases hsettled
      | health => exact ⟨_, _, rfl⟩
      | scrapes hstage => simp [hstage, Stage.Settled] at hsettled
      | adds more hstage => simp [hstage, Stage.Settled] at hsettled
      | scraped => exact ⟨_, _, rfl⟩
      | denies => exact ⟨_, _, rfl⟩
      | admits hstage => simp [hstage, Stage.Settled] at hsettled
      | routes hstage => simp [hstage, Stage.Settled] at hsettled
  | passes hstage => simp [hstage, Stage.Settled] at hsettled
  | decides hstage => simp [hstage, Stage.Settled] at hsettled
  | finishes => exact ⟨_, _, rfl⟩

end Job

/-! ## What a step of the pool does -/

namespace Pool

variable {σ : Type} [Store σ] {hash : String → UInt64} {pool next : Pool σ}

/-- The request whose section an event is, and what is back from the backend. -/
def Event.target : Event → Option (Nat × Option (Except String Response))
  | .proceed id => some (id, none)
  | .returned id forwarded => some (id, some forwarded)
  | .arrive .. => none
  | .prune .. => none

/-- What a step does. -/
inductive Moves (hash : String → UInt64) (pool : Pool σ) :
    Event → Option Notice → Pool σ → Prop where
  | arrives (request : Request) (nowMs : UInt64) :
      Moves hash pool (.arrive request nowMs) (some (.accepted pool.jobs.length))
        { pool with jobs := pool.jobs ++ [⟨request, nowMs, .received⟩] }
  | runs {event : Event} {id : Nat} {back : Option (Except String Response)} {job : Job}
      {after : Stage} {index : Nat} {call : Option EngineCall} {router : Router σ}
      (htarget : event.target = some (id, back)) (hjob : pool.jobs[id]? = some job)
      (hsection : job.Section hash pool.router back after index call)
      (hcarries : pool.router.Carries index call router) :
      Moves hash pool event (job.notice id after)
        ⟨router, pool.jobs.set id { job with stage := after }⟩
  | prunes {index : Nat} {iteration : Iteration} {nowMs : UInt64} {router : Router σ}
      (hcarries : pool.router.Carries index (some (.pruneExpired iteration nowMs)) router) :
      Moves hash pool (.prune index iteration nowMs) none { pool with router := router }
  | misses {event : Event} {id : Nat} {back : Option (Except String Response)}
      (htarget : event.target = some (id, back)) (hjob : pool.jobs[id]? = none) :
      Moves hash pool event none pool
  | outside {index : Nat} {iteration : Iteration} {nowMs : UInt64}
      (hindex : pool.router.shards.length ≤ index) :
      Moves hash pool (.prune index iteration nowMs) none pool

theorem Proper.carries (hproper : pool.Proper hash) {index : Nat} {call : Option EngineCall}
    {router : Router σ} (hcarries : pool.router.Carries index call router) :
    Proper hash { pool with router := router } := by
  refine ⟨?_, ?_, ?_⟩
  · rw [hcarries.length]
    exact hproper.shards
  · rw [Router.ruleNames_length hcarries.ruleNames]
    exact hproper.abuse
  · intro job hjob
    have hroutes : router.Routes hash job.request = pool.router.Routes hash job.request := by
      funext index
      exact propext ⟨fun hroutes => hroutes.of_length hcarries.length.symm,
        fun hroutes => hroutes.of_length hcarries.length⟩
    change job.stage.Proper (router.Routes hash job.request) job.request
    rw [hroutes]
    exact hproper.jobs job hjob

theorem Moves.proper {event : Event} {notice : Option Notice}
    (hmoves : pool.Moves hash event notice next) (hproper : pool.Proper hash) :
    next.Proper hash := by
  cases hmoves with
  | arrives request nowMs =>
      refine ⟨hproper.shards, hproper.abuse, ?_⟩
      intro job hjob
      rcases List.mem_append.mp hjob with hold | hnew
      · exact hproper.jobs job hold
      · rw [List.mem_singleton.mp hnew]
        exact trivial
  | @runs _ id back job after index call router htarget hjob hsection hcarries =>
      have hset : Proper hash ⟨pool.router, pool.jobs.set id { job with stage := after }⟩ := by
        refine ⟨hproper.shards, hproper.abuse, ?_⟩
        intro other hother
        rcases List.mem_or_eq_of_mem_set hother with hold | rfl
        · exact hproper.jobs other hold
        · exact hsection.proper (hproper.jobs job (List.mem_of_getElem? hjob))
      exact hset.carries hcarries
  | prunes hcarries => exact hproper.carries hcarries
  | misses => exact hproper
  | outside => exact hproper

/-- Over lawful stores the pool never stops. -/
theorem step_moves [LawfulStore σ] (hproper : pool.Proper hash) (event : Event) :
    ∃ notice next, pool.step hash event = .ok (notice, next) ∧
      pool.Moves hash event notice next ∧ next.Proper hash := by
  suffices hstep : ∃ notice next, pool.step hash event = .ok (notice, next) ∧
      pool.Moves hash event notice next by
    obtain ⟨notice, next, hstep, hmoves⟩ := hstep
    exact ⟨notice, next, hstep, hmoves, hmoves.proper hproper⟩
  have hruns : ∀ id, pool.jobs[id]? = none → ∀ body, pool.run id body = .ok (none, pool) := by
    intro id hjob body
    simp only [run, hjob]
  cases event with
  | arrive request nowMs => exact ⟨_, _, rfl, .arrives request nowMs⟩
  | proceed id =>
      cases hjob : pool.jobs[id]? with
      | none => exact ⟨none, pool, hruns id hjob _, .misses rfl hjob⟩
      | some job =>
          obtain ⟨after, router, index, call, hproceed, hsection, hcarries⟩ :=
            Job.proceed_section hproper.shards hproper.abuse
              (hproper.jobs job (List.mem_of_getElem? hjob))
          refine ⟨_, _, ?_, .runs rfl hjob hsection hcarries⟩
          simp only [step, run, hjob, hproceed]
          rfl
  | returned id forwarded =>
      cases hjob : pool.jobs[id]? with
      | none => exact ⟨none, pool, hruns id hjob _, .misses rfl hjob⟩
      | some job =>
          obtain ⟨after, router, index, call, hcomplete, hsection, hcarries⟩ :=
            Job.complete_section forwarded (hproper.jobs job (List.mem_of_getElem? hjob))
          refine ⟨_, _, ?_, .runs rfl hjob hsection hcarries⟩
          simp only [step, run, hjob, hcomplete]
          rfl
  | prune index iteration nowMs =>
      by_cases hindex : index < pool.router.shards.length
      · obtain ⟨shard, hshard⟩ : ∃ shard, pool.router.shards[index]? = some shard :=
          ⟨_, List.getElem?_eq_getElem hindex⟩
        obtain ⟨gateway, hprune, hcall⟩ := shard.gateway.pruneExpired_carries iteration nowMs
        obtain ⟨router, hsection, hcarries⟩ := Router.onShard_carries hshard hprune hcall
        refine ⟨_, _, ?_, .prunes hcarries⟩
        simp only [step, if_pos hindex, hsection]
        rfl
      · exact ⟨none, pool, if_neg hindex, .outside (Nat.not_lt.mp hindex)⟩

omit [Store σ] in
/-- At the start no request has come in. -/
theorem proper_of_new {gateways : List (Gateway σ)} {abuse : List RuleSet} {router : Router σ}
    (hash : String → UInt64) (hnew : Router.new gateways abuse = .ok router) :
    Proper hash ⟨router, []⟩ := by
  obtain ⟨hgateways, habuse, rfl⟩ := Router.new_eq_ok hnew
  refine ⟨?_, List.length_pos_iff.mpr habuse, fun job hjob => absurd hjob List.not_mem_nil⟩
  rw [List.length_map]
  exact List.length_pos_iff.mpr hgateways

/-! ## What stays -/

/-- A request goes on, with the time it came in at. -/
theorem Moves.job {event : Event} {notice : Option Notice} {id : Nat} {job : Job}
    (hmoves : pool.Moves hash event notice next) (hjob : pool.jobs[id]? = some job) :
    ∃ after, next.jobs[id]? = some { job with stage := after } := by
  cases hmoves with
  | arrives request nowMs =>
      refine ⟨job.stage, ?_⟩
      rw [List.getElem?_append_left (List.getElem?_eq_some_iff.mp hjob).1]
      exact hjob
  | @runs _ own back other after index call router htarget hother hsection hcarries =>
      by_cases hid : own = id
      · subst hid
        cases hjob.symm.trans hother
        exact ⟨after, List.getElem?_set_self (List.getElem?_eq_some_iff.mp hjob).1⟩
      · exact ⟨job.stage, by rw [List.getElem?_set_ne hid]; exact hjob⟩
  | prunes => exact ⟨job.stage, hjob⟩
  | misses => exact ⟨job.stage, hjob⟩
  | outside => exact ⟨job.stage, hjob⟩

theorem job_of_path {events : List Event} {log : List (Option Notice)} {last : Pool σ} {id : Nat}
    {job : Job} (hpath : Path (Moves hash) pool events log last)
    (hjob : pool.jobs[id]? = some job) :
    ∃ after, last.jobs[id]? = some { job with stage := after } := by
  apply hpath.invariant (fun pool => ∃ after, pool.jobs[id]? = some { job with stage := after }) _
    ⟨job.stage, hjob⟩
  rintro event - notice - pool next ⟨after, hafter⟩ hmoves
  obtain ⟨later, hlater⟩ := hmoves.job hafter
  exact ⟨later, hlater⟩

end Pool

end Onced
