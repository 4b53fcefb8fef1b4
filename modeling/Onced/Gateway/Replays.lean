import Onced.Gateway.Feed

/-! # Retries side by side

A request that waits for the backend holds its key: no other request is given a ticket
before its lease is over, and no other ticket is taken for its own. So its answer is
stored, and until it expires whoever asks for the key finds it. This holds whatever the
sections of other requests do in between.
-/

namespace Onced

open Foundation

/-! ## Tickets under way -/

def Job.key (job : Job) : Option String := job.request.header "idempotency-key"

/-- The request waits for the backend with this token. -/
def Job.Holds (job : Job) (index : Nat) (token : RunToken) : Prop :=
  job.stage = .forwarding index ⟨some token⟩

/-- The time is after the deadline for a request for the key. -/
def Pool.Overrun {σ : Type} (key : String) (deadline : UInt64) (pool : Pool σ) : Prop :=
  ∃ job ∈ pool.jobs, job.key = some key ∧ deadline ≤ job.nowMs

namespace Job

variable {σ : Type} [Store σ] {hash : String → UInt64} {router : Router σ}
  {back : Option (Except String Response)} {job : Job} {after : Stage} {index : Nat}
  {call : Option EngineCall}

/-- A token that was not held before has been issued by the first phase. -/
theorem Section.issues (hsection : job.Section hash router back after index call) {place : Nat}
    {token : RunToken} (hafter : after = .forwarding place ⟨some token⟩) :
    job.stage = after ∧ call = none ∨
      job.stage = .routed place ∧ ∃ shard key, router.shards[place]? = some shard ∧
        job.key = some key ∧ token = ⟨⟨key⟩, ⟨shard.gateway.engine.nextFence⟩⟩ ∧
        Engine.action shard.gateway.engine.ttlMs
          (fingerprintOf job.request shard.gateway.fingerprintKey) job.nowMs
          (Store.get shard.gateway.engine.store ⟨key⟩) = .start ∧ index = place ∧
        call = some (.begin ⟨key⟩ (fingerprintOf job.request shard.gateway.fingerprintKey)
          job.nowMs) := by
  cases hsection with
  | aside _ haside =>
      cases haside with
      | stays => exact Or.inl ⟨rfl, rfl⟩
      | health => cases hafter
      | scrapes => cases hafter
      | adds => cases hafter
      | scraped => cases hafter
      | denies => cases hafter
      | admits => cases hafter
      | routes => cases hafter
  | passes => cases hafter
  | @decides _ shard key decision hstage hshard hkey hanswer =>
      cases decision with
      | run issued =>
          cases hafter
          obtain ⟨haction, htoken⟩ := EngineCall.plan_begin_run hanswer
          exact Or.inr ⟨hstage, shard, key, hshard, hkey, htoken, haction, rfl, rfl⟩
      | replay => cases hafter
      | inProgress => cases hafter
      | mismatch => cases hafter
  | finishes => cases hafter

/-- A request that the backend was called with is answered by the second phase. -/
theorem Section.serves (hsection : job.Section hash router back after index call)
    {response : Response} (hafter : after = .answered response true) :
    job.stage = after ∧ call = none ∨ ∃ ticket forwarded,
      job.stage = .forwarding index ticket ∧ back = some forwarded ∧
      response = (ticket.answer forwarded).1 ∧
      call = (ticket.commit forwarded).map fun (token, plain) =>
        .complete token (toOutcome plain) job.nowMs := by
  cases hsection with
  | aside _ haside =>
      cases haside with
      | stays => exact Or.inl ⟨rfl, rfl⟩
      | health => cases hafter
      | scrapes => cases hafter
      | adds => cases hafter
      | scraped => cases hafter
      | denies => cases hafter
      | admits => cases hafter
      | routes => cases hafter
  | passes => cases hafter
  | @decides _ shard key decision =>
      cases decision with
      | run => cases hafter
      | replay => cases hafter
      | inProgress => cases hafter
      | mismatch => cases hafter
  | @finishes _ ticket forwarded hstage hback =>
      cases hafter
      exact Or.inr ⟨ticket, forwarded, hstage, hback, rfl, rfl⟩

/-- The engine call of a section is made for the request, or with the token it holds. -/
theorem Section.calls {made : EngineCall}
    (hsection : job.Section hash router back after index (some made)) :
    (∃ key fingerprint, made = .begin ⟨key⟩ fingerprint job.nowMs ∧ job.key = some key) ∨
      ∃ token outcome response, made = .complete token outcome job.nowMs ∧
        job.Holds index token ∧ after = .answered response true := by
  generalize hcall : some made = call at hsection
  cases hsection with
  | aside => cases hcall
  | passes => cases hcall
  | decides hstage hshard hkey =>
      cases hcall
      exact Or.inl ⟨_, _, rfl, hkey⟩
  | @finishes _ ticket forwarded hstage =>
      obtain ⟨⟨token, plain⟩, hcommit, rfl⟩ := Option.map_eq_some_iff.mp hcall.symm
      obtain ⟨hticket, -⟩ := ForwardTicket.commit_eq_some hcommit
      obtain ⟨held⟩ := ticket
      cases hticket
      exact Or.inr ⟨token, _, _, rfl, hstage, rfl⟩

end Job

/-! ## Steps of the pool -/

namespace Router

variable {σ : Type} [Store σ] {router next : Router σ} {index : Nat} {call : Option EngineCall}

/-- All engines have this lease and this time to live. -/
def Setup (leaseMs ttlMs : UInt64) (router : Router σ) : Prop :=
  ∀ (index : Nat) (shard : Shard σ), router.shards[index]? = some shard →
    shard.gateway.engine.leaseMs = leaseMs ∧ shard.gateway.engine.ttlMs = ttlMs

theorem Carries.setup {leaseMs ttlMs : UInt64} (hcarries : router.Carries index call next)
    (hsetup : router.Setup leaseMs ttlMs) : next.Setup leaseMs ttlMs := by
  intro place after hafter
  obtain ⟨shard, hshard, hcarried⟩ := hcarries.before hafter
  obtain ⟨hlease, httl⟩ := hsetup place shard hshard
  exact ⟨hcarried.leaseMs.trans hlease, hcarried.ttlMs.trans httl⟩

end Router

/-- A call leaves the counter of its fences as it is or moves it by one. -/
theorem Engine.planOf_nextFence {σ : Type} [Store σ] (engine : Engine σ)
    (call : Option EngineCall) :
    (engine.planOf call).nextFence = engine.nextFence ∨
      (engine.planOf call).nextFence = engine.nextFence + 1 := by
  cases call with
  | none => exact Or.inl rfl
  | some call =>
      have hplanned := EngineCall.planned engine.leaseMs engine.ttlMs engine.nextFence
        (Store.get engine.store) call
      change (engine.plan call).nextFence = _ ∨ (engine.plan call).nextFence = _
      unfold plan
      generalize call.plan engine.leaseMs engine.ttlMs engine.nextFence (Store.get engine.store) =
        planned at hplanned ⊢
      cases hplanned with
      | starts => exact Or.inr rfl
      | replays => exact Or.inl rfl
      | waits => exact Or.inl rfl
      | mismatches => exact Or.inl rfl
      | commits => exact Or.inl rfl
      | refuses => exact Or.inl rfl
      | flushes => exact Or.inl rfl
      | prunes => exact Or.inl rfl

namespace Pool

variable {σ : Type} [Store σ] {hash : String → UInt64} {pool next : Pool σ} {event : Event}
  {notice : Option Notice}

/-- The engine call that a step comes to, and for whom it is made. -/
structure Calls (pool : Pool σ) (event : Event) (index : Nat) (call : Option EngineCall)
    (next : Pool σ) : Prop where
  carries : pool.router.Carries index call next.router
  begins : ∀ key fingerprint nowMs, call = some (.begin key fingerprint nowMs) →
    ∃ job ∈ pool.jobs, job.key = some key.val ∧ job.nowMs = nowMs
  completes : ∀ token outcome nowMs, call = some (.complete token outcome nowMs) →
    ∃ (id : Nat) (job : Job) (response : Response), pool.jobs[id]? = some job ∧
      job.Holds index token ∧
      next.jobs[id]? = some { job with stage := .answered response true }
  prunes : ∀ iteration nowMs, call = some (.pruneExpired iteration nowMs) →
    event = .prune index iteration nowMs

theorem calls_none (hcarries : pool.router.Carries 0 none next.router) :
    pool.Calls event 0 none next := by
  refine ⟨hcarries, ?_, ?_, ?_⟩
  · intro _ _ _ hcall
    cases hcall
  · intro _ _ _ hcall
    cases hcall
  · intro _ _ hcall
    cases hcall

theorem Moves.calls (hmoves : pool.Moves hash event notice next) :
    ∃ index call, pool.Calls event index call next := by
  cases hmoves with
  | arrives request nowMs => exact ⟨0, none, calls_none (Router.carries_of_shards 0 rfl rfl)⟩
  | @runs _ id back job after index call router htarget hjob hsection hcarries =>
      refine ⟨index, call, hcarries, ?_, ?_, ?_⟩
      · rintro key fingerprint nowMs rfl
        obtain ⟨_, _, hmade, hkey⟩ | ⟨_, _, _, hmade, -⟩ := hsection.calls
        · cases hmade
          exact ⟨job, List.mem_of_getElem? hjob, hkey, rfl⟩
        · cases hmade
      · rintro token outcome nowMs rfl
        obtain ⟨_, _, hmade, -⟩ | ⟨_, _, response, hmade, hholds, rfl⟩ := hsection.calls
        · cases hmade
        · cases hmade
          exact ⟨id, job, response, hjob, hholds,
            List.getElem?_set_self (List.getElem?_eq_some_iff.mp hjob).1⟩
      · rintro iteration nowMs rfl
        obtain ⟨_, _, hmade, -⟩ | ⟨_, _, _, hmade, -⟩ := hsection.calls
        · cases hmade
        · cases hmade
  | prunes hcarries =>
      refine ⟨_, _, hcarries, ?_, ?_, ?_⟩
      · intro _ _ _ hcall
        cases hcall
      · intro _ _ _ hcall
        cases hcall
      · intro _ _ hcall
        cases hcall
        rfl
  | misses => exact ⟨0, none, calls_none (Router.carries_of_shards 0 rfl rfl)⟩
  | outside => exact ⟨0, none, calls_none (Router.carries_of_shards 0 rfl rfl)⟩

/-- A request after a step: it has just come in, or it is as before, or it is the one whose
section was run. -/
theorem Moves.jobs (hmoves : pool.Moves hash event notice next) {id : Nat} {job : Job}
    (hjob : next.jobs[id]? = some job) :
    (pool.jobs[id]? = none ∧ job.stage = .received) ∨ pool.jobs[id]? = some job ∨
      ∃ before after back index call, pool.jobs[id]? = some before ∧
        job = { before with stage := after } ∧
        before.Section hash pool.router back after index call ∧
        pool.router.Carries index call next.router ∧
        ∀ other, other ≠ id → next.jobs[other]? = pool.jobs[other]? := by
  cases hmoves with
  | arrives request nowMs =>
      rw [List.getElem?_append] at hjob
      split at hjob
      next => exact Or.inr (Or.inl hjob)
      next hbeyond =>
        obtain rfl := List.mem_singleton.mp (List.mem_of_getElem? hjob)
        exact Or.inl ⟨List.getElem?_eq_none (Nat.not_lt.mp hbeyond), rfl⟩
  | @runs _ own back before after index call router htarget hbefore hsection hcarries =>
      by_cases hid : own = id
      · subst hid
        rw [List.getElem?_set_self (List.getElem?_eq_some_iff.mp hbefore).1] at hjob
        cases hjob
        refine Or.inr (Or.inr ⟨before, after, back, index, call, hbefore, rfl, hsection, hcarries,
          ?_⟩)
        intro other hother
        exact List.getElem?_set_ne (Ne.symm hother)
      · rw [List.getElem?_set_ne hid] at hjob
        exact Or.inr (Or.inl hjob)
  | prunes => exact Or.inr (Or.inl hjob)
  | misses => exact Or.inr (Or.inl hjob)
  | outside => exact Or.inr (Or.inl hjob)

theorem Overrun.step {key : String} {deadline : UInt64}
    (hmoves : pool.Moves hash event notice next) (hoverrun : pool.Overrun key deadline) :
    next.Overrun key deadline := by
  obtain ⟨job, hjob, hkey, hlate⟩ := hoverrun
  obtain ⟨id, hid⟩ := List.getElem?_of_mem hjob
  obtain ⟨after, hafter⟩ := hmoves.job hid
  exact ⟨_, List.mem_of_getElem? hafter, hkey, hlate⟩

/-! ## Tokens stay apart -/

/-- No token under way is one of the next ones that its shard will issue, and no two requests
hold the same. -/
structure Apart (left : Nat) (pool : Pool σ) : Prop where
  ahead : ∀ (id : Nat) (job : Job) (index : Nat) (token : RunToken) (shard : Shard σ),
    pool.jobs[id]? = some job → job.Holds index token → pool.router.shards[index]? = some shard →
    ∀ ahead < left, token.fence.val ≠ shard.gateway.engine.nextFence + UInt64.ofNat ahead
  distinct : ∀ (id rival : Nat) (job other : Job) (index : Nat) (token otherToken : RunToken),
    pool.jobs[id]? = some job → pool.jobs[rival]? = some other → job.Holds index token →
    other.Holds index otherToken → token.fence = otherToken.fence → id = rival

theorem add_ofNat_succ (fence : UInt64) (ahead : Nat) :
    fence + 1 + UInt64.ofNat ahead = fence + UInt64.ofNat (ahead + 1) := by
  rw [UInt64.ofNat_add, add_assoc, add_comm 1]
  rfl

theorem ne_add_ofNat_succ (fence : UInt64) {ahead : Nat} (hahead : ahead + 1 < 2 ^ 64) :
    fence ≠ fence + 1 + UInt64.ofNat ahead := by
  rw [add_ofNat_succ]
  intro hsame
  have hzero : UInt64.ofNat (ahead + 1) = 0 := by
    have hcancel : fence + 0 = fence + UInt64.ofNat (ahead + 1) := by rw [add_zero]; exact hsame
    exact (add_left_cancel hcancel).symm
  have hnat := congrArg UInt64.toNat hzero
  rw [UInt64.toNat_ofNat_of_lt' hahead] at hnat
  exact absurd hnat (Nat.succ_ne_zero _)

/-- One step uses up one fence at most. -/
theorem Apart.step {left : Nat} (hleft : left < 2 ^ 64) (hapart : pool.Apart (left + 1))
    (hmoves : pool.Moves hash event notice next) : next.Apart left := by
  -- a token that is held was held before, or is the one its shard issues in this step
  have hheld : ∀ (id : Nat) (job : Job) (index : Nat) (token : RunToken),
      next.jobs[id]? = some job → job.Holds index token →
      (∃ before : Job, pool.jobs[id]? = some before ∧ before.Holds index token) ∨
      ∃ shard after : Shard σ, pool.router.shards[index]? = some shard ∧
        next.router.shards[index]? = some after ∧
        token.fence.val = shard.gateway.engine.nextFence ∧
        after.gateway.engine.nextFence = shard.gateway.engine.nextFence + 1 ∧
        ∀ other, other ≠ id → next.jobs[other]? = pool.jobs[other]? := by
    intro id job index token hjob hholds
    obtain ⟨-, hreceived⟩ | hsame | ⟨before, after, back, place, call, hbefore, rfl, hsection,
      hcarries, hothers⟩ := hmoves.jobs hjob
    · cases hreceived.symm.trans hholds
    · exact Or.inl ⟨job, hsame, hholds⟩
    · obtain ⟨hstage, -⟩ | ⟨-, shard, key, hshard, hkey, rfl, haction, rfl, rfl⟩ :=
        hsection.issues hholds
      · exact Or.inl ⟨before, hbefore, hstage.trans hholds⟩
      · obtain ⟨after, hafter, hcarried⟩ := hcarries.shards _ shard hshard
        rw [if_pos rfl] at hcarried
        refine Or.inr ⟨shard, after, hshard, hafter, rfl, ?_, hothers⟩
        rw [hcarried.nextFence]
        exact congrArg Plan.nextFence (EngineCall.plan_begin_start haction)
  constructor
  · intro id job index token after hjob hholds hafter ahead hahead
    obtain ⟨before, hbefore, hbeforeHolds⟩ | ⟨shard, also, hshard, halso, hfence, hnext, -⟩ :=
      hheld id job index token hjob hholds
    · obtain ⟨place, call, hcalls⟩ := hmoves.calls
      obtain ⟨shard, hshard, hcarried⟩ := hcalls.carries.before hafter
      have hold := hapart.ahead id before index token shard hbefore hbeforeHolds hshard
      rw [hcarried.nextFence]
      rcases shard.gateway.engine.planOf_nextFence (if index = place then call else none) with
        hsame | hmoved
      · rw [hsame]
        exact hold ahead (by omega)
      · rw [hmoved, add_ofNat_succ]
        exact hold (ahead + 1) (by omega)
    · cases hafter.symm.trans halso
      rw [hfence, hnext]
      exact ne_add_ofNat_succ _ (by omega)
  · intro id rival job other index token otherToken hjob hother hholds hotherHolds hfence
    obtain ⟨before, hbefore, hbeforeHolds⟩ | ⟨shard, after, hshard, hafter, hissued, hnext,
        hothers⟩ := hheld id job index token hjob hholds
    · obtain ⟨rivalBefore, hrivalBefore, hrivalHolds⟩ | ⟨shard, after, hshard, hafter, hissued,
        -, -⟩ := hheld rival other index otherToken hother hotherHolds
      · exact hapart.distinct id rival before rivalBefore index token otherToken hbefore
          hrivalBefore hbeforeHolds hrivalHolds hfence
      · refine absurd ?_ (hapart.ahead id before index token shard hbefore hbeforeHolds hshard 0
          (Nat.succ_pos _))
        rw [hfence, hissued]
        exact (add_zero _).symm
    · by_contra hne
      rw [hothers rival (Ne.symm hne)] at hother
      refine absurd ?_ (hapart.ahead rival other index otherToken shard hother hotherHolds hshard 0
        (Nat.succ_pos _))
      rw [← hfence, hissued]
      exact (add_zero _).symm

end Pool

/-! ## Outcomes are stored -/

namespace Gateway

variable {σ : Type} [Store σ] {gateway next : Gateway σ} {call : Option EngineCall}
  {key : IdempotencyKey}

theorem Carries.completed {fingerprint : RequestFingerprint} {outcome : CachedOutcome}
    {completedAtMs : UInt64} (hcarries : gateway.Carries call next)
    (hrecord : Store.get gateway.engine.store key =
      some (.completed fingerprint outcome completedAtMs))
    (hlive : ∀ made, call = some made →
      ¬ made.Expires key (saturatingAdd completedAtMs gateway.engine.ttlMs)) :
    Store.get next.engine.store key = some (.completed fingerprint outcome completedAtMs) := by
  rw [hcarries.states, ← hrecord]
  cases call with
  | none => rfl
  | some made => exact EngineCall.plan_effect_completed hrecord (hlive made rfl)

theorem Carries.locked {holder : RequestFingerprint} {fence : Fence} {leaseExpiresAtMs : UInt64}
    (hcarries : gateway.Carries call next)
    (hrecord : Store.get gateway.engine.store key =
      some (.inProgress fence holder leaseExpiresAtMs))
    (hspares : ∀ made, call = some made → made.Spares key holder fence leaseExpiresAtMs) :
    Store.get next.engine.store key = some (.inProgress fence holder leaseExpiresAtMs) := by
  rw [hcarries.states, ← hrecord]
  cases call with
  | none => rfl
  | some made => exact EngineCall.plan_effect_of_spares hrecord (hspares made rfl)

end Gateway

namespace Router

variable {σ : Type} [Store σ] {hash : String → UInt64} {router next : Router σ} {index : Nat}
  {call : Option EngineCall}

/-- The shard that owns the key has this outcome for the request. -/
def Keeps (hash : String → UInt64) (request : Request) (key : String) (outcome : CachedOutcome)
    (completedAtMs : UInt64) (router : Router σ) : Prop :=
  ∃ shard, router.shards[router.shardForKey hash key]? = some shard ∧
    Store.get shard.gateway.engine.store ⟨key⟩ =
      some (.completed (fingerprintOf request shard.gateway.fingerprintKey) outcome completedAtMs)

omit [Store σ] in
theorem shardForKey_of_length (hash : String → UInt64) (key : String)
    (hlength : next.shards.length = router.shards.length) :
    next.shardForKey hash key = router.shardForKey hash key := by
  rw [shardForKey, shardForKey, hlength]

/-- Until it expires, an outcome is kept. -/
theorem Carries.keeps {request : Request} {key : String} {outcome : CachedOutcome}
    {leaseMs ttlMs completedAtMs : UInt64} (hcarries : router.Carries index call next)
    (hsetup : router.Setup leaseMs ttlMs)
    (hlive : ∀ made, call = some made → ¬ made.Expires ⟨key⟩ (saturatingAdd completedAtMs ttlMs))
    (hkeeps : router.Keeps hash request key outcome completedAtMs) :
    next.Keeps hash request key outcome completedAtMs := by
  obtain ⟨shard, hshard, hrecord⟩ := hkeeps
  obtain ⟨after, hafter, hcarried⟩ := hcarries.shards _ shard hshard
  refine ⟨after, ?_, ?_⟩
  · rw [shardForKey_of_length hash key hcarries.length]
    exact hafter
  · rw [hcarried.fingerprintKey]
    apply hcarried.completed hrecord
    intro made hmade
    rw [(hsetup _ shard hshard).2]
    exact hlive made (Option.ite_none_right_eq_some.mp hmade).2

end Router

/-- While the request waits for the backend its key is locked, and once it is answered with less
than 500 its outcome is stored. -/
structure Job.Lasts {σ : Type} [Store σ] (hash : String → UInt64) (key : String)
    (leaseMs : UInt64) (router : Router σ) (job : Job) : Prop where
  locked : ∀ index token, job.Holds index token →
    ∃ shard : Shard σ, router.shards[index]? = some shard ∧
      Store.get shard.gateway.engine.store ⟨key⟩ = some (.inProgress token.fence
        (fingerprintOf job.request shard.gateway.fingerprintKey) (saturatingAdd job.nowMs leaseMs))
  stored : ∀ response, job.stage = .answered response true → response.status < 500 →
    ∃ plain, response = tag plain "created" ∧
      router.Keeps hash job.request key (toOutcome plain) job.nowMs

namespace Job

variable {σ : Type} [Store σ] {hash : String → UInt64} {router next : Router σ}
  {back : Option (Except String Response)} {job : Job} {after : Stage} {index : Nat}
  {call : Option EngineCall} {key : String} {leaseMs ttlMs : UInt64}

omit [Store σ] in
/-- A token that is held is for the key of the request, on the shard that owns it. -/
theorem Holds.proper {token : RunToken} (hholds : job.Holds index token)
    (hkey : job.key = some key)
    (hproper : job.stage.Proper (router.Routes hash job.request) job.request) :
    token.key = ⟨key⟩ ∧ router.shardForKey hash key = index := by
  rw [hholds] at hproper
  obtain ⟨-, hroutes, htoken⟩ := hproper
  refine ⟨?_, hroutes.2 key hkey⟩
  have hsame : some token.key.val = some key := htoken.trans hkey
  exact IdempotencyKey.ext (Option.some.inj hsame)

/-- A request that is given a ticket locks its key. -/
theorem Section.locks (hsection : job.Section hash router back after index call)
    (hcarries : router.Carries index call next) (hsetup : router.Setup leaseMs ttlMs)
    (hkey : job.key = some key) (hchanged : job.stage ≠ after) {place : Nat} {token : RunToken}
    (hholds : after = .forwarding place ⟨some token⟩) :
    ∃ shard : Shard σ, next.shards[place]? = some shard ∧
      Store.get shard.gateway.engine.store ⟨key⟩ = some (.inProgress token.fence
        (fingerprintOf job.request shard.gateway.fingerprintKey)
        (saturatingAdd job.nowMs leaseMs)) := by
  obtain ⟨hsame, -⟩ | ⟨-, shard, own, hshard, hown, rfl, haction, rfl, rfl⟩ :=
    hsection.issues hholds
  · exact absurd hsame hchanged
  · obtain rfl := Option.some.inj (hkey.symm.trans hown)
    obtain ⟨last, hlast, hcarried⟩ := hcarries.shards _ shard hshard
    rw [if_pos rfl] at hcarried
    refine ⟨last, hlast, ?_⟩
    rw [hcarried.states, hcarried.fingerprintKey]
    change (shard.gateway.engine.plan _).effect _ _ = _
    rw [Engine.plan, EngineCall.plan_begin_start haction, (hsetup _ shard hshard).1]
    exact if_pos rfl

end Job

namespace Pool

variable {σ : Type} [Store σ] {hash : String → UInt64} {pool next : Pool σ} {event : Event}
  {notice : Option Notice} {key : String} {leaseMs ttlMs startMs : UInt64} {id : Nat}

/-- No round of the pruner comes at or after the deadline. -/
def Event.Spares (deadline : UInt64) (event : Event) : Prop :=
  ∀ index iteration nowMs, event = .prune index iteration nowMs → nowMs < deadline

/-- A call that would let the outcome expire comes after the deadline. -/
theorem Calls.live {index : Nat} {call : Option EngineCall} {deadline : UInt64}
    (hcalls : pool.Calls event index call next) (hevent : event.Spares deadline)
    (hintime : ¬ pool.Overrun key deadline) {made : EngineCall} (hmade : call = some made) :
    ¬ made.Expires ⟨key⟩ deadline := by
  intro hexpires
  cases made with
  | begin begun fingerprint nowMs =>
      obtain ⟨rfl, hlate⟩ := hexpires
      obtain ⟨job, hjob, hkey, rfl⟩ := hcalls.begins _ _ _ hmade
      exact hintime ⟨job, hjob, hkey, hlate⟩
  | complete => exact hexpires
  | flush => exact hexpires
  | pruneExpired iteration nowMs =>
      exact UInt64.not_le.mpr (hevent _ _ _ (hcalls.prunes _ _ hmade)) hexpires

/-- A request that a step does not change goes on to hold its key, or to have its outcome
stored. -/
theorem Calls.lasts {index : Nat} {call : Option EngineCall} {job : Job} {left : Nat}
    (hcalls : pool.Calls event index call next) (hsetup : pool.router.Setup leaseMs ttlMs)
    (hapart : pool.Apart left) (hevent : event.Spares (saturatingAdd job.nowMs ttlMs))
    (hlease : ¬ pool.Overrun key (saturatingAdd job.nowMs leaseMs))
    (httl : ¬ pool.Overrun key (saturatingAdd job.nowMs ttlMs))
    (hjob : pool.jobs[id]? = some job) (hsame : next.jobs[id]? = some job)
    (hlasts : job.Lasts hash key leaseMs pool.router) :
    job.Lasts hash key leaseMs next.router := by
  constructor
  · intro place token hholds
    obtain ⟨shard, hshard, hlocked⟩ := hlasts.locked place token hholds
    obtain ⟨after, hafter, hcarried⟩ := hcalls.carries.shards place shard hshard
    refine ⟨after, hafter, ?_⟩
    rw [hcarried.fingerprintKey]
    apply hcarried.locked hlocked
    intro made hmade
    obtain ⟨rfl, hcall⟩ := Option.ite_none_right_eq_some.mp hmade
    cases made with
    | begin begun fingerprint nowMs =>
        rintro rfl -
        obtain ⟨other, hother, hotherKey, rfl⟩ := hcalls.begins _ _ _ hcall
        by_contra hlate
        exact hlease ⟨other, hother, hotherKey, UInt64.not_lt.mp hlate⟩
    | complete presented outcome nowMs =>
        -- whoever presents this token is the request itself, and is then answered
        rintro rfl
        obtain ⟨rival, other, response, hrival, hrivalHolds, hanswered⟩ :=
          hcalls.completes _ _ _ hcall
        obtain rfl := hapart.distinct id rival job other _ token _ hjob hrival hholds hrivalHolds
          rfl
        cases (Option.some.inj (hsame.symm.trans hanswered)) ▸ hholds
    | flush => exact trivial
    | pruneExpired => exact trivial
  · intro response hstage hstatus
    obtain ⟨plain, hplain, hkeeps⟩ := hlasts.stored response hstage hstatus
    exact ⟨plain, hplain, hcalls.carries.keeps hsetup
      (fun made hmade => hcalls.live hevent httl hmade) hkeeps⟩

end Pool

/-! ## Stored outcomes answer -/

/-- The backend is left alone, and the answer is a denial or the stored one. -/
def Stage.Spared (outcome : CachedOutcome) : Stage → Prop
  | .received => True
  | .scraping .. => False
  | .admitted => True
  | .routed _ => True
  | .forwarding .. => False
  | .answered response called => called = false ∧
      ((∃ rule action, response = tooManyRequests rule action) ∨
        response = tag (fromOutcome outcome) "replayed")

/-- Until it expires, an outcome answers the request it is stored for. -/
theorem Job.Section.spared {σ : Type} [Store σ] {hash : String → UInt64} {router : Router σ}
    {back : Option (Except String Response)} {job : Job} {after : Stage} {index : Nat}
    {call : Option EngineCall} {key : String} {leaseMs ttlMs completedAtMs : UInt64}
    {outcome : CachedOutcome} (hsection : job.Section hash router back after index call)
    (hproper : job.stage.Proper (router.Routes hash job.request) job.request)
    (hproxied : job.request.Proxied) (hkey : job.key = some key)
    (hsetup : router.Setup leaseMs ttlMs)
    (hkeeps : router.Keeps hash job.request key outcome completedAtMs)
    (hfresh : job.nowMs < saturatingAdd completedAtMs ttlMs)
    (hspared : job.stage.Spared outcome) : after.Spared outcome := by
  cases hsection with
  | aside _ haside =>
      cases haside with
      | stays => exact hspared
      | health _ hpath => exact absurd hpath hproxied.1
      | scrapes _ hpath => exact absurd hpath hproxied.2
      | adds _ hstage =>
          rw [hstage] at hspared
          exact hspared.elim
      | scraped _ hstage =>
          rw [hstage] at hspared
          exact hspared.elim
      | denies rule action => exact ⟨rfl, Or.inl ⟨rule, action, rfl⟩⟩
      | admits => exact trivial
      | routes => exact trivial
  | passes _ hnone => cases hnone.symm.trans hkey
  | @decides _ shard own decision hstage hshard hown hanswer =>
      obtain rfl := Option.some.inj (hkey.symm.trans hown)
      obtain ⟨owner, howner, hrecord⟩ := hkeeps
      rw [hstage] at hproper
      rw [hproper.2.2 key hkey] at howner
      cases hshard.symm.trans howner
      rw [← (hsetup index shard hshard).2] at hfresh
      rw [Engine.plan, EngineCall.plan_begin_completed hrecord _ hfresh, if_pos rfl] at hanswer
      cases hanswer
      exact ⟨rfl, Or.inr rfl⟩
  | finishes hstage =>
      rw [hstage] at hspared
      exact hspared.elim

namespace Pool

variable {σ : Type} [Store σ] {hash : String → UInt64} {pool next : Pool σ} {event : Event}
  {notice : Option Notice} {key : String} {leaseMs ttlMs completedAtMs : UInt64} {id : Nat}
  {request : Request} {outcome : CachedOutcome}

/-- Unless a request for the key comes in too late, the outcome is kept, and this request is
answered with it. -/
def Sparing (hash : String → UInt64) (request : Request) (key : String) (outcome : CachedOutcome)
    (ttlMs completedAtMs : UInt64) (id : Nat) (pool : Pool σ) : Prop :=
  pool.Overrun key (saturatingAdd completedAtMs ttlMs) ∨
    pool.router.Keeps hash request key outcome completedAtMs ∧
      ∀ job, pool.jobs[id]? = some job → job.request = request → job.stage.Spared outcome

theorem Moves.sparing (hmoves : pool.Moves hash event notice next) (hproper : pool.Proper hash)
    (hsetup : pool.router.Setup leaseMs ttlMs)
    (hevent : event.Spares (saturatingAdd completedAtMs ttlMs)) (hproxied : request.Proxied)
    (hkey : request.header "idempotency-key" = some key)
    (hsparing : pool.Sparing hash request key outcome ttlMs completedAtMs id) :
    next.Sparing hash request key outcome ttlMs completedAtMs id := by
  by_cases hlate : pool.Overrun key (saturatingAdd completedAtMs ttlMs)
  · exact Or.inl (hlate.step hmoves)
  obtain hlate' | ⟨hkeeps, hspared⟩ := hsparing
  · exact absurd hlate' hlate
  obtain ⟨index, call, hcalls⟩ := hmoves.calls
  refine Or.inr ⟨hcalls.carries.keeps hsetup (fun made hmade => hcalls.live hevent hlate hmade)
    hkeeps, ?_⟩
  rintro job hjob rfl
  obtain ⟨-, hreceived⟩ | hsame | ⟨before, after, back, place, made, hbefore, rfl, hsection, -⟩ :=
    hmoves.jobs hjob
  · rw [hreceived]
    exact trivial
  · exact hspared job hsame rfl
  · have hmem := List.mem_of_getElem? hbefore
    apply hsection.spared (hproper.jobs before hmem) hproxied hkey hsetup hkeeps _
      (hspared before hbefore rfl)
    by_contra hstale
    exact hlate ⟨before, hmem, hkey, UInt64.not_lt.mp hstale⟩

/-! ## Runs -/

variable {before after : List Event} {log more : List (Option Notice)} {middle last : Pool σ}

theorem Moves.setup (hmoves : pool.Moves hash event notice next)
    (hsetup : pool.router.Setup leaseMs ttlMs) : next.router.Setup leaseMs ttlMs := by
  obtain ⟨index, call, hcalls⟩ := hmoves.calls
  exact hcalls.carries.setup hsetup

end Pool

end Onced
