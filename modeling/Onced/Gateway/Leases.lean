import Onced.Gateway.OneAnswer
import Onced.Gateway.Router

/-! # One backend run per lease

The requests that race for a key all go to the shard that owns it, and there their
sections come one after the other. What such a run of sections does to the record
of one key is a small machine: tickets start it, the completion of a ticket stores
an outcome, and a prune may drop the outcome once it has expired.
-/

namespace Onced

open Foundation

/-- The request for which a section handed out a ticket to run the backend. -/
def Handled.ticketed (handled : Handled) : Option (IdempotencyKey × RequestFingerprint × UInt64) :=
  match handled.entry with
  | some (.begin key fingerprint nowMs, .begun (.run _)) => some (key, fingerprint, nowMs)
  | _ => none

/-- The key that a section completed, and when. -/
def Handled.committed (handled : Handled) : Option (IdempotencyKey × UInt64) :=
  match handled.entry with
  | some (.complete token _ nowMs, .completed (.ok _)) => some (token.key, nowMs)
  | _ => none

theorem Handled.ticketed_eq_some {handled : Handled} {key : IdempotencyKey}
    {fingerprint : RequestFingerprint} {nowMs : UInt64}
    (hticketed : handled.ticketed = some (key, fingerprint, nowMs)) :
    ∃ token, handled.entry = some (.begin key fingerprint nowMs, .begun (.run token)) := by
  unfold ticketed at hticketed
  split at hticketed
  next token hentry =>
    cases hticketed
    exact ⟨token, hentry⟩
  next => contradiction

theorem Handled.committed_eq_some {handled : Handled} {key : IdempotencyKey} {nowMs : UInt64}
    (hcommitted : handled.committed = some (key, nowMs)) :
    ∃ token outcome, handled.entry = some (.complete token outcome nowMs, .completed (.ok ())) ∧
      token.key = key := by
  unfold committed at hcommitted
  split at hcommitted
  next token outcome _ _ hentry =>
    cases hcommitted
    exact ⟨token, outcome, hentry, rfl⟩
  next => contradiction

/-- The key an engine call is about, and when it is made. A prune is about all keys. -/
def EngineCall.Concerns (key : IdempotencyKey) (nowMs : UInt64) : EngineCall → Prop
  | .begin begun _ time => begun = key ∧ time = nowMs
  | .complete token _ time => token.key = key ∧ time = nowMs
  | .flush => False
  | .pruneExpired _ time => time = nowMs

namespace Router

/-- A begin of the key or a prune of its shard, at or after the deadline. -/
def Entered.Late (entered : Entered) (owner : Nat) (key : IdempotencyKey) (deadline : UInt64) :
    Prop :=
  entered.index = owner ∧
    ∃ call answer, entered.handled.entry = some (call, answer) ∧ call.Expires key deadline

/-! ## The record of one key -/

section KeySteps

variable (leaseMs ttlMs : UInt64) (owner : Nat) (key : IdempotencyKey) (times : UInt64 → Prop)

/-- What a section does to the record of a key. -/
inductive KeyStep : Option KeyState → Entered → Option KeyState → Prop where
  | rests {current : Option KeyState} {entered : Entered}
      (hticketed : ∀ fingerprint nowMs, entered.handled.ticketed ≠ some (key, fingerprint, nowMs))
      (hcommitted : ∀ nowMs, entered.handled.committed ≠ some (key, nowMs)) :
      KeyStep current entered current
  | starts {current : Option KeyState} {entered : Entered} {fingerprint : RequestFingerprint}
      {nowMs : UInt64} {fence : Fence} (howner : entered.index = owner)
      (hticketed : entered.handled.ticketed = some (key, fingerprint, nowMs))
      (haction : Engine.action ttlMs fingerprint nowMs current = .start) (htime : times nowMs) :
      KeyStep current entered (some (.inProgress fence fingerprint (saturatingAdd nowMs leaseMs)))
  | commits {entered : Entered} {fence : Fence} {fingerprint : RequestFingerprint}
      {leaseExpiresAtMs nowMs : UInt64} {outcome : CachedOutcome}
      (hticketed : entered.handled.ticketed = none)
      (hcommitted : entered.handled.committed = some (key, nowMs)) (htime : times nowMs) :
      KeyStep (some (.inProgress fence fingerprint leaseExpiresAtMs)) entered
        (some (.completed fingerprint outcome nowMs))
  | drops {entered : Entered} {fingerprint : RequestFingerprint} {outcome : CachedOutcome}
      {completedAtMs nowMs : UInt64} {iteration : Iteration} (howner : entered.index = owner)
      (hentry : entered.handled.entry = some (.pruneExpired iteration nowMs, .done))
      (hexpired : saturatingAdd completedAtMs ttlMs ≤ nowMs) (htime : times nowMs) :
      KeyStep (some (.completed fingerprint outcome completedAtMs)) entered none

/-- Sections one after the other, as the record of a key sees them. -/
inductive KeyRun : Option KeyState → List Entered → Option KeyState → Prop where
  | nil (current : Option KeyState) : KeyRun current [] current
  | cons {current next last : Option KeyState} {entered : Entered} {rest : List Entered}
      (first : KeyStep leaseMs ttlMs owner key times current entered next)
      (more : KeyRun next rest last) : KeyRun current (entered :: rest) last

end KeySteps

section Planned

variable {leaseMs ttlMs : UInt64} {owner : Nat} {key : IdempotencyKey} {times : UInt64 → Prop}

/-- An engine call that is carried out as planned moves the record of every key. -/
theorem keyStep_of_plan {entered : Entered} (howner : entered.index = owner) {call : EngineCall}
    (htimes : ∀ nowMs, call.Concerns key nowMs → times nowMs) {nextFence : UInt64}
    {states : IdempotencyKey → Option KeyState}
    (hentry : entered.handled.entry =
      some (call, (call.plan leaseMs ttlMs nextFence states).answer)) :
    KeyStep leaseMs ttlMs owner key times (states key) entered
      ((call.plan leaseMs ttlMs nextFence states).effect key (states key)) := by
  have hplanned := EngineCall.planned leaseMs ttlMs nextFence states call
  generalize call.plan leaseMs ttlMs nextFence states = plan at hplanned hentry ⊢
  cases hplanned with
  | @starts begun fingerprint nowMs haction =>
      simp only [Plan.effect, StoreCall.effect]
      by_cases hkey : begun = key
      · subst hkey
        rw [if_pos rfl]
        exact .starts howner (by simp only [Handled.ticketed, hentry]) haction
          (htimes nowMs ⟨rfl, rfl⟩)
      · rw [if_neg hkey]
        refine .rests (fun other time hticketed => hkey ?_) fun time => ?_
        · simp only [Handled.ticketed, hentry, Option.some.injEq, Prod.mk.injEq] at hticketed
          exact hticketed.1
        · simp [Handled.committed, hentry]
  | replays =>
      exact .rests (by simp [Handled.ticketed, hentry]) (by simp [Handled.committed, hentry])
  | waits =>
      exact .rests (by simp [Handled.ticketed, hentry]) (by simp [Handled.committed, hentry])
  | mismatches =>
      exact .rests (by simp [Handled.ticketed, hentry]) (by simp [Handled.committed, hentry])
  | @commits token fingerprint leaseExpiresAtMs outcome nowMs hstate =>
      have hticketed : entered.handled.ticketed = none := by simp [Handled.ticketed, hentry]
      simp only [Plan.effect, StoreCall.effect]
      by_cases hkey : token.key = key
      · subst hkey
        rw [if_pos rfl, hstate]
        exact .commits hticketed (by simp only [Handled.committed, hentry])
          (htimes nowMs ⟨rfl, rfl⟩)
      · rw [if_neg hkey]
        refine .rests (fun _ _ => by simp [hticketed]) fun time hcommitted => hkey ?_
        simp only [Handled.committed, hentry, Option.some.injEq, Prod.mk.injEq] at hcommitted
        exact hcommitted.1
  | refuses =>
      exact .rests (by simp [Handled.ticketed, hentry]) (by simp [Handled.committed, hentry])
  | flushes =>
      exact .rests (by simp [Handled.ticketed, hentry]) (by simp [Handled.committed, hentry])
  | @prunes iteration nowMs =>
      have hkeeps : ∀ {current}, KeyStep leaseMs ttlMs owner key times current entered current :=
        .rests (by simp [Handled.ticketed, hentry]) (by simp [Handled.committed, hentry])
      simp only [Plan.effect, StoreCall.effect]
      cases states key with
      | none => exact hkeeps
      | some state =>
          cases state with
          | inProgress => exact hkeeps
          | completed fingerprint outcome completedAtMs =>
              by_cases hlive : nowMs < saturatingAdd completedAtMs ttlMs
              · rw [Option.filter_some_pos (by simpa [Engine.keeps] using hlive)]
                exact hkeeps
              · rw [Option.filter_some_neg (by simpa [Engine.keeps] using hlive)]
                exact .drops howner hentry (UInt64.not_lt.mp hlive) (htimes nowMs rfl)

/-- A section of the shard that owns the key moves its record. -/
theorem keyStep_of_plans {σ : Type} [Store σ] {entered : Entered} (howner : entered.index = owner)
    {shard next : Shard σ} (hlease : shard.gateway.engine.leaseMs = leaseMs)
    (httl : shard.gateway.engine.ttlMs = ttlMs) {event : ShardEvent}
    (htimes : ∀ call, shard.call event = some call → ∀ nowMs, call.Concerns key nowMs →
      times nowMs)
    (hplans : shard.Plans event entered.handled next) :
    KeyStep leaseMs ttlMs owner key times (shard.states key) entered (next.states key) := by
  obtain ⟨index, handled⟩ := entered
  cases hplans with
  | passes _ hengine =>
      have hstates : next.states key = shard.states key := by rw [Shard.states, hengine]
      rw [hstates]
      exact .rests (fun _ _ => by simp [Handled.ticketed]) (fun _ => by simp [Handled.committed])
  | returns hcall _ _ _ _ hstates =>
      rw [hstates]
      subst hlease httl
      exact keyStep_of_plan howner (htimes _ hcall) rfl

end Planned

end Router

/-! ## The sections of a shard -/

namespace Shard

variable {σ : Type} [Store σ] [LawfulStore σ] {shard next : Shard σ} {event : ShardEvent}
  {handled : Handled}

omit [LawfulStore σ] in
theorem beginOn_keyless (shard : Shard σ) (io : Io) {request : Request} (nowMs : UInt64)
    (hkey : request.header "idempotency-key" = none) :
    (shard.beginOn io request nowMs).1 = .forwarding ⟨none⟩ := by
  simp only [beginOn, lock, Gateway.beginPhase_keyless_eq shard.gateway io nowMs hkey]

omit [LawfulStore σ] in
theorem Plans.call (hplans : shard.Plans event handled next) {call : EngineCall} {answer : Answer}
    (hentry : handled.entry = some (call, answer)) : shard.call event = some call := by
  cases hplans with
  | passes => cases hentry
  | returns hcall =>
      cases hentry
      exact hcall

omit [LawfulStore σ] in
theorem Does.keeps (hdoes : shard.Does event handled next) :
    shard.Keeps event handled.reply next := by
  cases hdoes with
  | passes _ _ _ hkeeps => exact hkeeps
  | returns _ _ _ _ hkeeps => exact hkeeps
  | panics _ _ _ hkeeps => exact hkeeps

omit [LawfulStore σ] in
/-- A section hands out a token only for the key of its request. -/
theorem header_of_forwarding {io : Io} {request : Request} {nowMs : UInt64}
    (hstep : shard.step (.begin io request nowMs) = .ok (handled, next)) {token : RunToken}
    (hreply : handled.reply = .forwarding ⟨some token⟩) :
    request.header "idempotency-key" = some token.key.val := by
  have hdoes := does_of_step hstep
  cases hkey : request.header "idempotency-key" with
  | none =>
      cases hstep
      cases (shard.beginOn_keyless io nowMs hkey).symm.trans hreply
  | some key =>
      have hcall : shard.call (.begin io request nowMs) = some (.begin ⟨key⟩
          (fingerprintOf request shard.gateway.fingerprintKey) nowMs) := by simp [call, hkey]
      cases hdoes with
      | passes hnone => rw [hcall] at hnone; contradiction
      | returns hsome hrun htells =>
          obtain rfl := Option.some.inj (hcall.symm.trans hsome)
          cases hreply
          cases htells
          obtain ⟨hanswer, -⟩ := Engine.run_eq_ok hrun
          obtain rfl := (EngineCall.plan_begin_run hanswer.symm).2
          rfl
      | panics => cases hreply

omit [LawfulStore σ] in
/-- A ticket under way after a section was under way before, or the section handed it out. -/
theorem mem_forwards_of_step (hstep : shard.step event = .ok (handled, next)) {forward : Forward}
    (hforward : some forward ∈ next.forwards) {token : RunToken}
    (htoken : forward.ticket.token = some token) :
    some forward ∈ shard.forwards ∨ ∃ io request, event = .begin io request forward.nowMs ∧
      request.header "idempotency-key" = some token.key.val := by
  rw [(does_of_step hstep).keeps.forwards] at hforward
  cases event with
  | prune io iteration nowMs => exact Or.inl hforward
  | complete io slot forwarded =>
      exact Or.inl ((List.mem_or_eq_of_mem_set hforward).resolve_right (by simp))
  | begin io request nowMs =>
      cases hreply : handled.reply with
      | forwarding ticket =>
          rw [hreply] at hforward
          rcases List.mem_append.mp hforward with hold | hnew
          · exact Or.inl hold
          · obtain rfl := Option.some.inj (List.mem_singleton.mp hnew)
            obtain ⟨issued⟩ := ticket
            cases htoken
            exact Or.inr ⟨io, request, rfl, header_of_forwarding hstep hreply⟩
      | answered response =>
          rw [hreply] at hforward
          exact Or.inl hforward
      | pruned =>
          rw [hreply] at hforward
          exact Or.inl hforward
      | panicked panic =>
          rw [hreply] at hforward
          exact Or.inl hforward
      | skipped =>
          rw [hreply] at hforward
          exact Or.inl hforward

end Shard

namespace Router

section Sections

variable {σ : Type} [Store σ] (hash : String → UInt64)

/-- The record of a key on the shard that owns it. -/
def keyState (router : Router σ) (key : IdempotencyKey) : Option KeyState :=
  (router.shards[router.shardForKey hash key.val]?).bind fun shard => shard.states key

/-- When an event asks for the key. A prune asks for all keys; a completion comes
with the time its request was captured at. -/
def Event.asks (key : IdempotencyKey) : Event → Option UInt64
  | .begin _ request nowMs =>
      if request.header "idempotency-key" = some key.val then some nowMs else none
  | .complete .. => none
  | .prune _ _ _ nowMs => some nowMs

/-- The shards share one configuration, and a ticket is under way on the shard that
owns its key, with a time at which the key was asked for. -/
structure Routed (leaseMs ttlMs : UInt64) (times : IdempotencyKey → UInt64 → Prop)
    (router : Router σ) : Prop where
  setup : ∀ shard ∈ router.shards,
    shard.gateway.engine.leaseMs = leaseMs ∧ shard.gateway.engine.ttlMs = ttlMs
  forwards : ∀ index shard, router.shards[index]? = some shard →
    ∀ forward, some forward ∈ shard.forwards → ∀ token, forward.ticket.token = some token →
    router.shardForKey hash token.key.val = index ∧ times token.key forward.nowMs

omit [Store σ] in
theorem routeShard_shards (router : Router σ) (request : Request) :
    (router.routeShard hash request).2.shards = router.shards := by
  unfold routeShard
  split <;> rfl

omit [Store σ] in
theorem routeShard_keyed (router : Router σ) {request : Request} {key : String}
    (hkey : request.header "idempotency-key" = some key) :
    (router.routeShard hash request).1 = router.shardForKey hash key := by
  simp only [routeShard, hkey]

variable {hash} {leaseMs ttlMs : UInt64} {times : IdempotencyKey → UInt64 → Prop}
  {router : Router σ}

omit [Store σ] in
theorem enters_shards (router : Router σ) (event : Event) :
    (router.enters hash event).2.2.shards = router.shards := by
  cases event with
  | begin io request nowMs => exact routeShard_shards hash router request
  | complete io index slot forwarded => rfl
  | prune io index iteration nowMs => rfl

omit [Store σ] in
/-- An engine call that is made for a key is made on the shard that owns the key. -/
theorem Routed.concerns (hrouted : Routed hash leaseMs ttlMs times router) {event : Event}
    (htimes : ∀ key nowMs, event.asks key = some nowMs → times key nowMs) {shard : Shard σ}
    (hshard : router.shards[(router.enters hash event).1]? = some shard) {call : EngineCall}
    (hcall : shard.call (router.enters hash event).2.1 = some call) {key : IdempotencyKey}
    {nowMs : UInt64} (hconcerns : call.Concerns key nowMs) :
    times key nowMs ∧ ((∃ iteration, call = .pruneExpired iteration nowMs) ∨
      router.shardForKey hash key.val = (router.enters hash event).1) := by
  cases event with
  | begin io request time =>
      obtain ⟨found, hfound, rfl⟩ := Option.map_eq_some_iff.mp hcall
      obtain ⟨rfl, rfl⟩ := hconcerns
      exact ⟨htimes _ _ (if_pos hfound), Or.inr (routeShard_keyed hash router hfound).symm⟩
  | prune io index iteration time =>
      obtain rfl := Option.some.inj hcall
      obtain rfl := hconcerns
      exact ⟨htimes key _ rfl, Or.inl ⟨iteration, rfl⟩⟩
  | complete io index slot forwarded =>
      simp only [enters, Shard.call] at hcall hshard
      split at hcall
      next forward hslot =>
        obtain ⟨⟨token, response⟩, hcommit, rfl⟩ := Option.map_eq_some_iff.mp hcall
        obtain ⟨rfl, rfl⟩ := hconcerns
        obtain ⟨howner, htime⟩ := hrouted.forwards index shard hshard forward
          (List.mem_of_getElem? hslot) token (ForwardTicket.commit_eq_some hcommit).1
        exact ⟨htime, Or.inr howner⟩
      next => contradiction

omit [Store σ] in
/-- Only a request for the key begins it. -/
theorem asks_of_call {event : Event} {shard : Shard σ} {key : IdempotencyKey}
    {fingerprint : RequestFingerprint} {nowMs : UInt64}
    (hcall : shard.call (router.enters hash event).2.1 = some (.begin key fingerprint nowMs)) :
    event.asks key = some nowMs := by
  cases event with
  | begin io request time =>
      obtain ⟨found, hfound, hsame⟩ := Option.map_eq_some_iff.mp hcall
      cases hsame
      exact if_pos hfound
  | prune io index iteration time => cases hcall
  | complete io index slot forwarded =>
      simp only [enters, Shard.call] at hcall
      split at hcall
      next forward hslot =>
        obtain ⟨_, -, hsame⟩ := Option.map_eq_some_iff.mp hcall
        cases hsame
      next => contradiction

/-- A section on a shard that exists. -/
theorem step_on {event : Event} {shard shardNext : Shard σ} {handled : Handled}
    (hshard : router.shards[(router.enters hash event).1]? = some shard)
    (hstep : shard.step (router.enters hash event).2.1 = .ok (handled, shardNext)) :
    ∃ next, router.step hash event = .ok (⟨(router.enters hash event).1, handled⟩, next) ∧
      next.shards = router.shards.set (router.enters hash event).1 shardNext := by
  cases hstep
  refine ⟨{ (router.enters hash event).2.2 with
    shards := router.shards.set (router.enters hash event).1
      (shard.handle (router.enters hash event).2.1).2 }, ?_, rfl⟩
  simp only [step, enters_shards, hshard]

/-- The possible endings of a step. -/
theorem step_eq (router : Router σ) (event : Event) :
    ∃ entered next, router.step hash event = .ok (entered, next) ∧
      entered.index = (router.enters hash event).1 ∧
      (entered.handled.entry = none ∧ next.shards = router.shards ∨
        ∃ shard shardNext, router.shards[(router.enters hash event).1]? = some shard ∧
          shard.step (router.enters hash event).2.1 = .ok (entered.handled, shardNext) ∧
          next.shards = router.shards.set (router.enters hash event).1 shardNext) := by
  cases hshard : router.shards[(router.enters hash event).1]? with
  | none =>
      have hstep : router.step hash event = .ok (⟨(router.enters hash event).1, .skipped, none⟩,
          (router.enters hash event).2.2) := by simp only [step, enters_shards, hshard]
      exact ⟨_, _, hstep, rfl, Or.inl ⟨rfl, enters_shards router event⟩⟩
  | some shard =>
      obtain ⟨handled, shardNext, hshardStep, -⟩ := shard.step_does (router.enters hash event).2.1
      obtain ⟨next, hstep, hnext⟩ := step_on hshard hshardStep
      exact ⟨_, next, hstep, rfl, Or.inr ⟨shard, shardNext, rfl, hshardStep, hnext⟩⟩

/-- The record of a key after a section on one shard. -/
theorem keyState_set (router : Router σ) {index : Nat} {shard shardNext : Shard σ}
    (hshard : router.shards[index]? = some shard) {next : Router σ}
    (hnext : next.shards = router.shards.set index shardNext) (key : IdempotencyKey) :
    next.keyState hash key = if router.shardForKey hash key.val = index then shardNext.states key
      else router.keyState hash key := by
  have howner : next.shardForKey hash key.val = router.shardForKey hash key.val := by
    simp only [shardForKey, hnext, List.length_set]
  have hbound := (List.getElem?_eq_some_iff.mp hshard).1
  rw [keyState, keyState, howner, hnext]
  by_cases hindex : router.shardForKey hash key.val = index
  · rw [if_pos hindex, hindex, List.getElem?_set_self hbound]
    rfl
  · rw [if_neg hindex, List.getElem?_set_ne (Ne.symm hindex)]

omit [Store σ] in
theorem enters_io (router : Router σ) (event : Event) :
    (router.enters hash event).2.1.io = event.io := by
  cases event <;> rfl

omit [Store σ] in
theorem begin_of_enters {event : Event} {io : Io} {request : Request} {nowMs : UInt64}
    (hevent : (router.enters hash event).2.1 = .begin io request nowMs) :
    event = .begin io request nowMs := by
  cases event with
  | begin => cases hevent; rfl
  | complete => cases hevent
  | prune => cases hevent

/-- A ticket under way after a section was under way on the same shard before, or the
section handed it out on the shard that owns its key. -/
theorem forwards_of_step {event : Event} {entered : Entered} {next : Router σ}
    (hstep : router.step hash event = .ok (entered, next)) {index : Nat} {other : Shard σ}
    (hother : next.shards[index]? = some other) {forward : Forward}
    (hforward : some forward ∈ other.forwards) {token : RunToken}
    (htoken : forward.ticket.token = some token) :
    (∃ shard, router.shards[index]? = some shard ∧ some forward ∈ shard.forwards) ∨
      ∃ io request, event = .begin io request forward.nowMs ∧
        request.header "idempotency-key" = some token.key.val ∧
        router.shardForKey hash token.key.val = index := by
  obtain ⟨_, _, hsame, -, ⟨-, hshards⟩ | ⟨shard, shardNext, hshard, hshardStep, hshards⟩⟩ :=
    router.step_eq event
  · cases hstep.symm.trans hsame
    exact Or.inl ⟨other, hshards ▸ hother, hforward⟩
  · cases hstep.symm.trans hsame
    rw [hshards] at hother
    by_cases hhere : (router.enters hash event).1 = index
    · subst hhere
      rw [List.getElem?_set_self (List.getElem?_eq_some_iff.mp hshard).1] at hother
      obtain rfl := Option.some.inj hother
      rcases Shard.mem_forwards_of_step hshardStep hforward htoken with
        hold | ⟨io, request, hevent, hkey⟩
      · exact Or.inl ⟨shard, hshard, hold⟩
      · obtain rfl := begin_of_enters hevent
        exact Or.inr ⟨io, request, rfl, hkey, (routeShard_keyed hash router hkey).symm⟩
    · rw [List.getElem?_set_ne hhere] at hother
      exact Or.inl ⟨other, hother, hforward⟩

/-- Whatever a section does on one shard, it does not do it to a key of another. -/
theorem Routed.keyStep_elsewhere (hrouted : Routed hash leaseMs ttlMs times router) {event : Event}
    (htimes : ∀ key nowMs, event.asks key = some nowMs → times key nowMs)
    {shard shardNext : Shard σ} (hshard : router.shards[(router.enters hash event).1]? = some shard)
    {entered : Entered}
    (hplans : shard.Plans (router.enters hash event).2.1 entered.handled shardNext)
    {key : IdempotencyKey}
    (howner : router.shardForKey hash key.val ≠ (router.enters hash event).1)
    (current : Option KeyState) :
    KeyStep leaseMs ttlMs (router.shardForKey hash key.val) key (times key) current entered
      current := by
  have hother : ∀ call answer nowMs, entered.handled.entry = some (call, answer) →
      call.Concerns key nowMs → ∃ iteration, call = .pruneExpired iteration nowMs := by
    intro call answer nowMs hentry hconcerns
    have hcall := hplans.call hentry
    exact (hrouted.concerns htimes hshard hcall hconcerns).2.resolve_right howner
  refine .rests (fun fingerprint nowMs hticketed => ?_) fun nowMs hcommitted => ?_
  · obtain ⟨token, hentry⟩ := Handled.ticketed_eq_some hticketed
    obtain ⟨_, hprune⟩ := hother _ _ nowMs hentry ⟨rfl, rfl⟩
    cases hprune
  · obtain ⟨token, outcome, hentry, hkey⟩ := Handled.committed_eq_some hcommitted
    obtain ⟨_, hprune⟩ := hother _ _ nowMs hentry ⟨hkey, rfl⟩
    cases hprune

/-- A section on a lawful store, with I/O that succeeds, moves the record of every
key, and the router stays routed. -/
theorem Routed.step [LawfulStore σ] (hrouted : Routed hash leaseMs ttlMs times router)
    {event : Event} (hdone : event.io = .done)
    (htimes : ∀ key nowMs, event.asks key = some nowMs → times key nowMs) :
    ∃ entered next, router.step hash event = .ok (entered, next) ∧
      (∀ key, KeyStep leaseMs ttlMs (router.shardForKey hash key.val) key (times key)
        (router.keyState hash key) entered (next.keyState hash key)) ∧
      Routed hash leaseMs ttlMs times next ∧ next.shards.length = router.shards.length ∧
      ∀ key fingerprint nowMs, entered.handled.ticketed = some (key, fingerprint, nowMs) →
        event.asks key = some nowMs := by
  obtain ⟨entered, next, hstep, hindex, ⟨hentry, hshards⟩ |
    ⟨shard, shardNext, hshard, hshardStep, hshards⟩⟩ := router.step_eq event
  · refine ⟨entered, next, hstep, fun key => ?_, ⟨?_, ?_⟩, by rw [hshards],
      by simp [Handled.ticketed, hentry]⟩
    · have hsame : next.keyState hash key = router.keyState hash key := by
        simp only [keyState, shardForKey, hshards]
      rw [hsame]
      exact .rests (fun _ _ => by simp [Handled.ticketed, hentry])
        (fun _ => by simp [Handled.committed, hentry])
    · rw [hshards]
      exact hrouted.setup
    · simp only [shardForKey, hshards]
      exact hrouted.forwards
  · have hshardDone : (router.enters hash event).2.1.io = .done :=
      (enters_io router event).trans hdone
    obtain ⟨_, _, hsame, hplans⟩ := shard.step_plans hshardDone
    cases hshardStep.symm.trans hsame
    have hsetup := hplans.sameSetup
    obtain ⟨hlease, httl⟩ := hrouted.setup shard (List.mem_of_getElem? hshard)
    refine ⟨entered, next, hstep, fun key => ?_, ⟨?_, ?_⟩, by rw [hshards, List.length_set],
      fun key fingerprint nowMs hticketed => ?_⟩
    · rw [keyState_set router hshard hshards key]
      by_cases howner : router.shardForKey hash key.val = (router.enters hash event).1
      · have hcurrent : router.keyState hash key = shard.states key := by
          rw [keyState, howner, hshard]
          rfl
        rw [if_pos howner, hcurrent]
        exact keyStep_of_plans (hindex.trans howner.symm) hlease httl
          (fun _ hcall _ hconcerns => (hrouted.concerns htimes hshard hcall hconcerns).1) hplans
      · rw [if_neg howner]
        exact hrouted.keyStep_elsewhere htimes hshard hplans howner _
    · intro other hother
      rw [hshards] at hother
      rcases List.mem_or_eq_of_mem_set hother with hold | rfl
      · exact hrouted.setup other hold
      · exact ⟨hsetup.leaseMs.trans hlease, hsetup.ttlMs.trans httl⟩
    · intro index other hother forward hforward token htoken
      have howner : next.shardForKey hash token.key.val =
          router.shardForKey hash token.key.val := by
        simp only [shardForKey, hshards, List.length_set]
      rw [howner]
      rcases forwards_of_step hstep hother hforward htoken with
        ⟨before, hbefore, hold⟩ | ⟨io, request, rfl, hkey, hplace⟩
      · exact hrouted.forwards index before hbefore forward hold token htoken
      · exact ⟨hplace, htimes _ _ (if_pos hkey)⟩
    · obtain ⟨token, hentry⟩ := Handled.ticketed_eq_some hticketed
      exact asks_of_call (hplans.call hentry)

/-- The section hands out a ticket for the key. -/
def Entered.runs (key : IdempotencyKey) (entered : Entered) : Bool :=
  entered.handled.ticketed.map Prod.fst = some key

omit [Store σ] in
theorem Entered.runs_eq_true {key : IdempotencyKey} {entered : Entered}
    (hruns : entered.runs key = true) :
    ∃ fingerprint nowMs, entered.handled.ticketed = some (key, fingerprint, nowMs) := by
  obtain ⟨⟨_, fingerprint, nowMs⟩, hticketed, rfl⟩ :=
    Option.map_eq_some_iff.mp (of_decide_eq_true hruns)
  exact ⟨fingerprint, nowMs, hticketed⟩

omit [Store σ] in
theorem Entered.not_runs {key : IdempotencyKey} {entered : Entered} (hnone : ∀ fingerprint nowMs,
    entered.handled.ticketed ≠ some (key, fingerprint, nowMs)) : ¬ entered.runs key = true := by
  intro hruns
  obtain ⟨fingerprint, nowMs, hticketed⟩ := Entered.runs_eq_true hruns
  exact hnone fingerprint nowMs hticketed

/-- The sections run through, the record of every key moves along, and there are no
more tickets for a key than there are events that ask for it. -/
theorem Routed.run [LawfulStore σ] (hrouted : Routed hash leaseMs ttlMs times router)
    {events : List Event} (hdone : ∀ event ∈ events, event.io = .done)
    (htimes : ∀ event ∈ events, ∀ key nowMs, event.asks key = some nowMs → times key nowMs) :
    ∃ log last, runSteps (Router.step hash) router events = .ok (log, last) ∧
      ∀ key, KeyRun leaseMs ttlMs (router.shardForKey hash key.val) key (times key)
          (router.keyState hash key) log (last.keyState hash key) ∧
        log.countP (Entered.runs key) ≤ (events.filterMap (Event.asks key)).length := by
  induction events generalizing router with
  | nil => exact ⟨[], router, rfl, fun key => ⟨.nil _, le_rfl⟩⟩
  | cons event events ih =>
      obtain ⟨entered, next, hstep, hfirst, hnext, hlength, hasks⟩ :=
        hrouted.step (hdone event List.mem_cons_self) (htimes event List.mem_cons_self)
      obtain ⟨log, last, hrun, hrest⟩ :=
        ih hnext (fun other hother => hdone other (List.mem_cons_of_mem _ hother))
          (fun other hother => htimes other (List.mem_cons_of_mem _ hother))
      refine ⟨entered :: log, last, ?_, fun key => ⟨.cons (hfirst key) ?_, ?_⟩⟩
      · rw [runSteps_cons_ok hstep, hrun]
        rfl
      · have howner : next.shardForKey hash key.val = router.shardForKey hash key.val := by
          simp only [shardForKey, hlength]
        rw [← howner]
        exact (hrest key).1
      · have hcount := (hrest key).2
        cases hruns : entered.runs key with
        | true =>
            obtain ⟨fingerprint, nowMs, hticketed⟩ := Entered.runs_eq_true hruns
            rw [List.countP_cons_of_pos hruns,
              List.filterMap_cons_some (hasks key fingerprint nowMs hticketed), List.length_cons]
            exact Nat.succ_le_succ hcount
        | false =>
            rw [List.countP_cons_of_neg (by simp [hruns])]
            refine hcount.trans (List.Sublist.length_le ?_)
            exact (List.sublist_cons_self event events).filterMap _

end Sections

/-! ## Successive tickets -/

namespace KeyRun

variable {leaseMs ttlMs : UInt64} {owner : Nat} {key : IdempotencyKey} {times : UInt64 → Prop}
  {current last : Option KeyState} {fingerprint : RequestFingerprint} {outcome : CachedOutcome}

theorem split {first second : List Entered}
    (hrun : KeyRun leaseMs ttlMs owner key times current (first ++ second) last) :
    ∃ middle, KeyRun leaseMs ttlMs owner key times current first middle ∧
      KeyRun leaseMs ttlMs owner key times middle second last := by
  induction first generalizing current with
  | nil => exact ⟨current, .nil current, hrun⟩
  | cons entered first ih =>
      cases hrun with
      | cons hstep hrest =>
          obtain ⟨middle, hfirst, hsecond⟩ := ih hrest
          exact ⟨middle, .cons hstep hfirst, hsecond⟩

/-- Without a ticket and without a completion the key stays locked. -/
theorem locked {log : List Entered} {fence : Fence} {leaseExpiresAtMs : UInt64}
    (hrun : KeyRun leaseMs ttlMs owner key times
      (some (.inProgress fence fingerprint leaseExpiresAtMs)) log last)
    (htickets : ∀ entered ∈ log, ∀ other nowMs,
      entered.handled.ticketed ≠ some (key, other, nowMs))
    (hcommits : ∀ entered ∈ log, ∀ nowMs, entered.handled.committed ≠ some (key, nowMs)) :
    last = some (.inProgress fence fingerprint leaseExpiresAtMs) := by
  generalize hcurrent : some (KeyState.inProgress fence fingerprint leaseExpiresAtMs) = current
    at hrun
  induction hrun with
  | nil current => rfl
  | cons first more ih =>
      have hrest := ih (fun other hother => htickets other (List.mem_cons_of_mem _ hother))
        (fun other hother => hcommits other (List.mem_cons_of_mem _ hother))
      cases first with
      | rests => exact hrest hcurrent
      | starts _ hticketed => exact absurd hticketed (htickets _ List.mem_cons_self _ _)
      | commits _ hcommitted => exact absurd hcommitted (hcommits _ List.mem_cons_self _)
      | drops => cases hcurrent

/-- Without a ticket the outcome stays stored, until something late comes along. -/
theorem stored {log : List Entered} {completedAtMs : UInt64}
    (hrun : KeyRun leaseMs ttlMs owner key times
      (some (.completed fingerprint outcome completedAtMs)) log last)
    (htickets : ∀ entered ∈ log, ∀ other nowMs,
      entered.handled.ticketed ≠ some (key, other, nowMs)) :
    (∃ late ∈ log, late.Late owner key (saturatingAdd completedAtMs ttlMs)) ∨
      last = some (.completed fingerprint outcome completedAtMs) := by
  generalize hcurrent : some (KeyState.completed fingerprint outcome completedAtMs) = current
    at hrun
  induction hrun with
  | nil current => exact Or.inr rfl
  | cons first more ih =>
      have hrest := ih (fun other hother => htickets other (List.mem_cons_of_mem _ hother))
      cases first with
      | rests =>
          rcases hrest hcurrent with ⟨late, hmem, hlate⟩ | hlast
          · exact Or.inl ⟨late, List.mem_cons_of_mem _ hmem, hlate⟩
          · exact Or.inr hlast
      | starts _ hticketed => exact absurd hticketed (htickets _ List.mem_cons_self _ _)
      | commits => cases hcurrent
      | drops howner hentry hexpired =>
          cases hcurrent
          exact Or.inl ⟨_, List.mem_cons_self, howner, _, _, hentry, hexpired⟩

/-- A section that hands out a ticket locks the key. -/
theorem start_of_ticketed {entered : Entered} {rest : List Entered} {nowMs : UInt64}
    (hrun : KeyRun leaseMs ttlMs owner key times current (entered :: rest) last)
    (hticketed : entered.handled.ticketed = some (key, fingerprint, nowMs)) :
    entered.index = owner ∧ Engine.action ttlMs fingerprint nowMs current = .start ∧
      times nowMs ∧ ∃ fence, KeyRun leaseMs ttlMs owner key times
        (some (.inProgress fence fingerprint (saturatingAdd nowMs leaseMs))) rest last := by
  cases hrun with
  | cons first more =>
      cases first with
      | rests hnone => exact absurd hticketed (hnone _ _)
      | starts howner hother haction htime =>
          cases hother.symm.trans hticketed
          exact ⟨howner, haction, htime, _, more⟩
      | commits hnone => cases hnone.symm.trans hticketed
      | drops _ hentry => simp [Handled.ticketed, hentry] at hticketed

/-- A section that completes the key stores an outcome. -/
theorem commit_of_committed {entered : Entered} {rest : List Entered} {nowMs : UInt64}
    (hrun : KeyRun leaseMs ttlMs owner key times current (entered :: rest) last)
    (hcommitted : entered.handled.committed = some (key, nowMs)) :
    ∃ fingerprint outcome, KeyRun leaseMs ttlMs owner key times
      (some (.completed fingerprint outcome nowMs)) rest last := by
  cases hrun with
  | cons first more =>
      cases first with
      | rests _ hnone => exact absurd hcommitted (hnone _)
      | starts _ hticketed =>
          obtain ⟨token, hentry⟩ := Handled.ticketed_eq_some hticketed
          simp [Handled.committed, hentry] at hcommitted
      | commits _ hother =>
          cases hother.symm.trans hcommitted
          exact ⟨_, _, more⟩
      | drops _ hentry => simp [Handled.committed, hentry] at hcommitted

/-- Two successive tickets: without a completion in between the first lease has run
out and the requests are the same; a completion in between has expired. -/
theorem successive {before middle after : List Entered} {first second : Entered}
    {firstFingerprint secondFingerprint : RequestFingerprint} {firstMs secondMs : UInt64}
    (hrun : KeyRun leaseMs ttlMs owner key times current
      (before ++ first :: (middle ++ second :: after)) last)
    (hfirst : first.handled.ticketed = some (key, firstFingerprint, firstMs))
    (hsecond : second.handled.ticketed = some (key, secondFingerprint, secondMs))
    (hnone : ∀ entered ∈ middle, ∀ other nowMs,
      entered.handled.ticketed ≠ some (key, other, nowMs)) :
    ((∀ entered ∈ middle, ∀ nowMs, entered.handled.committed ≠ some (key, nowMs)) →
      saturatingAdd firstMs leaseMs ≤ secondMs ∧ firstFingerprint = secondFingerprint) ∧
    ∀ left commit right completedAtMs, middle = left ++ commit :: right →
      commit.handled.committed = some (key, completedAtMs) →
      ∃ late ∈ right ++ [second], late.Late owner key (saturatingAdd completedAtMs ttlMs) := by
  obtain ⟨_, -, hfrom⟩ := hrun.split
  obtain ⟨-, -, -, fence, hlocked⟩ := hfrom.start_of_ticketed hfirst
  obtain ⟨state, hmiddle, hsecondRun⟩ := hlocked.split
  obtain ⟨howner, haction, -⟩ := hsecondRun.start_of_ticketed hsecond
  constructor
  · intro hcommits
    rw [hmiddle.locked hnone hcommits] at haction
    obtain ⟨hsame, hexpired⟩ := Engine.action_inProgress_eq_start haction
    exact ⟨hexpired, hsame⟩
  · rintro left commit right completedAtMs rfl hcommitted
    obtain ⟨_, -, hcommitRun⟩ := hmiddle.split
    obtain ⟨fingerprint, outcome, hright⟩ := hcommitRun.commit_of_committed hcommitted
    have hrightNone : ∀ entered ∈ right, ∀ other nowMs,
        entered.handled.ticketed ≠ some (key, other, nowMs) := fun entered hentered =>
      hnone entered (List.mem_append_right _ (List.mem_cons_of_mem _ hentered))
    rcases hright.stored hrightNone with ⟨late, hmem, hlate⟩ | hstored
    · exact ⟨late, List.mem_append_left _ hmem, hlate⟩
    · rw [hstored] at haction
      obtain ⟨token, hentry⟩ := Handled.ticketed_eq_some hsecond
      refine ⟨second, List.mem_append_right _ (List.mem_singleton_self second), howner, _, _,
        hentry, rfl, ?_⟩
      exact Engine.action_completed_eq_start haction

end KeyRun

/-! ## Requests close in time -/

/-- The two times differ by less than the lease and by less than the time to live. -/
def Near (leaseMs ttlMs one other : UInt64) : Prop :=
  max one.toNat other.toNat < min one.toNat other.toNat + min leaseMs.toNat ttlMs.toNat

instance (leaseMs ttlMs one other : UInt64) : Decidable (Near leaseMs ttlMs one other) :=
  inferInstanceAs (Decidable (_ < _))

instance (leaseMs ttlMs : UInt64) : Std.Symm (Near leaseMs ttlMs) where
  symm one other hnear := by
    unfold Near at *
    omega

/-- Of several times that are pairwise near, each is near itself as well. -/
theorem near_of_pairwise {leaseMs ttlMs : UInt64} {times : List UInt64}
    (hnear : times.Pairwise (Near leaseMs ttlMs)) (hlength : 1 < times.length) {one other : UInt64}
    (hone : one ∈ times) (hother : other ∈ times) : Near leaseMs ttlMs one other := by
  by_cases hsame : one = other
  · subst hsame
    obtain ⟨first, second, hfirst⟩ : ∃ first second, Near leaseMs ttlMs first second := by
      match times, hlength with
      | first :: second :: rest, _ =>
          exact ⟨first, second, (List.pairwise_cons.mp hnear).1 second List.mem_cons_self⟩
    unfold Near at *
    omega
  · exact hnear.forall hone hother hsame

/-- The record was written at one of the times. -/
def Recent (leaseMs : UInt64) (times : UInt64 → Prop) : KeyState → Prop
  | .inProgress _ _ leaseExpiresAtMs =>
      ∃ nowMs, times nowMs ∧ leaseExpiresAtMs = saturatingAdd nowMs leaseMs
  | .completed _ _ completedAtMs => times completedAtMs

section Close

variable {leaseMs ttlMs : UInt64} {times : UInt64 → Prop}
  (hclose : ∀ one other, times one → times other → Near leaseMs ttlMs one other)
  (hbefore : ∀ one, times one → one.toNat < 2 ^ 64 - 1)

include hclose hbefore

theorem not_saturatingAdd_le {one other spanMs : UInt64}
    (hspan : min leaseMs.toNat ttlMs.toNat ≤ spanMs.toNat)
    (hone : times one) (hother : times other) : ¬ saturatingAdd other spanMs ≤ one := by
  have hnear := hclose one other hone hother
  have hlast := hbefore one hone
  unfold Near at hnear
  rw [UInt64.le_iff_toNat_le, saturatingAdd_toNat]
  omega

/-- A recent record never gives way to a new run. -/
theorem not_start {state : KeyState} (hrecent : Recent leaseMs times state)
    {fingerprint : RequestFingerprint} {nowMs : UInt64} (hnow : times nowMs) :
    Engine.action ttlMs fingerprint nowMs (some state) ≠ .start := by
  intro haction
  cases state with
  | inProgress fence stored leaseExpiresAtMs =>
      obtain ⟨start, hstart, rfl⟩ := hrecent
      exact not_saturatingAdd_le hclose hbefore (min_le_left _ _) hnow hstart
        (Engine.action_inProgress_eq_start haction).2
  | completed stored outcome completedAtMs =>
      exact not_saturatingAdd_le hclose hbefore (min_le_right _ _) hnow hrecent
        (Engine.action_completed_eq_start haction)

variable {owner : Nat} {key : IdempotencyKey}

/-- While a recent record stands, no ticket is handed out. -/
theorem KeyRun.no_ticket {log : List Entered} {state : KeyState} {last : Option KeyState}
    (hrun : KeyRun leaseMs ttlMs owner key times (some state) log last)
    (hrecent : Recent leaseMs times state) : log.countP (Entered.runs key) = 0 := by
  generalize hcurrent : some state = current at hrun
  induction hrun generalizing state with
  | nil current => rfl
  | cons first more ih =>
      cases first with
      | rests hnone =>
          rw [List.countP_cons_of_neg (Entered.not_runs hnone)]
          exact ih hrecent hcurrent
      | starts _ _ haction htime =>
          subst hcurrent
          exact absurd haction (not_start hclose hbefore hrecent htime)
      | commits hnone _ htime =>
          rw [List.countP_cons_of_neg (by simp [Entered.runs, hnone])]
          refine ih ?_ rfl
          exact htime
      | drops _ _ hexpired htime =>
          cases hcurrent
          exact absurd hexpired (not_saturatingAdd_le hclose hbefore
            (min_le_right _ _) htime hrecent)

/-- From an unknown key on, there is one ticket at most. -/
theorem KeyRun.one_ticket {log : List Entered} {last : Option KeyState}
    (hrun : KeyRun leaseMs ttlMs owner key times none log last) :
    log.countP (Entered.runs key) ≤ 1 := by
  generalize hcurrent : none = current at hrun
  induction hrun with
  | nil current => simp
  | cons first more ih =>
      cases first with
      | rests hnone =>
          rw [List.countP_cons_of_neg (Entered.not_runs hnone)]
          exact ih hcurrent
      | starts _ hticketed _ htime =>
          rw [List.countP_cons_of_pos (by simp [Entered.runs, hticketed]),
            more.no_ticket hclose hbefore ⟨_, htime, rfl⟩]
      | commits => cases hcurrent
      | drops => cases hcurrent

end Close

/-! ## The runs of a router -/

section Runs

variable {σ : Type} [Store σ] {gateways : List (Gateway σ)} {abuse : List Abuse.RuleSet}
  {router : Router σ}

omit [Store σ] in
theorem new_eq_ok (hnew : Router.new gateways abuse = .ok router) :
    gateways ≠ [] ∧ abuse ≠ [] ∧ router = ⟨gateways.map .fresh, abuse, 0, 0⟩ := by
  unfold Router.new at hnew
  split at hnew
  next => contradiction
  next hshards =>
    split at hnew
    next => contradiction
    next habuse =>
      cases hnew
      exact ⟨by simpa using hshards, by simpa using habuse, rfl⟩

omit [Store σ] in
theorem shards_of_new (hnew : Router.new gateways abuse = .ok router) :
    router.shards = gateways.map .fresh := by
  rw [(new_eq_ok hnew).2.2]

omit [Store σ] in
/-- At the start no request is under way. -/
theorem routed_of_new (hash : String → UInt64) (hnew : Router.new gateways abuse = .ok router)
    {leaseMs ttlMs : UInt64} (hsetup : ∀ gateway ∈ gateways,
      gateway.engine.leaseMs = leaseMs ∧ gateway.engine.ttlMs = ttlMs)
    (times : IdempotencyKey → UInt64 → Prop) : Routed hash leaseMs ttlMs times router := by
  have hshards := shards_of_new hnew
  constructor
  · intro shard hshard
    rw [hshards] at hshard
    obtain ⟨gateway, hgateway, rfl⟩ := List.mem_map.mp hshard
    exact hsetup gateway hgateway
  · intro index shard hshard forward hforward
    have hmem := List.mem_of_getElem? hshard
    rw [hshards] at hmem
    obtain ⟨gateway, -, rfl⟩ := List.mem_map.mp hmem
    cases hforward

theorem keyState_of_new (hash : String → UInt64) (hnew : Router.new gateways abuse = .ok router)
    {key : IdempotencyKey}
    (hempty : ∀ gateway ∈ gateways, Store.get gateway.engine.store key = none) :
    router.keyState hash key = none := by
  apply Option.bind_eq_none_iff.mpr
  intro shard hshard
  have hmem := List.mem_of_getElem? hshard
  rw [shards_of_new hnew] at hmem
  obtain ⟨gateway, hgateway, rfl⟩ := List.mem_map.mp hmem
  exact hempty gateway hgateway

/-- At most one backend run per lease, under any interleaving of the sections. Of
two successive tickets for a key without a completion in between, the second is for
the same request and comes once the first lease has run out; if the key was
completed in between, something came along after the outcome had expired. From empty
stores, and with all times close together and before the last instant of the clock,
the backend runs at most once for the key. -/
theorem one_run_per_lease [LawfulStore σ] (hash : String → UInt64)
    (hnew : Router.new gateways abuse = .ok router) {leaseMs ttlMs : UInt64}
    (hsetup : ∀ gateway ∈ gateways,
      gateway.engine.leaseMs = leaseMs ∧ gateway.engine.ttlMs = ttlMs)
    {events : List Event} (hdone : ∀ event ∈ events, event.io = .done) (key : IdempotencyKey) :
    ∃ log last, runSteps (Router.step hash) router events = .ok (log, last) ∧
      (∀ before first middle second after firstFingerprint firstMs secondFingerprint secondMs,
        log = before ++ first :: (middle ++ second :: after) →
        first.handled.ticketed = some (key, firstFingerprint, firstMs) →
        second.handled.ticketed = some (key, secondFingerprint, secondMs) →
        (∀ entered ∈ middle, entered.runs key = false) →
        ((∀ entered ∈ middle, ∀ nowMs, entered.handled.committed ≠ some (key, nowMs)) →
          saturatingAdd firstMs leaseMs ≤ secondMs ∧ firstFingerprint = secondFingerprint) ∧
        ∀ left commit right completedAtMs, middle = left ++ commit :: right →
          commit.handled.committed = some (key, completedAtMs) →
          ∃ late ∈ right ++ [second],
            late.Late (router.shardForKey hash key.val) key (saturatingAdd completedAtMs ttlMs)) ∧
      ((∀ gateway ∈ gateways, Store.get gateway.engine.store key = none) →
        (events.filterMap (Event.asks key)).Pairwise (Near leaseMs ttlMs) →
        (∀ nowMs ∈ events.filterMap (Event.asks key), nowMs.toNat < 2 ^ 64 - 1) →
        log.countP (Entered.runs key) ≤ 1) := by
  have hrouted := routed_of_new hash hnew hsetup fun key nowMs =>
    nowMs ∈ events.filterMap (Event.asks key)
  obtain ⟨log, last, hrun, hkeys⟩ := hrouted.run hdone fun event hevent key nowMs hasks =>
    List.mem_filterMap.mpr ⟨event, hevent, hasks⟩
  obtain ⟨hkey, hcount⟩ := hkeys key
  refine ⟨log, last, hrun, ?_, fun hempty hnear hlast => ?_⟩
  · rintro before first middle second after firstFingerprint firstMs secondFingerprint secondMs rfl
      hfirst hsecond hnone
    refine hkey.successive hfirst hsecond fun entered hentered other nowMs hticketed => ?_
    have hquiet := hnone entered hentered
    simp [Entered.runs, hticketed] at hquiet
  · rw [keyState_of_new hash hnew hempty] at hkey
    -- a single event for the key cannot be compared with itself
    by_cases hone : (events.filterMap (Event.asks key)).length ≤ 1
    · exact hcount.trans hone
    · refine hkey.one_ticket (fun one other hmem hother => ?_) hlast
      exact near_of_pairwise hnear (not_le.mp hone) hmem hother

end Runs

/-! ## A router of desks -/

/-- Gateways in memory with a lease of 10 and a time to live of 100. -/
def desks (count : Nat) : List (Gateway MemoryStore) :=
  List.replicate count (.new (.withTtl .new 10 100))

theorem desks_setup {count : Nat} {gateway : Gateway MemoryStore}
    (hgateway : gateway ∈ desks count) :
    gateway.engine.leaseMs = 10 ∧ gateway.engine.ttlMs = 100 ∧
      ∀ key, Store.get gateway.engine.store key = none := by
  obtain ⟨-, rfl⟩ := List.mem_replicate.mp hgateway
  exact ⟨rfl, rfl, fun key => by simp [Gateway.new, Engine.withTtl, MemoryStore.new]⟩

/-- Three requests for one key, the first of them back from the backend before the
last one comes, and a prune. -/
def jostling : List Event :=
  [.begin .done charge 3, .begin .done charge 0, .complete .done 1 0 (.ok ⟨200, [], [2]⟩),
    .prune .done 1 .listed 5, .begin .done charge 7]

theorem one_run_per_lease_charge :
    ∃ router log last, Router.new (desks 2) [.new] = .ok router ∧
      runSteps (Router.step fun _ => 7) router jostling = .ok (log, last) ∧
      log.countP (Entered.runs ⟨"k"⟩) ≤ 1 := by
  have hnew : Router.new (desks 2) [.new] = .ok ⟨(desks 2).map .fresh, [.new], 0, 0⟩ := rfl
  obtain ⟨log, last, hrun, -, honce⟩ := one_run_per_lease (fun _ => 7) hnew
    (fun _ hgateway => have hsetup := desks_setup hgateway; ⟨hsetup.1, hsetup.2.1⟩)
    (show ∀ event ∈ jostling, event.io = .done by simp [jostling, Event.io]) ⟨"k"⟩
  have hasked : jostling.filterMap (Event.asks ⟨"k"⟩) = [3, 0, 5, 7] := by
    simp [jostling, Event.asks, charge_key, List.filterMap_cons]
  rw [hasked] at honce
  refine ⟨_, log, last, hnew, hrun, honce (fun _ hgateway => (desks_setup hgateway).2.2 _) ?_ ?_⟩
  · decide
  · simp

/-- A step of a router with a single shard. -/
theorem step_alone {σ : Type} [Store σ] {router : Router σ} {shard next : Shard σ}
    (hshard : router.shards = [shard]) (hash : String → UInt64) {request : Request} {key : String}
    (hkey : request.header "idempotency-key" = some key) {io : Io} {nowMs : UInt64}
    {handled : Handled} (hstep : shard.step (.begin io request nowMs) = .ok (handled, next)) :
    router.step hash (.begin io request nowMs) =
      .ok (⟨0, handled⟩, { router with shards := [next] }) := by
  cases hstep
  simp [step, enters, routeShard, hkey, shardForKey, hshard, Nat.mod_one]

def lastInstant : UInt64 := UInt64.ofNat (2 ^ 64 - 1)

/-- At the last instant of the clock every lease has run out: two requests at that
instant both run the backend. -/
theorem two_runs_at_last_instant :
    ∃ router log last, Router.new (desks 1) [.new] = .ok router ∧
      runSteps (Router.step fun _ => 7) router
        [.begin .done charge lastInstant, .begin .done charge lastInstant] = .ok (log, last) ∧
      Near 10 100 lastInstant lastInstant ∧ log.countP (Entered.runs ⟨"k"⟩) = 2 := by
  have hnew : Router.new (desks 1) [.new] = .ok ⟨[desk], [.new], 0, 0⟩ := rfl
  obtain ⟨one, hbegin, hsetup, hstate, -⟩ := desk.step_starts lastInstant charge_key rfl
  have haction : Engine.action one.gateway.engine.ttlMs
      (fingerprintOf charge one.gateway.fingerprintKey) lastInstant (one.states ⟨"k"⟩) =
        .start := by
    rw [hstate, hsetup.fingerprintKey]
    exact Engine.action_takeover (by decide) _ _ _
  obtain ⟨two, htakeover, -⟩ := one.step_starts lastInstant charge_key haction
  have hfirst := @step_alone _ _ ⟨[desk], [.new], 0, 0⟩ _ _ rfl
    (fun _ => 7) _ _ charge_key _ _ _ hbegin
  have hsecond :=
    @step_alone _ _ ⟨[one], [.new], 0, 0⟩ _ _ rfl (fun _ => 7) _ _ charge_key _ _ _ htakeover
  have hpath : Path (fun router event entered next =>
      Router.step (fun _ => 7) router event = .ok (entered, next)) _ _ _ _ :=
    .cons hfirst (.cons hsecond (.nil _))
  exact ⟨_, _, _, hnew, runSteps_of_path hpath, by decide, by simp [Entered.runs, Handled.ticketed]⟩

end Router

end Onced
