import Onced.Gateway.Leases

/-! # Every request is accounted for

The counters of a router under any interleaving of its sections. A section that
counts a request answers it under one outcome, hands out a ticket for it, or
panics; a section that takes a ticket back answers under one outcome or panics.
So the requests counted are those answered, those under way and those lost in a
panic, at every moment and whatever the disk does.
-/

namespace Onced

open Foundation Abuse

/-- The requests that were answered, by how: everything but the denials, which no shard
counts. -/
def Metrics.outcomes (metrics : Metrics) : UInt64 :=
  metrics.created + metrics.replayed + metrics.inProgress + metrics.mismatch +
    metrics.upstreamError + metrics.passthrough

theorem Metrics.outcomes_merge (one other : Metrics) :
    (one.merge other).outcomes = one.outcomes + other.outcomes := by
  simp only [outcomes, merge]
  abel

theorem Metrics.merge_empty (metrics : Metrics) : metrics.merge {} = metrics := by
  simp [merge]

/-- Whatever the backend said, it is counted as one outcome. -/
theorem ForwardTicket.outcomes_answer (ticket : ForwardTicket)
    (forwarded : Except String Response) :
    (ticket.answer forwarded).2.requestsTotal = 0 ∧ (ticket.answer forwarded).2.outcomes = 1 := by
  cases forwarded with
  | error failure => exact ⟨rfl, rfl⟩
  | ok response =>
      simp only [answer]
      split_ifs <;> exact ⟨rfl, rfl⟩

/-! ## Sections of one shard -/

/-- How many requests the section ends without an answer. -/
def ShardEvent.loses : ShardEvent → Reply → Nat
  | .begin .., .panicked _ => 1
  | .complete .., .panicked _ => 1
  | _, _ => 0

/-- How many requests the section counts. -/
def ShardEvent.counts : ShardEvent → Nat
  | .begin .. => 1
  | .complete .. => 0
  | .prune .. => 0

namespace Shard

section Books

variable {σ : Type}

/-- How many requests are waiting for the backend. -/
def underWay (shard : Shard σ) : Nat := shard.forwards.countP Option.isSome

/-- The requests counted that are neither answered nor under way. -/
def unaccounted (shard : Shard σ) : UInt64 :=
  shard.gateway.metrics.requestsTotal -
    (shard.gateway.metrics.outcomes + UInt64.ofNat shard.underWay)

/-- What a section adds to the requests counted and to those unaccounted for. -/
structure Accounts (shard : Shard σ) (event : ShardEvent) (reply : Reply) (next : Shard σ) :
    Prop where
  counted : next.gateway.metrics.requestsTotal =
    shard.gateway.metrics.requestsTotal + UInt64.ofNat event.counts
  unaccounted : next.unaccounted = shard.unaccounted + UInt64.ofNat (event.loses reply)

/-- What is added to the counters is weighed against what joins and leaves the requests under
way. -/
theorem accounts_of_merge {shard next : Shard σ} {event : ShardEvent} {reply : Reply}
    {added : Metrics} (outcomes : Nat)
    (hmetrics : next.gateway.metrics = shard.gateway.metrics.merge added)
    (hcounted : added.requestsTotal = UInt64.ofNat event.counts)
    (houtcomes : added.outcomes = UInt64.ofNat outcomes)
    (hweighed : outcomes + next.underWay + event.loses reply = event.counts + shard.underWay) :
    shard.Accounts event reply next := by
  have htotal : next.gateway.metrics.requestsTotal =
      shard.gateway.metrics.requestsTotal + UInt64.ofNat event.counts := by
    rw [hmetrics, ← hcounted]
    rfl
  refine ⟨htotal, ?_⟩
  have hweighed := congrArg UInt64.ofNat hweighed
  simp only [UInt64.ofNat_add] at hweighed
  rw [unaccounted, unaccounted, htotal, hmetrics, Metrics.outcomes_merge, houtcomes]
  grind

theorem underWay_append {shard next : Shard σ} {forward : Forward}
    (hforwards : next.forwards = shard.forwards ++ [some forward]) :
    next.underWay = shard.underWay + 1 := by
  simp [underWay, hforwards]

/-- A ticket that is taken back leaves its slot empty. -/
theorem underWay_set {shard next : Shard σ} {slot : Nat} {forward : Forward}
    (hslot : shard.forwards[slot]? = some (some forward))
    (hforwards : next.forwards = shard.forwards.set slot none) :
    next.underWay + 1 = shard.underWay := by
  obtain ⟨hlength, hforward⟩ := List.getElem?_eq_some_iff.mp hslot
  have hpos : 0 < shard.forwards.countP Option.isSome :=
    List.countP_pos_iff.mpr ⟨some forward, List.mem_of_getElem? hslot, rfl⟩
  rw [underWay, hforwards, List.countP_set hlength, hforward, underWay]
  simp only [Option.isSome_some, if_true, Option.isSome_none, Bool.false_eq_true, if_false]
  omega

/-- A ticket is taken back for one outcome, or is lost. -/
theorem accounts_settles {shard next : Shard σ} {io : Io} {slot : Nat}
    {forwarded : Except String Response} {reply : Reply} {forward : Forward} {added : Metrics}
    (outcomes : Nat) (hslot : shard.forwards[slot]? = some (some forward))
    (hforwards : next.forwards = shard.forwards.set slot none)
    (hmetrics : next.gateway.metrics = shard.gateway.metrics.merge added)
    (hcounted : added.requestsTotal = 0) (houtcomes : added.outcomes = UInt64.ofNat outcomes)
    (hlost : outcomes + (ShardEvent.complete io slot forwarded).loses reply = 1) :
    shard.Accounts (.complete io slot forwarded) reply next := by
  refine accounts_of_merge outcomes hmetrics hcounted houtcomes ?_
  have hunderWay := underWay_set hslot hforwards
  simp only [ShardEvent.counts]
  omega

end Books

variable {σ : Type} [Store σ]

theorem accounts_begin (shard : Shard σ) (io : Io) (request : Request) (nowMs : UInt64) :
    shard.Accounts (.begin io request nowMs) (shard.beginOn io request nowMs).1
      (shard.beginOn io request nowMs).2 := by
  cases hkey : request.header "idempotency-key" with
  | none =>
      have hphase := Gateway.beginPhase_keyless_eq shard.gateway io nowMs hkey
      simp only [beginOn, lock, hphase]
      refine accounts_of_merge 0 rfl rfl rfl ?_
      rw [underWay_append rfl]
      exact (Nat.zero_add _).trans (Nat.add_comm _ _)
  | some key =>
      have hphase := Gateway.beginPhase_keyed_eq shard.gateway io nowMs hkey
      cases hbegin : Engine.begin io ⟨key⟩ (fingerprintOf request shard.gateway.fingerprintKey)
          nowMs shard.gateway.engine with
      | error panic engine =>
          rw [hbegin] at hphase
          simp only [beginOn, lock, hphase]
          exact accounts_of_merge 0 rfl rfl rfl
            ((congrArg (· + 1) (Nat.zero_add _)).trans (Nat.add_comm _ _))
      | ok decision engine =>
          rw [hbegin] at hphase
          simp only [beginOn, lock, hphase]
          cases decision with
          | run token =>
              refine accounts_of_merge 0 rfl rfl rfl ?_
              rw [underWay_append rfl]
              exact (Nat.zero_add _).trans (Nat.add_comm _ _)
          | replay outcome => exact accounts_of_merge 1 rfl rfl rfl rfl
          | inProgress => exact accounts_of_merge 1 rfl rfl rfl rfl
          | mismatch => exact accounts_of_merge 1 rfl rfl rfl rfl

theorem accounts_complete (shard : Shard σ) (io : Io) (slot : Nat)
    (forwarded : Except String Response) :
    shard.Accounts (.complete io slot forwarded) (shard.completeOn io slot forwarded).1
      (shard.completeOn io slot forwarded).2 := by
  match hslot : shard.forwards[slot]? with
  | none =>
      simp only [completeOn, hslot]
      exact ⟨(add_zero _).symm, (add_zero _).symm⟩
  | some none =>
      simp only [completeOn, hslot]
      exact ⟨(add_zero _).symm, (add_zero _).symm⟩
  | some (some forward) =>
      obtain ⟨hnone, hone⟩ := forward.ticket.outcomes_answer forwarded
      cases hcommit : forward.ticket.commit forwarded with
      | none =>
          have hphase := Gateway.completePhase_passes_eq shard.gateway io forward.nowMs hcommit
          simp only [completeOn, hslot, lock, hphase]
          exact accounts_settles 1 hslot rfl rfl hnone hone rfl
      | some commit =>
          obtain ⟨token, response⟩ := commit
          have hphase := Gateway.completePhase_commits_eq shard.gateway io forward.nowMs hcommit
          cases hcomplete : Engine.complete io token (toOutcome response) forward.nowMs
              shard.gateway.engine with
          | ok result engine =>
              rw [hcomplete] at hphase
              simp only [completeOn, hslot, lock, hphase]
              exact accounts_settles 1 hslot rfl rfl hnone hone rfl
          | error panic engine =>
              rw [hcomplete] at hphase
              simp only [completeOn, hslot, lock, hphase]
              exact accounts_settles 0 hslot rfl (Metrics.merge_empty _).symm rfl rfl rfl

/-- What any section adds, whatever becomes of its I/O. -/
theorem accounts_handle (shard : Shard σ) (event : ShardEvent) :
    shard.Accounts event (shard.handle event).1 (shard.handle event).2 := by
  cases event with
  | begin io request nowMs => exact shard.accounts_begin io request nowMs
  | complete io slot forwarded => exact shard.accounts_complete io slot forwarded
  | prune io iteration nowMs =>
      simp only [handle, lock, Gateway.pruneExpired, Gateway.onEngine]
      cases Engine.pruneExpired io iteration nowMs shard.gateway.engine with
      | ok _ engine => exact ⟨(add_zero _).symm, (add_zero _).symm⟩
      | error panic engine => exact ⟨(add_zero _).symm, (add_zero _).symm⟩

end Shard

/-! ## Sections of a router -/

namespace Router

/-- How many requests the section ends without an answer. -/
def Event.loses : Event → Reply → Nat
  | .begin .., .panicked _ => 1
  | .complete .., .panicked _ => 1
  | _, _ => 0

/-- How many requests the section counts. -/
def Event.counts : Event → Nat
  | .begin .. => 1
  | .complete .. => 0
  | .prune .. => 0

variable {σ : Type}

/-- The requests counted on all shards. -/
def counted (router : Router σ) : UInt64 :=
  (router.shards.map fun shard => shard.gateway.metrics.requestsTotal).sum

/-- The requests of all shards that are neither answered nor under way. -/
def unaccounted (router : Router σ) : UInt64 := (router.shards.map Shard.unaccounted).sum

/-- The requests of all shards that are waiting for the backend. -/
def underWay (router : Router σ) : Nat := (router.shards.map Shard.underWay).sum

/-- The counters of all shards together. -/
theorem aggregateMetrics_totals (router : Router σ) :
    router.aggregateMetrics.requestsTotal = router.counted ∧
      router.aggregateMetrics.outcomes =
        (router.shards.map fun shard => shard.gateway.metrics.outcomes).sum := by
  have hfold : ∀ (shards : List (Shard σ)) (total : Metrics),
      (shards.foldl (fun total shard => total.merge shard.gateway.metrics) total).requestsTotal =
          total.requestsTotal +
            (shards.map fun shard => shard.gateway.metrics.requestsTotal).sum ∧
        (shards.foldl (fun total shard => total.merge shard.gateway.metrics) total).outcomes =
          total.outcomes + (shards.map fun shard => shard.gateway.metrics.outcomes).sum := by
    intro shards
    induction shards with
    | nil => exact fun total => ⟨(add_zero _).symm, (add_zero _).symm⟩
    | cons shard shards ih =>
        intro total
        obtain ⟨hcounted, houtcomes⟩ := ih (total.merge shard.gateway.metrics)
        simp only [List.foldl_cons, List.map_cons, List.sum_cons]
        rw [hcounted, houtcomes, Metrics.outcomes_merge]
        exact ⟨add_assoc _ _ _, add_assoc _ _ _⟩
  obtain ⟨hcounted, houtcomes⟩ := hfold router.shards {}
  exact ⟨hcounted.trans (zero_add _), houtcomes.trans (zero_add _)⟩

/-- What is unaccounted for, read off the counters. -/
theorem unaccounted_eq (router : Router σ) :
    router.unaccounted = router.aggregateMetrics.requestsTotal -
      (router.aggregateMetrics.outcomes + UInt64.ofNat router.underWay) := by
  obtain ⟨hcounted, houtcomes⟩ := router.aggregateMetrics_totals
  rw [hcounted, houtcomes, unaccounted, counted, underWay]
  induction router.shards with
  | nil => exact (sub_self (0 : UInt64)).symm.trans (congrArg (0 - ·) (add_zero 0).symm)
  | cons shard shards ih =>
      simp only [List.map_cons, List.sum_cons, ih, Shard.unaccounted, UInt64.ofNat_add]
      abel

/-- One shard replaced: a total over the shards changes by what that shard's part does. -/
theorem sum_map_set {shards : List (Shard σ)} {index : Nat} {shard next : Shard σ}
    (hshard : shards[index]? = some shard) {part : Shard σ → UInt64} {change : UInt64}
    (hpart : part next = part shard + change) :
    ((shards.set index next).map part).sum = (shards.map part).sum + change := by
  obtain ⟨hlength, hshard⟩ := List.getElem?_eq_some_iff.mp hshard
  have hmapped : index < (shards.map part).length := by rwa [List.length_map]
  rw [List.map_set, List.sum_set', dif_pos hmapped, List.getElem_map, hshard, hpart]
  abel

variable (hash : String → UInt64)

/-- A begin is routed to a shard that exists. -/
theorem enters_begin_lt {router : Router σ} (hshards : router.shards ≠ []) (io : Io)
    (request : Request) (nowMs : UInt64) :
    (router.enters hash (.begin io request nowMs)).1 < router.shards.length := by
  have hpos : 0 < router.shards.length := List.length_pos_iff.mpr hshards
  simp only [enters, routeShard]
  cases request.header "idempotency-key" with
  | none => exact Nat.mod_lt _ hpos
  | some key => exact Nat.mod_lt _ hpos

variable [Store σ]

/-- What one section adds to the totals. -/
structure Adds (router : Router σ) (event : Event) (entered : Entered) (next : Router σ) :
    Prop where
  counted : next.counted = router.counted + UInt64.ofNat event.counts
  unaccounted : next.unaccounted =
    router.unaccounted + UInt64.ofNat (event.loses entered.handled.reply)
  shards : next.shards ≠ []

theorem step_adds {router next : Router σ} (hshards : router.shards ≠ []) {event : Event}
    {entered : Entered} (hstep : router.step hash event = .ok (entered, next)) :
    router.Adds event entered next := by
  have hcounts : (router.enters hash event).2.1.counts = event.counts := by cases event <;> rfl
  have hloses : ∀ reply, (router.enters hash event).2.1.loses reply = event.loses reply := by
    intro reply
    cases event <;> cases reply <;> rfl
  have hkept : (router.enters hash event).2.2.shards = router.shards := enters_shards router event
  simp only [step] at hstep
  rw [hkept] at hstep
  cases hshard : router.shards[(router.enters hash event).1]? with
  | none =>
      rw [hshard] at hstep
      cases hstep
      cases event with
      | begin io request nowMs =>
          exact absurd (enters_begin_lt hash hshards io request nowMs)
            (Nat.not_lt.mpr (List.getElem?_eq_none_iff.mp hshard))
      | complete io index slot forwarded =>
          exact ⟨(add_zero _).symm, (add_zero _).symm, hshards⟩
      | prune io index iteration nowMs =>
          exact ⟨(add_zero _).symm, (add_zero _).symm, hshards⟩
  | some shard =>
      rw [hshard] at hstep
      cases hstep
      obtain ⟨hcounted, hunaccounted⟩ := shard.accounts_handle (router.enters hash event).2.1
      rw [hcounts] at hcounted
      rw [hloses] at hunaccounted
      refine ⟨sum_map_set hshard hcounted, sum_map_set hshard hunaccounted, ?_⟩
      rw [← List.length_pos_iff, List.length_set]
      exact List.length_pos_iff.mpr hshards

/-- How many requests a run begins. -/
def begun (events : List Event) : Nat := (events.map Event.counts).sum

/-- How many requests a run ends without an answer. -/
def lost (events : List Event) (log : List Entered) : Nat :=
  (List.zipWith (fun event entered => event.loses entered.handled.reply) events log).sum

theorem run_adds {router last : Router σ} (hshards : router.shards ≠ []) {events : List Event}
    {log : List Entered} (hrun : runSteps (step hash) router events = .ok (log, last)) :
    last.counted = router.counted + UInt64.ofNat (begun events) ∧
      last.unaccounted = router.unaccounted + UInt64.ofNat (lost events log) := by
  induction events generalizing router log with
  | nil =>
      cases hrun
      exact ⟨(add_zero _).symm, (add_zero _).symm⟩
  | cons event events ih =>
      cases hstep : router.step hash event with
      | error failure => exact failure.elim
      | ok result =>
          obtain ⟨entered, next⟩ := result
          rw [runSteps_cons_ok hstep] at hrun
          cases hrest : runSteps (step hash) next events with
          | error failure => exact failure.elim
          | ok rest =>
              obtain ⟨restLog, restLast⟩ := rest
              rw [hrest] at hrun
              cases hrun
              have hadds := step_adds hash hshards hstep
              obtain ⟨hcounted, hunaccounted⟩ := ih hadds.shards hrest
              simp only [begun, lost, List.map_cons, List.zipWith_cons_cons, List.sum_cons,
                UInt64.ofNat_add] at hcounted hunaccounted ⊢
              rw [hcounted, hunaccounted, hadds.counted, hadds.unaccounted]
              exact ⟨add_assoc _ _ _, add_assoc _ _ _⟩

/-- Whatever the requests, the disk and the order of their sections, the counters account for
every request that has begun: it has been answered under exactly one outcome, it waits for the
backend, or it was lost in a panic. -/
theorem requests_accounted {gateways : List (Gateway σ)} {abuse : List RuleSet}
    {router : Router σ} (hnew : Router.new gateways abuse = .ok router)
    (hfresh : ∀ gateway ∈ gateways, gateway.metrics = {}) {events : List Event}
    {log : List Entered} {last : Router σ}
    (hrun : runSteps (step hash) router events = .ok (log, last)) :
    last.aggregateMetrics.requestsTotal = UInt64.ofNat (begun events) ∧
      last.aggregateMetrics.requestsTotal = last.aggregateMetrics.outcomes +
        UInt64.ofNat last.underWay + UInt64.ofNat (lost events log) := by
  obtain ⟨hgateways, -, rfl⟩ := new_eq_ok hnew
  have hcounted : ∀ part : Shard σ → UInt64, (∀ gateway ∈ gateways, part (.fresh gateway) = 0) →
      ((gateways.map Shard.fresh).map part).sum = 0 := by
    intro part hpart
    apply List.sum_eq_zero
    intro number hnumber
    obtain ⟨shard, hshard, rfl⟩ := List.mem_map.mp hnumber
    obtain ⟨gateway, hgateway, rfl⟩ := List.mem_map.mp hshard
    exact hpart gateway hgateway
  obtain ⟨hbegun, hlost⟩ := run_adds hash (by simpa using hgateways) hrun
  have hstart : (Router.mk (gateways.map .fresh) abuse 0 0).counted = 0 :=
    hcounted _ fun gateway hgateway => congrArg Metrics.requestsTotal (hfresh gateway hgateway)
  have hclear : (Router.mk (gateways.map .fresh) abuse 0 0).unaccounted = 0 := by
    refine hcounted _ fun gateway hgateway => ?_
    simp [Shard.unaccounted, Shard.fresh, Shard.underWay, hfresh gateway hgateway,
      Metrics.outcomes]
  rw [hstart, zero_add, ← last.aggregateMetrics_totals.1] at hbegun
  rw [hclear, zero_add, unaccounted_eq, sub_eq_iff_eq_add] at hlost
  exact ⟨hbegun, hlost.trans (add_comm _ _)⟩

/-- Three requests jostling for one key, of which one is back from the backend. -/
theorem requests_accounted_jostling :
    ∃ router log last, Router.new (desks 2) [.new] = .ok router ∧
      runSteps (Router.step fun _ => 7) router jostling = .ok (log, last) ∧
      last.aggregateMetrics.requestsTotal = 3 ∧
      last.aggregateMetrics.requestsTotal = last.aggregateMetrics.outcomes +
        UInt64.ofNat last.underWay + UInt64.ofNat (lost jostling log) := by
  have hnew : Router.new (desks 2) [.new] = .ok ⟨(desks 2).map .fresh, [.new], 0, 0⟩ := rfl
  have hfresh : ∀ gateway ∈ desks 2, gateway.metrics = {} := by
    intro gateway hgateway
    obtain ⟨-, rfl⟩ := List.mem_replicate.mp hgateway
    rfl
  cases hrun : runSteps (Router.step fun _ => 7) ⟨(desks 2).map .fresh, [.new], 0, 0⟩ jostling with
  | error failure => exact failure.elim
  | ok result =>
      obtain ⟨hcounted, haccounted⟩ := requests_accounted (fun _ => 7) hnew hfresh hrun
      exact ⟨_, result.1, result.2, hnew, hrun, hcounted, haccounted⟩

end Router

end Onced
