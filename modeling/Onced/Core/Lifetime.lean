import Onced.Core.Discipline

/-! # One lifetime of an engine in memory

Within one lifetime the fence of a token is its place in the order of issue, so
old tokens never come back, however often keys are recycled. A record in progress
belongs to the latest token of its key, which was not accepted before; a completed
record is the last completion that was accepted for its key.
-/

namespace Onced

open Foundation

/-- The last completion accepted for the key. -/
def lastAccepted (issued : List Issue) (accepted : List (Nat × CachedOutcome))
    (key : IdempotencyKey) : Option (Nat × CachedOutcome) :=
  (accepted.filter fun one => issued[one.1]?.map (·.token.key) = some key).getLast?

/-- What the records of an engine have to do with the tokens it issued and the
completions it accepted. -/
structure Generations (issued : List Issue) (accepted : List (Nat × CachedOutcome))
    (states : IdempotencyKey → Option KeyState) (nextFence : UInt64) : Prop where
  counted : nextFence.toNat = issued.length + 1
  fenced : ∀ ticket issue, issued[ticket]? = some issue →
    issue.token.fence.val.toNat = ticket + 1
  running : ∀ key fence fingerprint leaseExpiresAtMs,
    states key = some (.inProgress fence fingerprint leaseExpiresAtMs) →
    ∃ ticket, issued[ticket]? = some ⟨⟨key, fence⟩, fingerprint⟩ ∧
      Session.Latest issued ticket ∧ ticket ∉ accepted.map Prod.fst
  finished : ∀ key fingerprint outcome completedAtMs,
    states key = some (.completed fingerprint outcome completedAtMs) →
    ∃ ticket issue, lastAccepted issued accepted key = some (ticket, outcome) ∧
      issued[ticket]? = some issue ∧ issue.token.key = key ∧ issue.fingerprint = fingerprint
  valid : ∀ ticket ∈ accepted.map Prod.fst, ticket < issued.length
  once : (accepted.map Prod.fst).Nodup

namespace Generations

variable {issued : List Issue} {accepted : List (Nat × CachedOutcome)}
  {states : IdempotencyKey → Option KeyState} {nextFence : UInt64}

theorem empty {states : IdempotencyKey → Option KeyState} (hstates : ∀ key, states key = none) :
    Generations [] [] states 1 where
  counted := rfl
  fenced ticket issue hissue := by simp at hissue
  running key _ _ _ hstate := by simp [hstates key] at hstate
  finished key _ _ _ hstate := by simp [hstates key] at hstate
  valid ticket hticket := by simp at hticket
  once := List.nodup_nil

/-- Tokens are distinct as values. -/
theorem tokens_nodup (hgenerations : Generations issued accepted states nextFence) :
    (issued.map Issue.token).Nodup := by
  rw [List.nodup_iff_getElem?_ne_getElem?]
  intro one other hlt hother hsame
  rw [List.length_map] at hother
  simp only [List.getElem?_map, List.getElem?_eq_getElem hother,
    List.getElem?_eq_getElem (hlt.trans hother), Option.map_some, Option.some.injEq] at hsame
  have hone := hgenerations.fenced one _ (List.getElem?_eq_getElem (hlt.trans hother))
  have hotherFence := hgenerations.fenced other _ (List.getElem?_eq_getElem hother)
  rw [hsame] at hone
  omega

/-- Dropping records does no harm. -/
theorem forget (hgenerations : Generations issued accepted states nextFence)
    {fewer : IdempotencyKey → Option KeyState}
    (hfewer : ∀ key, fewer key = states key ∨ fewer key = none) :
    Generations issued accepted fewer nextFence := by
  have hkept : ∀ {key state}, fewer key = some state → states key = some state := by
    intro key state hstate
    rcases hfewer key with hsame | hnone
    · exact hsame ▸ hstate
    · rw [hnone] at hstate
      contradiction
  exact { hgenerations with
    running := fun key fence fingerprint lease hstate =>
      hgenerations.running key fence fingerprint lease (hkept hstate)
    finished := fun key fingerprint outcome completedAtMs hstate =>
      hgenerations.finished key fingerprint outcome completedAtMs (hkept hstate) }

/-- A new token changes nothing about what was accepted. -/
theorem lastAccepted_issue (hvalid : ∀ ticket ∈ accepted.map Prod.fst, ticket < issued.length)
    (fresh : Issue) (key : IdempotencyKey) :
    lastAccepted (issued ++ [fresh]) accepted key = lastAccepted issued accepted key := by
  unfold lastAccepted
  congr 1
  apply List.filter_congr
  intro one hone
  rw [List.getElem?_append_left (hvalid one.1 (List.mem_map_of_mem hone))]

theorem start (hgenerations : Generations issued accepted states nextFence)
    (hroom : issued.length + 1 < 2 ^ 64 - 1) (key : IdempotencyKey)
    (fingerprint : RequestFingerprint) (lease : UInt64) :
    Generations (issued ++ [⟨⟨key, ⟨nextFence⟩⟩, fingerprint⟩]) accepted
      (fun other => (StoreCall.put key (.inProgress ⟨nextFence⟩ fingerprint lease)).effect other
        (states other)) (nextFence + 1) := by
  have hcounted := hgenerations.counted
  have hkeeps : ∀ {ticket : Nat} {issue : Issue}, issued[ticket]? = some issue →
      (issued ++ [⟨⟨key, ⟨nextFence⟩⟩, fingerprint⟩])[ticket]? = some issue := by
    intro ticket issue hissue
    rw [List.getElem?_append_left (List.getElem?_eq_some_iff.mp hissue).1]
    exact hissue
  refine ⟨?_, ?_, ?_, ?_, ?_, hgenerations.once⟩
  · have hone : (1 : UInt64).toNat = 1 := by decide
    rw [UInt64.toNat_add, List.length_append, List.length_singleton]
    omega
  · intro ticket issue hissue
    by_cases hold : ticket < issued.length
    · rw [List.getElem?_append_left hold] at hissue
      exact hgenerations.fenced ticket issue hissue
    · obtain rfl : ticket = issued.length := by
        have hbound := (List.getElem?_eq_some_iff.mp hissue).1
        simp only [List.length_append, List.length_singleton] at hbound
        omega
      rw [List.getElem?_concat_length] at hissue
      obtain rfl := Option.some.inj hissue
      exact hcounted
  · intro other fence otherFingerprint otherLease hstate
    rcases StoreCall.effect_put_eq_some hstate with ⟨rfl, hfresh⟩ | ⟨hkey, hkept⟩
    · cases hfresh
      refine ⟨issued.length, List.getElem?_concat_length .., Session.latest_last _ _, ?_⟩
      intro haccepted
      exact Nat.lt_irrefl _ (hgenerations.valid _ haccepted)
    · obtain ⟨ticket, hticket, hlatest, hopen⟩ :=
        hgenerations.running other fence otherFingerprint otherLease hkept
      exact ⟨ticket, hkeeps hticket, (Session.latest_append hticket).mpr ⟨hlatest, hkey⟩, hopen⟩
  · intro other otherFingerprint outcome completedAtMs hstate
    rcases StoreCall.effect_put_eq_some hstate with ⟨-, hfresh⟩ | ⟨-, hkept⟩
    · cases hfresh
    · obtain ⟨ticket, issue, hlast, hissue, hfrom⟩ :=
        hgenerations.finished other otherFingerprint outcome completedAtMs hkept
      rw [lastAccepted_issue hgenerations.valid]
      exact ⟨ticket, issue, hlast, hkeeps hissue, hfrom⟩
  · intro ticket hticket
    rw [List.length_append]
    exact Nat.lt_add_right _ (hgenerations.valid ticket hticket)

/-- The holder of a record in progress is the latest of its key and comes for the
first time. -/
theorem holder (hgenerations : Generations issued accepted states nextFence) {ticket : Nat}
    {issue : Issue} (hissue : issued[ticket]? = some issue) {fingerprint : RequestFingerprint}
    {leaseExpiresAtMs : UInt64} (hstate : states issue.token.key =
      some (.inProgress issue.token.fence fingerprint leaseExpiresAtMs)) :
    issue.fingerprint = fingerprint ∧ Session.Latest issued ticket ∧
      ticket ∉ accepted.map Prod.fst := by
  obtain ⟨place, hplace, hlatest, hopen⟩ := hgenerations.running _ _ _ _ hstate
  have hsame := hgenerations.fenced place _ hplace
  change issue.token.fence.val.toNat = place + 1 at hsame
  have hfence := hgenerations.fenced ticket issue hissue
  obtain rfl : place = ticket := by omega
  have hissueSame := Option.some.inj (hissue.symm.trans hplace)
  exact ⟨congrArg Issue.fingerprint hissueSame, hlatest, hopen⟩

theorem lastAccepted_own {ticket : Nat} {issue : Issue} (hissue : issued[ticket]? = some issue)
    (outcome : CachedOutcome) :
    lastAccepted issued (accepted ++ [(ticket, outcome)]) issue.token.key =
      some (ticket, outcome) := by
  simp [lastAccepted, List.filter_append, hissue]

theorem lastAccepted_other {ticket : Nat} {issue : Issue} (hissue : issued[ticket]? = some issue)
    (outcome : CachedOutcome) {key : IdempotencyKey} (hkey : issue.token.key ≠ key) :
    lastAccepted issued (accepted ++ [(ticket, outcome)]) key =
      lastAccepted issued accepted key := by
  simp [lastAccepted, List.filter_append, hissue, hkey]

theorem complete (hgenerations : Generations issued accepted states nextFence) {ticket : Nat}
    {issue : Issue} (hissue : issued[ticket]? = some issue) {fingerprint : RequestFingerprint}
    {leaseExpiresAtMs : UInt64} (hstate : states issue.token.key =
      some (.inProgress issue.token.fence fingerprint leaseExpiresAtMs))
    (outcome : CachedOutcome) (nowMs : UInt64) :
    Generations issued (accepted ++ [(ticket, outcome)])
      (fun other => (StoreCall.put issue.token.key
        (.completed fingerprint outcome nowMs)).effect other (states other)) nextFence := by
  obtain ⟨hfingerprint, -, hopen⟩ := hgenerations.holder hissue hstate
  refine ⟨hgenerations.counted, hgenerations.fenced, ?_, ?_, ?_, ?_⟩
  · intro key fence otherFingerprint lease hrunning
    rcases StoreCall.effect_put_eq_some hrunning with ⟨-, hfresh⟩ | ⟨hkey, hkept⟩
    · cases hfresh
    · obtain ⟨place, hplace, hlatest, hplaceOpen⟩ := hgenerations.running _ _ _ _ hkept
      refine ⟨place, hplace, hlatest, ?_⟩
      intro haccepted
      rw [List.map_append, List.mem_append] at haccepted
      rcases haccepted with hearlier | hnow
      · exact hplaceOpen hearlier
      · -- the token just accepted is one of another key
        obtain rfl : place = ticket := by simpa using hnow
        obtain rfl := Option.some.inj (hissue.symm.trans hplace)
        exact hkey rfl
  · intro key otherFingerprint otherOutcome completedAtMs hfinished
    rcases StoreCall.effect_put_eq_some hfinished with ⟨rfl, hfresh⟩ | ⟨hkey, hkept⟩
    · cases hfresh
      exact ⟨ticket, issue, lastAccepted_own hissue outcome, hissue, rfl, hfingerprint⟩
    · rw [lastAccepted_other hissue outcome hkey]
      exact hgenerations.finished key otherFingerprint otherOutcome completedAtMs hkept
  · intro place hplace
    rw [List.map_append, List.mem_append] at hplace
    rcases hplace with hearlier | hnow
    · exact hgenerations.valid place hearlier
    · obtain rfl : place = ticket := by simpa using hnow
      exact (List.getElem?_eq_some_iff.mp hissue).1
  · rw [List.map_append, List.map_singleton, ← List.concat_eq_append]
    exact List.Nodup.concat hopen hgenerations.once

variable {leaseMs ttlMs : UInt64}

/-- A call that touches no store, issues nothing and accepts nothing. -/
theorem reads (hgenerations : Generations issued accepted states nextFence)
    {operation : Operation} {answer : Answer} (hissue : operation.issue (some answer) = none)
    (hacceptance : operation.acceptance (some answer) = none) :
    Generations (issued ++ (operation.issue (some answer)).toList)
      (accepted ++ (operation.acceptance (some answer)).toList) states nextFence := by
  simpa [hissue, hacceptance] using hgenerations

/-- An operation that is carried out as planned keeps the generations in order. -/
theorem after (hgenerations : Generations issued accepted states nextFence)
    {operation : Operation} {call : EngineCall} (hcall : operation.call issued = some call)
    (hroomy : View.Roomy ttlMs ⟨issued, states, nextFence⟩ operation) {plan : Plan}
    (hplan : call.plan leaseMs ttlMs nextFence states = plan) :
    Generations (issued ++ (operation.issue (some plan.answer)).toList)
      (accepted ++ (operation.acceptance (some plan.answer)).toList)
      (fun key => plan.effect key (states key)) plan.nextFence := by
  have hplanned := EngineCall.planned leaseMs ttlMs nextFence states call
  rw [hplan] at hplanned
  cases operation with
  | begin key fingerprint nowMs =>
      cases hcall
      cases hplanned with
      | starts haction =>
          have hstart := hgenerations.start (hroomy haction) key fingerprint
            (saturatingAdd nowMs leaseMs)
          simpa [Operation.issue, Operation.acceptance, Plan.effect] using hstart
      | replays => exact hgenerations.reads rfl rfl
      | waits => exact hgenerations.reads rfl rfl
      | mismatches => exact hgenerations.reads rfl rfl
  | complete ticket outcome nowMs =>
      obtain ⟨issue, hissue, rfl⟩ := Option.map_eq_some_iff.mp hcall
      cases hplanned with
      | commits hstate =>
          have hcomplete := hgenerations.complete hissue hstate outcome nowMs
          simpa [Operation.issue, Operation.acceptance, Plan.effect] using hcomplete
      | refuses => exact hgenerations.reads rfl rfl
  | flush =>
      cases hcall
      cases hplanned
      exact hgenerations.reads rfl rfl
  | pruneExpired iteration nowMs =>
      cases hcall
      cases hplanned
      refine Generations.reads (hgenerations.forget fun key => ?_) rfl rfl
      simp only [Plan.effect, StoreCall.effect]
      cases states key with
      | none => exact Or.inl rfl
      | some state =>
          cases hkeep : Engine.keeps ttlMs nowMs key state with
          | true => exact Or.inl (by simp [hkeep])
          | false => exact Or.inr (by simp [hkeep])

/-- Only the latest token of a key is accepted, and for the first time. -/
theorem accepts (hgenerations : Generations issued accepted states nextFence)
    {operation : Operation} {call : EngineCall} (hcall : operation.call issued = some call)
    {ticket : Nat} {outcome : CachedOutcome}
    (hacceptance : operation.acceptance (some (call.plan leaseMs ttlMs nextFence states).answer) =
      some (ticket, outcome)) :
    Session.Latest issued ticket ∧ ticket ∉ accepted.map Prod.fst := by
  generalize hanswer : (call.plan leaseMs ttlMs nextFence states).answer = answer at hacceptance
  unfold Operation.acceptance at hacceptance
  split at hacceptance
  next presented offered nowMs accepts hsome =>
    cases hacceptance
    cases hsome
    obtain ⟨issue, hissue, rfl⟩ := Option.map_eq_some_iff.mp hcall
    obtain ⟨fingerprint, leaseExpiresAtMs, hstate⟩ := EngineCall.plan_complete_ok hanswer
    exact (hgenerations.holder hissue hstate).2
  next => contradiction

end Generations

/-! ## Sessions of one lifetime -/

namespace Lifetime

/-- The counter is not exhausted. -/
def RoomyIn (session : Session (Engine MemoryStore)) : SessionEvent → Prop
  | .op _ operation => session.view.Roomy session.node.ttlMs operation
  | .crash => True

instance (session : Session (Engine MemoryStore)) : DecidablePred (RoomyIn session)
  | .op _ operation => inferInstanceAs (Decidable (session.view.Roomy _ operation))
  | .crash => inferInstanceAs (Decidable True)

/-- A step that accepts only the latest token of a key and for the first time, and
that replays only what was accepted last for the key, from a request with the
same fingerprint. -/
structure Safely (session : Session (Engine MemoryStore)) (event : SessionEvent)
    (answer : Option Answer) (next : Session (Engine MemoryStore)) : Prop where
  steps : session.step Memory.serve event = .ok (answer, next)
  accepts : ∀ ticket outcome, event.acceptance answer = some (ticket, outcome) →
    Session.Latest session.issued ticket ∧ ticket ∉ session.accepted.map Prod.fst
  replays : ∀ io key fingerprint nowMs outcome, event = .op io (.begin key fingerprint nowMs) →
    answer = some (.begun (.replay outcome)) →
    ∃ ticket issue, lastAccepted session.issued session.accepted key = some (ticket, outcome) ∧
      session.issued[ticket]? = some issue ∧ issue.token.key = key ∧
      issue.fingerprint = fingerprint

/-- The session is in order. -/
def Ordered (session : Session (Engine MemoryStore)) : Prop :=
  Generations session.issued session.accepted (Store.get session.node.store)
    session.node.nextFence

theorem ordered_start (leaseMs ttlMs : UInt64) :
    Ordered (Session.start (Memory.fresh leaseMs ttlMs)) := .empty fun _ => rfl

/-- A session in order stays in order, and takes its step safely. -/
theorem Ordered.step {session : Session (Engine MemoryStore)} (hordered : Ordered session)
    {event : SessionEvent} (hroomy : RoomyIn session event) :
    ∃ answer next, session.step Memory.serve event = .ok (answer, next) ∧
      Safely session event answer next ∧ Ordered next := by
  cases event with
  | crash =>
      refine ⟨none, session.record .crash none session.node, rfl, ⟨rfl, ?_, ?_⟩, ?_⟩
      · intro ticket outcome haccepts
        cases haccepts
      · intro io key fingerprint nowMs outcome hevent
        cases hevent
      · simpa [Ordered, Session.record] using hordered
  | op io operation =>
      cases hcall : operation.call session.issued with
      | none =>
          have hstep : session.step Memory.serve (.op io operation) = .ok (none, session) :=
            Session.step_skips hcall io
          refine ⟨none, session, hstep, ⟨hstep, ?_, ?_⟩, hordered⟩
          · intro ticket outcome haccepts
            rw [SessionEvent.acceptance_none] at haccepts
            contradiction
          · intro io key fingerprint nowMs outcome _ hanswer
            cases hanswer
      | some call =>
          obtain ⟨node, hserve, -, -, hnextFence, hstates⟩ := Memory.serve_call session.node io call
          have hstep := Session.step_serves hcall hserve
          refine ⟨_, _, hstep, ⟨hstep, ?_, ?_⟩, ?_⟩
          · intro ticket outcome haccepts
            exact hordered.accepts hcall haccepts
          · intro io key fingerprint nowMs outcome hevent hanswer
            cases hevent
            cases hcall
            obtain ⟨completedAtMs, hstate⟩ :=
              EngineCall.plan_begin_replay (Option.some.inj hanswer)
            exact hordered.finished key fingerprint outcome completedAtMs hstate
          · have hplan : call.plan session.node.leaseMs session.node.ttlMs session.node.nextFence
              (Store.get session.node.store) = session.node.plan call := rfl
            have hafter := hordered.after hcall hroomy hplan
            rw [← hstates, ← hnextFence] at hafter
            exact hafter

/-- In one lifetime of an engine over a store in memory, with fewer than `2 ^ 64 - 1`
runs: a completion is accepted only from the latest token of its key and once for
each token, and a replay shows what was accepted last for its key, from a token
issued to a request with the same fingerprint. -/
theorem tokens_accepted_once (leaseMs ttlMs : UInt64) (operations : List Operation)
    (hroomy : Along (Session.step Memory.serve) RoomyIn
      (Session.start (Memory.fresh leaseMs ttlMs)) (operations.map (.op .done))) :
    ∃ answers last, runSteps (Session.step Memory.serve)
        (Session.start (Memory.fresh leaseMs ttlMs)) (operations.map (.op .done)) =
          .ok (answers, last) ∧
      Path Safely (Session.start (Memory.fresh leaseMs ttlMs)) (operations.map (.op .done))
        answers last ∧
      (last.issued.map Issue.token).Nodup ∧ (last.accepted.map Prod.fst).Nodup := by
  obtain ⟨answers, last, hrun, hpath, hordered⟩ := exists_path_of_invariant Ordered
    (fun _ _ hordered hroomy => hordered.step hroomy) (ordered_start leaseMs ttlMs) hroomy
  exact ⟨answers, last, hrun, hpath, hordered.tokens_nodup, hordered.once⟩

/-- A charge is taken over, completed by the second worker and replayed; the first
worker is refused. -/
def takenOver : List Operation :=
  [.begin ⟨"k"⟩ ⟨List.Vector.replicate 32 0⟩ 0, .begin ⟨"k"⟩ ⟨List.Vector.replicate 32 0⟩ 10,
    .complete 1 ⟨200, ∅, [2]⟩ 11, .complete 0 ⟨200, ∅, [1]⟩ 12,
    .begin ⟨"k"⟩ ⟨List.Vector.replicate 32 0⟩ 13]

theorem tokens_accepted_once_takenOver :
    ∃ answers last, runSteps (Session.step Memory.serve) (Session.start (Memory.fresh 10 100))
        (takenOver.map (.op .done)) = .ok (answers, last) ∧
      answers = [some (.begun (.run ⟨⟨"k"⟩, ⟨1⟩⟩)), some (.begun (.run ⟨⟨"k"⟩, ⟨2⟩⟩)),
        some (.completed (.ok ())), some (.completed (.error .alreadyCompleted)),
        some (.begun (.replay ⟨200, ∅, [2]⟩))] ∧
      Path Safely (Session.start (Memory.fresh 10 100))
        (takenOver.map (.op .done)) answers last := by
  obtain ⟨answers, last, hrun, hpath, -⟩ := tokens_accepted_once 10 100 takenOver (by decide)
  refine ⟨answers, last, hrun, ?_, hpath⟩
  cases hrun
  rfl

end Lifetime

end Onced
