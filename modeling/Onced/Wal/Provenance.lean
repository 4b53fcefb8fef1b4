import Onced.Wal.NodeSession

/-! # Where a replayed outcome comes from, group commit

A crash under group commit can take back a begin that was already answered, and
with it the fence counter. The fence is then minted again, possibly for another
request, and the orphaned token of the first request completes the key of the
second. Where a start never mints a fence that was issued for its key with
another fingerprint, every replayed outcome was accepted from a worker of a
request with the same fingerprint.
-/

namespace Onced.Wal

open Foundation

/-- The fence a start is about to mint was issued for its key with this
fingerprint only, if at all. -/
def AgreeingFence (ttlMs nextFence : UInt64) (states : IdempotencyKey → Option KeyState)
    (issued : List Issue) : SessionEvent → Prop
  | .op _ (.begin key fingerprint nowMs) =>
      Engine.action ttlMs fingerprint nowMs (states key) = .start →
        ∀ issue ∈ issued, issue.token = ⟨key, ⟨nextFence⟩⟩ → issue.fingerprint = fingerprint
  | _ => True

instance (ttlMs nextFence : UInt64) (states : IdempotencyKey → Option KeyState)
    (issued : List Issue) (event : SessionEvent) :
    Decidable (AgreeingFence ttlMs nextFence states issued event) :=
  match event with
  | .op _ (.begin key fingerprint nowMs) =>
      inferInstanceAs (Decidable (Engine.action ttlMs fingerprint nowMs (states key) = .start →
        ∀ issue ∈ issued, issue.token = ⟨key, ⟨nextFence⟩⟩ → issue.fingerprint = fingerprint))
  | .op _ (.complete ..) => isTrue trivial
  | .op _ .flush => isTrue trivial
  | .op _ (.pruneExpired ..) => isTrue trivial
  | .crash => isTrue trivial

/-- The outcome was accepted with a token issued for the key and the fingerprint. -/
def AcceptedFrom (issued : List Issue) (accepted : List (Nat × CachedOutcome))
    (key : IdempotencyKey) (fingerprint : RequestFingerprint) (outcome : CachedOutcome) : Prop :=
  ∃ ticket issue, (ticket, outcome) ∈ accepted ∧ issued[ticket]? = some issue ∧
    issue.token.key = key ∧ issue.fingerprint = fingerprint

/-- Where a record comes from: a token was issued for it, or its outcome was accepted. -/
def RecordFrom (issued : List Issue) (accepted : List (Nat × CachedOutcome))
    (key : IdempotencyKey) : KeyState → Prop
  | .inProgress fence fingerprint _ => ⟨⟨key, fence⟩, fingerprint⟩ ∈ issued
  | .completed fingerprint outcome _ => AcceptedFrom issued accepted key fingerprint outcome

/-- Every record of the index has its origin in the session. -/
def Sourced (issued : List Issue) (accepted : List (Nat × CachedOutcome)) (index : Index) : Prop :=
  ∀ key state, index[key]? = some state → RecordFrom issued accepted key state

section Sources

variable {issued : List Issue} {accepted : List (Nat × CachedOutcome)}

theorem AcceptedFrom.extend {key : IdempotencyKey} {fingerprint : RequestFingerprint}
    {outcome : CachedOutcome} (hfrom : AcceptedFrom issued accepted key fingerprint outcome)
    (moreIssued : List Issue) (moreAccepted : List (Nat × CachedOutcome)) :
    AcceptedFrom (issued ++ moreIssued) (accepted ++ moreAccepted) key fingerprint outcome := by
  obtain ⟨ticket, issue, haccepted, hissue, hkey, hfingerprint⟩ := hfrom
  refine ⟨ticket, issue, List.mem_append_left _ haccepted, ?_, hkey, hfingerprint⟩
  rw [List.getElem?_append_left (List.getElem?_eq_some_iff.mp hissue).1]
  exact hissue

/-- More history keeps the origins. -/
theorem Sourced.extend {index : Index} (hsourced : Sourced issued accepted index)
    (moreIssued : List Issue) (moreAccepted : List (Nat × CachedOutcome)) :
    Sourced (issued ++ moreIssued) (accepted ++ moreAccepted) index := by
  intro key state hstate
  have hfrom := hsourced key state hstate
  cases state with
  | inProgress fence fingerprint leaseExpiresAtMs => exact List.mem_append_left _ hfrom
  | completed fingerprint outcome completedAtMs => exact hfrom.extend moreIssued moreAccepted

theorem Sourced.put {index : Index} (hsourced : Sourced issued accepted index)
    {key : IdempotencyKey} {state : KeyState} (hfrom : RecordFrom issued accepted key state) :
    Sourced issued accepted (index.insert key state) := by
  intro other otherState hother
  rw [Index.getElem?_insert] at hother
  split at hother
  next hkey =>
    obtain rfl := Option.some.inj hother
    exact hkey ▸ hfrom
  next => exact hsourced other otherState hother

theorem Sourced.filter {index : Index} (hsourced : Sourced issued accepted index)
    (keep : IdempotencyKey → KeyState → Bool) : Sourced issued accepted (index.filter keep) := by
  intro key state hstate
  rw [Std.ExtTreeMap.getElem?_filter'] at hstate
  exact hsourced key state (Option.filter_eq_some_iff.mp hstate).1

end Sources

/-- Tokens with the same key and fence were issued for the same fingerprint, and
every record a crash may bring back has its origin in the session. -/
structure GroupInvariant (session : Session Point) : Prop where
  agree : ∀ one ∈ session.issued, ∀ other ∈ session.issued, one.token = other.token →
    one.fingerprint = other.fingerprint
  sourced : session.node.ledger.Always (Sourced session.issued session.accepted)

namespace GroupInvariant

variable {setup : Setup} {session : Session Point} {node : Point}

/-- A step that hands out nothing and accepts nothing. -/
theorem silent (hinvariant : GroupInvariant session)
    (hnode : node.ledger.Always (Sourced session.issued session.accepted))
    {event : SessionEvent} {answer : Option Answer} (hissue : event.issue answer = none)
    (hacceptance : event.acceptance answer = none) :
    GroupInvariant (session.record event answer node) := by
  constructor
  · simpa [Session.record, hissue] using hinvariant.agree
  · simpa [Session.record, hissue, hacceptance] using hnode

/-- A returned begin that starts a run. -/
theorem begins (hinvariant : GroupInvariant session) (hgroup : setup.syncEach = false) (io : Io)
    {key : IdempotencyKey} {fingerprint : RequestFingerprint} {nowMs : UInt64}
    (haction : Engine.action setup.ttlMs fingerprint nowMs (session.node.states key) = .start)
    (hagrees : ∀ issue ∈ session.issued, issue.token = ⟨key, ⟨session.node.nextFence⟩⟩ →
      issue.fingerprint = fingerprint) :
    GroupInvariant (session.record (.op io (.begin key fingerprint nowMs))
      (some (.begun (.run ⟨key, ⟨session.node.nextFence⟩⟩)))
      (session.node.after setup (.begin key fingerprint nowMs))) := by
  have hplan := @EngineCall.plan_begin_start setup.leaseMs _ session.node.nextFence _ _ _ _ haction
  constructor
  · simp only [Session.record, SessionEvent.issue, Operation.issue, Option.toList_some,
      List.mem_append, List.mem_singleton]
    rintro one (hone | rfl) other (hother | rfl) htoken
    · exact hinvariant.agree one hone other hother htoken
    · exact hagrees one hone htoken
    · exact (hagrees other hother htoken.symm).symm
    · rfl
  · simp only [Point.after, Point.plan, hplan, hgroup]
    have hextended := hinvariant.sourced.mono fun index hindex =>
      hindex.extend [⟨⟨key, ⟨session.node.nextFence⟩⟩, fingerprint⟩] []
    refine hextended.call ?_ false
    exact fun index hindex => hindex.put (List.mem_append_right _ (List.mem_singleton_self _))

/-- A returned completion that is accepted. -/
theorem completes (hinvariant : GroupInvariant session) {io : Io} {ticket : Nat} {issue : Issue}
    (hissue : session.issued[ticket]? = some issue) {fingerprint : RequestFingerprint}
    {leaseExpiresAtMs : UInt64} (hholder : session.node.states issue.token.key =
      some (.inProgress issue.token.fence fingerprint leaseExpiresAtMs))
    (outcome : CachedOutcome) (nowMs : UInt64) :
    GroupInvariant (session.record (.op io (.complete ticket outcome nowMs))
      (some (.completed (.ok ())))
      (session.node.after setup (.complete issue.token outcome nowMs))) := by
  have hplan := @EngineCall.plan_complete_holder setup.leaseMs setup.ttlMs
    session.node.nextFence _ _
    nowMs _ _ outcome hholder
  have hissued : ⟨issue.token, fingerprint⟩ ∈ session.issued :=
    hinvariant.sourced.now issue.token.key _ hholder
  have hfingerprint : issue.fingerprint = fingerprint :=
    hinvariant.agree issue (List.mem_of_getElem? hissue) _ hissued rfl
  constructor
  · simpa [Session.record, SessionEvent.issue, Operation.issue] using hinvariant.agree
  · simp only [Point.after, Point.plan, hplan]
    have hextended := hinvariant.sourced.mono fun index hindex =>
      hindex.extend [] [(ticket, outcome)]
    refine hextended.call ?_ setup.syncEach
    refine fun index hindex => hindex.put ⟨ticket, issue,
      List.mem_append_right _ (List.mem_singleton_self _), ?_, rfl, hfingerprint⟩
    rw [List.append_nil]
    exact hissue

/-- A put under group commit does no I/O, so a crash cannot cut it short. -/
theorem durable_of_dies (hgroup : setup.syncEach = false) {call : EngineCall}
    {storeCall : StoreCall} {records : List Entry}
    (hinvariant : GroupInvariant session)
    (hplan : (session.node.plan setup call).storeCall = some storeCall)
    (hsurvives : session.node.ledger.Survives setup.syncEach (some storeCall) records) :
    Sourced session.issued session.accepted (Ledger.indexOf records) := by
  rw [hgroup] at hsurvives
  cases EngineCall.makes_of_plan hplan with
  | starts haction =>
      obtain rfl : records = session.node.ledger.durable := by
        simpa [Ledger.Survives] using hsurvives
      exact hinvariant.sourced.durable
  | commits hstate outcome nowMs =>
      obtain rfl : records = session.node.ledger.durable := by
        simpa [Ledger.Survives] using hsurvives
      exact hinvariant.sourced.durable
  | flushes =>
      refine hinvariant.sourced.survives ?_ hsurvives
      exact fun index hindex => hindex
  | prunes iteration nowMs =>
      refine hinvariant.sourced.survives ?_ hsurvives
      exact fun index hindex => hindex.filter _

/-- An operation that returns. -/
theorem returns (hgroup : setup.syncEach = false) (hinvariant : GroupInvariant session) {io : Io}
    {operation : Operation} {call : EngineCall} (hcall : operation.call session.issued = some call)
    (hagrees : AgreeingFence setup.ttlMs session.node.nextFence session.node.states session.issued
      (.op io operation)) :
    GroupInvariant (session.record (.op io operation) (some (session.node.plan setup call).answer)
      (session.node.after setup call)) := by
  have hplanned := EngineCall.planned setup.leaseMs setup.ttlMs session.node.nextFence
    session.node.states call
  generalize hplan : call.plan setup.leaseMs setup.ttlMs session.node.nextFence
    session.node.states = plan at hplanned
  have hsilent : plan.storeCall = none → operation.issue (some plan.answer) = none →
      operation.acceptance (some plan.answer) = none →
      GroupInvariant (session.record (.op io operation)
        (some (session.node.plan setup call).answer) (session.node.after setup call)) := by
    intro hreads hissue hacceptance
    rw [Point.after_of_reads ((congrArg Plan.storeCall hplan).trans hreads), Point.plan, hplan]
    exact hinvariant.silent hinvariant.sourced hissue hacceptance
  cases operation with
  | begin key fingerprint nowMs =>
      obtain rfl := Option.some.inj hcall
      cases hplanned with
      | starts haction =>
          rw [Point.plan, hplan]
          exact hinvariant.begins hgroup io haction (hagrees haction)
      | replays => exact hsilent rfl rfl rfl
      | waits => exact hsilent rfl rfl rfl
      | mismatches => exact hsilent rfl rfl rfl
  | complete ticket outcome nowMs =>
      obtain ⟨issue, hissue, rfl⟩ := Option.map_eq_some_iff.mp hcall
      cases hplanned with
      | commits hholder =>
          rw [Point.plan, hplan]
          exact hinvariant.completes hissue hholder outcome nowMs
      | refuses => exact hsilent rfl rfl rfl
  | flush =>
      obtain rfl := Option.some.inj hcall
      refine hinvariant.silent ?_ rfl rfl
      refine hinvariant.sourced.call ?_ setup.syncEach
      exact fun index hindex => hindex
  | pruneExpired iteration nowMs =>
      obtain rfl := Option.some.inj hcall
      refine hinvariant.silent ?_ rfl rfl
      refine hinvariant.sourced.call ?_ setup.syncEach
      exact fun index hindex => hindex.filter _

theorem moves (hgroup : setup.syncEach = false) {next : Session Point} {event : SessionEvent}
    {answer : Option Answer} (hinvariant : GroupInvariant session)
    (hmove : GuardedMoves AgreeingFence setup session event answer next) : GroupInvariant next := by
  obtain ⟨hmove, hagrees⟩ := hmove
  cases hmove with
  | skips hevent => exact hinvariant
  | @serves nodeEvent _ node hevent hmove =>
      cases hmove with
      | crashes =>
          exact hinvariant.silent (.settled hinvariant.sourced.durable) event.issue_none
            event.acceptance_none
      | dies hplan hio hsurvives =>
          exact hinvariant.silent (.settled (hinvariant.durable_of_dies hgroup hplan hsurvives))
            event.issue_none event.acceptance_none
      | returns io call =>
          cases event with
          | crash => cases hevent
          | op otherIo operation =>
              obtain ⟨other, hcall, hsame⟩ := Option.map_eq_some_iff.mp hevent
              cases hsame
              exact hinvariant.returns hgroup hcall hagrees

end GroupInvariant

/-- Under group commit, if no start mints a fence that was issued for its key
with another fingerprint, a replayed outcome was accepted with a token issued
for the same key and fingerprint. -/
theorem replayed_outcome_was_accepted (leaseMs ttlMs : UInt64) (events : List SessionEvent)
    (hagreeing : Along (Session.step Node.step) (Guarded AgreeingFence)
      (Session.start (Node.fresh false leaseMs ttlMs)) events) :
    ∃ answers session,
      Node.runSession (Session.start (Node.fresh false leaseMs ttlMs)) events =
        .ok (answers, session) ∧
      ∀ io key fingerprint nowMs outcome next,
        Session.step Node.step session (.op io (.begin key fingerprint nowMs)) =
          .ok (some (.begun (.replay outcome)), next) →
        AcceptedFrom session.issued session.accepted key fingerprint outcome := by
  obtain ⟨answers, session, abstract, hrun, hpath, hrelated⟩ :=
    guarded_run_refines ⟨false, leaseMs, ttlMs⟩ hagreeing
  have hinvariant : GroupInvariant abstract := hpath.invariant GroupInvariant
    (fun event _ answer _ state next hstate hmove => hstate.moves rfl hmove)
    ⟨fun one hone => absurd hone List.not_mem_nil,
      .settled (fun key state hstate => by simp [Ledger.indexOf] at hstate)⟩
  refine ⟨answers, session, hrun, fun io key fingerprint nowMs outcome next hstep => ?_⟩
  obtain ⟨nodeEvent, node, hevent, hserve⟩ := Session.step_answered hstep
  cases hevent
  obtain ⟨completedAtMs, hstate⟩ := EngineCall.plan_begin_replay (Node.step_answer hserve).symm
  rw [hrelated.node.states] at hstate
  rw [hrelated.issued, hrelated.accepted]
  exact hinvariant.sourced.now key _ hstate

/-- A charge is begun and flushed, survives a crash, and is completed. -/
def flushedCharge : List SessionEvent :=
  [.op .done (.begin ⟨"k"⟩ ⟨genesis⟩ 0), .op .done .flush, .crash,
    .op .done (.complete 0 ⟨200, ∅, []⟩ 5)]

theorem replayed_outcome_was_accepted_charge :
    ∃ answers session next,
      Node.runSession (Session.start (Node.fresh false 10 100)) flushedCharge =
        .ok (answers, session) ∧
      Session.step Node.step session (.op .done (.begin ⟨"k"⟩ ⟨genesis⟩ 6)) =
        .ok (some (.begun (.replay ⟨200, ∅, []⟩)), next) ∧
      AcceptedFrom session.issued session.accepted ⟨"k"⟩ ⟨genesis⟩ ⟨200, ∅, []⟩ := by
  obtain ⟨answers, session, hrun, hsource⟩ := replayed_outcome_was_accepted 10 100 flushedCharge
    (guarded_of_quiet ⟨false, 10, 100⟩ (by decide))
  have hquiet : Along (Session.step (Point.serve ⟨false, 10, 100⟩)) QuietIn
      (Session.start (Point.restart [])) flushedCharge := by decide
  obtain ⟨_, last, _, hlast, habstract, hrelated⟩ :=
    runSession_quiet (start_related ⟨false, 10, 100⟩) hquiet
  cases hrun.symm.trans hlast
  cases habstract
  obtain ⟨_, next, _, _, hstep, habstract, rfl, -⟩ := lockstep_quiet ⟨false, 10, 100⟩ _ _
    (.op .done (.begin ⟨"k"⟩ ⟨genesis⟩ 6)) hrelated (by decide)
  cases habstract
  exact ⟨_, session, next, hrun, hstep, hsource _ _ _ _ _ _ hstep⟩

/-- A begin is lost in a crash before it was flushed, and another request takes
the key and the fence. The worker of the first then completes the key. -/
def orphaned : List SessionEvent :=
  [.op .done (.begin ⟨"k"⟩ ⟨List.Vector.replicate 32 1⟩ 0), .crash,
    .op .done (.begin ⟨"k"⟩ ⟨List.Vector.replicate 32 2⟩ 1),
    .op .done (.complete 0 ⟨200, ∅, [1]⟩ 2),
    .op .done (.begin ⟨"k"⟩ ⟨List.Vector.replicate 32 2⟩ 3)]

theorem orphaned_outcome_replayed :
    ∃ session,
      Node.runSession (Session.start (Node.fresh false 10 100)) orphaned =
        .ok ([some (.begun (.run ⟨⟨"k"⟩, ⟨1⟩⟩)), none, some (.begun (.run ⟨⟨"k"⟩, ⟨1⟩⟩)),
          some (.completed (.ok ())), some (.begun (.replay ⟨200, ∅, [1]⟩))], session) ∧
      ¬ AcceptedFrom session.issued session.accepted ⟨"k"⟩ ⟨List.Vector.replicate 32 2⟩
        ⟨200, ∅, [1]⟩ := by
  have hquiet : Along (Session.step (Point.serve ⟨false, 10, 100⟩)) QuietIn
      (Session.start (Point.restart [])) orphaned := by decide
  obtain ⟨answers, session, abstract, hrun, habstract, hrelated⟩ :=
    runSession_quiet (start_related ⟨false, 10, 100⟩) hquiet
  cases habstract
  refine ⟨session, hrun, ?_⟩
  rw [hrelated.issued, hrelated.accepted]
  rintro ⟨ticket, issue, haccepted, hissue, -, hfingerprint⟩
  have haccepted : (ticket, (⟨200, ∅, [1]⟩ : CachedOutcome)) ∈
      [(0, (⟨200, ∅, [1]⟩ : CachedOutcome))] := haccepted
  cases List.mem_singleton.mp haccepted
  cases hissue
  revert hfingerprint
  decide

end Onced.Wal
