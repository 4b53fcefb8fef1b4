import Onced.Wal.NodeSession

/-! # Fences across restarts, strict mode

A reopened node seeds its fence counter from the in-progress records alone, so
a fence may be minted again for a key whose earlier run is completed or lost.
A token then becomes current a second time. Where no start mints a fence that
was already issued for its key, only the latest token of a key is accepted.
-/

namespace Onced.Wal

open Foundation

/-- The fence a start is about to mint was never issued for its key. -/
def FreshFence (ttlMs nextFence : UInt64) (states : IdempotencyKey → Option KeyState)
    (issued : List Issue) : SessionEvent → Prop
  | .op _ (.begin key fingerprint nowMs) =>
      Engine.action ttlMs fingerprint nowMs (states key) = .start →
        ∀ issue ∈ issued, issue.token ≠ ⟨key, ⟨nextFence⟩⟩
  | _ => True

instance (ttlMs nextFence : UInt64) (states : IdempotencyKey → Option KeyState)
    (issued : List Issue) (event : SessionEvent) :
    Decidable (FreshFence ttlMs nextFence states issued event) :=
  match event with
  | .op _ (.begin key fingerprint nowMs) =>
      inferInstanceAs (Decidable (Engine.action ttlMs fingerprint nowMs (states key) = .start →
        ∀ issue ∈ issued, issue.token ≠ ⟨key, ⟨nextFence⟩⟩))
  | .op _ (.complete ..) => isTrue trivial
  | .op _ .flush => isTrue trivial
  | .op _ (.pruneExpired ..) => isTrue trivial
  | .crash => isTrue trivial

/-- An issued token whose fence is current is the latest of its key. -/
def CurrentIsLatest (issued : List Issue) (states : IdempotencyKey → Option KeyState) : Prop :=
  ∀ ticket issue fingerprint leaseExpiresAtMs, issued[ticket]? = some issue →
    states issue.token.key = some (.inProgress issue.token.fence fingerprint leaseExpiresAtMs) →
    Session.Latest issued ticket

namespace CurrentIsLatest

variable {issued : List Issue} {states : IdempotencyKey → Option KeyState}

/-- No token may become current by an update. -/
theorem update {updated : IdempotencyKey → Option KeyState}
    (hlatest : CurrentIsLatest issued states)
    (hupdated : ∀ issue ∈ issued, ∀ fingerprint leaseExpiresAtMs,
      updated issue.token.key = some (.inProgress issue.token.fence fingerprint leaseExpiresAtMs) →
      states issue.token.key =
        some (.inProgress issue.token.fence fingerprint leaseExpiresAtMs)) :
    CurrentIsLatest issued updated := by
  intro ticket issue fingerprint leaseExpiresAtMs hticket hcurrent
  exact hlatest ticket issue _ _ hticket
    (hupdated issue (List.mem_of_getElem? hticket) _ _ hcurrent)

/-- The store call of any operation, if a start mints a fresh fence. -/
theorem effect (hlatest : CurrentIsLatest issued states) {leaseMs ttlMs nextFence : UInt64}
    {call : EngineCall} {storeCall : StoreCall}
    (hmakes : EngineCall.Makes leaseMs ttlMs nextFence states call storeCall)
    (hfresh : ∀ key fingerprint nowMs, call = .begin key fingerprint nowMs →
      ∀ issue ∈ issued, issue.token ≠ ⟨key, ⟨nextFence⟩⟩) :
    CurrentIsLatest issued fun key => storeCall.effect key (states key) := by
  apply hlatest.update
  rintro ⟨⟨key, fence⟩, requested⟩ hissue fingerprint leaseExpiresAtMs hcurrent
  rcases StoreCall.effect_eq_some hcurrent with rfl | hkept
  · cases hmakes with
    -- the current fence would be the one just minted
    | starts haction => exact absurd rfl (hfresh key fingerprint _ rfl _ hissue)
  · exact hkept

/-- One more token, whose fence is the current one of its key. -/
theorem append (hlatest : CurrentIsLatest issued states) {fresh : Issue}
    (hfresh : ∀ issue ∈ issued, issue.token ≠ fresh.token)
    {fingerprint : RequestFingerprint} {leaseExpiresAtMs : UInt64}
    (hcurrent : states fresh.token.key =
      some (.inProgress fresh.token.fence fingerprint leaseExpiresAtMs)) :
    CurrentIsLatest (issued ++ [fresh]) states := by
  intro ticket issue otherFingerprint otherLease hticket hissue
  by_cases hold : ticket < issued.length
  · rw [List.getElem?_append_left hold] at hticket
    refine (Session.latest_append hticket).mpr ⟨hlatest ticket issue _ _ hticket hissue, ?_⟩
    intro hkey
    rw [← hkey, hcurrent] at hissue
    obtain ⟨hfence, -⟩ : fresh.token.fence = issue.token.fence ∧ _ := by
      simpa only [Option.some.injEq, KeyState.inProgress.injEq] using hissue
    exact hfresh issue (List.mem_of_getElem? hticket) (RunToken.ext hkey.symm hfence.symm)
  · obtain rfl : ticket = issued.length := by
      have hbound := (List.getElem?_eq_some_iff.mp hticket).1
      simp only [List.length_append, List.length_singleton] at hbound
      omega
    exact Session.latest_last issued fresh

end CurrentIsLatest

/-- Nothing is buffered, and a current token is the latest of its key. -/
structure StrictInvariant (session : Session Point) : Prop where
  buffered : session.node.ledger.buffered = []
  latest : CurrentIsLatest session.issued session.node.states

theorem StrictInvariant.moves {setup : Setup} (hstrict : setup.syncEach = true)
    {session next : Session Point} {event : SessionEvent} {answer : Option Answer}
    (hinvariant : StrictInvariant session)
    (hfresh : FreshFence setup.ttlMs session.node.nextFence session.node.states session.issued
      event)
    (hmove : session.Moves (Point.Moves setup) event answer next) : StrictInvariant next := by
  cases hmove with
  | skips hevent => exact hinvariant
  | @serves nodeEvent _ node hevent hmove =>
      obtain ⟨hbuffered, hstates⟩ := hmove.strict hstrict hinvariant.buffered
      have hlatest : CurrentIsLatest session.issued node.states := by
        rcases hstates with hsame | ⟨io, call, storeCall, rfl, hplan, hupdated⟩
        · rw [hsame]
          exact hinvariant.latest
        · rw [hupdated]
          have hmakes := EngineCall.makes_of_plan hplan
          refine hinvariant.latest.effect hmakes ?_
          rintro key fingerprint nowMs rfl
          obtain rfl := SessionEvent.event_eq_begin hevent
          cases hmakes with
          | starts haction => exact hfresh haction
      refine ⟨hbuffered, ?_⟩
      cases hissue : event.issue answer with
      | none => simpa [Session.record, hissue] using hlatest
      | some issue =>
          obtain ⟨io, key, nowMs, rfl, rfl⟩ := SessionEvent.issue_eq_some hissue
          obtain rfl : Event.call io (.begin key issue.fingerprint nowMs) = nodeEvent := by
            simpa [SessionEvent.event, Operation.call] using hevent
          obtain ⟨hanswer, rfl⟩ := hmove.returned
          obtain ⟨haction, htoken⟩ := EngineCall.plan_begin_run hanswer.symm
          have hcurrent := Point.states_after_run hanswer.symm
          have happend := hlatest.append (fun other hother => htoken ▸ hfresh haction other hother)
            hcurrent
          simpa [Session.record, hissue] using happend

/-- A node whose records keep the invariant accepts only the latest token of a key. -/
theorem StrictInvariant.accepts {setup : Setup} {session next : Session (Engine WalStore)}
    {abstract : Session Point} (hinvariant : StrictInvariant abstract)
    (hrelated : Session.Related (Node.Represents setup) session abstract) {io : Io} {ticket : Nat}
    {outcome : CachedOutcome} {nowMs : UInt64}
    (hstep : Session.step Node.step session (.op io (.complete ticket outcome nowMs)) =
      .ok (some (.completed (.ok ())), next)) : Session.Latest session.issued ticket := by
  obtain ⟨nodeEvent, node, hevent, hserve⟩ := Session.step_answered hstep
  obtain ⟨call, hcall, rfl⟩ := Option.map_eq_some_iff.mp hevent
  obtain ⟨issue, hissue, rfl⟩ := Option.map_eq_some_iff.mp hcall
  obtain ⟨fingerprint, lease, hstate⟩ :=
    EngineCall.plan_complete_ok (Node.step_answer hserve).symm
  rw [hrelated.node.states] at hstate
  rw [hrelated.issued] at hissue ⊢
  exact hinvariant.latest ticket issue fingerprint lease hissue hstate

/-- In strict mode, if no start mints a fence already issued for its key, a
completion is accepted only with the latest token of its key. -/
theorem accepted_token_is_latest (leaseMs ttlMs : UInt64) (events : List SessionEvent)
    (hfenced : Along (Session.step Node.step) (Guarded FreshFence)
      (Session.start (Node.fresh true leaseMs ttlMs)) events) :
    ∃ answers session,
      Node.runSession (Session.start (Node.fresh true leaseMs ttlMs)) events =
        .ok (answers, session) ∧
      ∀ io ticket outcome nowMs next,
        Session.step Node.step session (.op io (.complete ticket outcome nowMs)) =
          .ok (some (.completed (.ok ())), next) →
        Session.Latest session.issued ticket := by
  obtain ⟨answers, session, abstract, hrun, hpath, hrelated⟩ :=
    guarded_run_refines ⟨true, leaseMs, ttlMs⟩ hfenced
  have hinvariant : StrictInvariant abstract := hpath.invariant StrictInvariant
    (fun event _ answer _ state next hstate hmove => hstate.moves rfl hmove.2 hmove.1)
    ⟨rfl, fun ticket issue _ _ hticket _ => by simp [Session.start] at hticket⟩
  exact ⟨answers, session, hrun, fun io ticket outcome nowMs next hstep =>
    hinvariant.accepts hrelated hstep⟩

/-- A key is begun, and taken over when its lease of 10 ms is up. -/
def takeover : List SessionEvent :=
  [.op .done (.begin ⟨"k"⟩ ⟨genesis⟩ 0), .op .done (.begin ⟨"k"⟩ ⟨genesis⟩ 10)]

/-- The process dies on the first worker, and the key is taken over in its next life;
then it dies on the second one too. -/
def crashedTakeover : List SessionEvent :=
  [.op .done (.begin ⟨"k"⟩ ⟨genesis⟩ 0), .crash, .op .done (.begin ⟨"k"⟩ ⟨genesis⟩ 10), .crash]

/-- The worker who took over completes the key, in a life of the process that
handed out neither token. -/
theorem accepted_token_is_latest_takeover :
    ∃ answers session next,
      Node.runSession (Session.start (Node.fresh true 10 10)) crashedTakeover =
        .ok (answers, session) ∧
      Session.step Node.step session (.op .done (.complete 1 ⟨200, ∅, []⟩ 11)) =
        .ok (some (.completed (.ok ())), next) ∧
      Session.Latest session.issued 1 := by
  obtain ⟨answers, session, hrun, hlatest⟩ := accepted_token_is_latest 10 10 crashedTakeover
    (guarded_of_quiet ⟨true, 10, 10⟩ (by decide))
  have hquiet : Along (Session.step (Point.serve ⟨true, 10, 10⟩)) QuietIn
      (Session.start (Point.restart [])) crashedTakeover := by decide
  obtain ⟨_, last, _, hlast, habstract, hrelated⟩ :=
    runSession_quiet (start_related ⟨true, 10, 10⟩) hquiet
  cases hrun.symm.trans hlast
  cases habstract
  obtain ⟨_, next, _, _, hstep, habstract, rfl, -⟩ := lockstep_quiet ⟨true, 10, 10⟩ _ _
    (.op .done (.complete 1 ⟨200, ∅, []⟩ 11)) hrelated (by decide)
  cases habstract
  exact ⟨_, session, next, hrun, hstep, hlatest _ _ _ _ _ hstep⟩

/-- After the takeover is completed, a crash and the outcome's expiry, the fence
of the first worker is minted again, and its old token completes the key. -/
def recycled : List SessionEvent :=
  takeover ++ [.op .done (.complete 1 ⟨200, ∅, []⟩ 10), .crash,
    .op .done (.begin ⟨"k"⟩ ⟨genesis⟩ 20), .op .done (.complete 0 ⟨500, ∅, []⟩ 21)]

theorem superseded_token_accepted :
    ∃ session,
      Node.runSession (Session.start (Node.fresh true 10 10)) recycled =
        .ok ([some (.begun (.run ⟨⟨"k"⟩, ⟨1⟩⟩)), some (.begun (.run ⟨⟨"k"⟩, ⟨2⟩⟩)),
          some (.completed (.ok ())), none, some (.begun (.run ⟨⟨"k"⟩, ⟨1⟩⟩)),
          some (.completed (.ok ()))], session) ∧
      ¬ Session.Latest session.issued 0 := by
  have hquiet : Along (Session.step (Point.serve ⟨true, 10, 10⟩)) QuietIn
      (Session.start (Point.restart [])) recycled := by decide
  obtain ⟨answers, session, abstract, hrun, habstract, hrelated⟩ :=
    runSession_quiet (start_related ⟨true, 10, 10⟩) hquiet
  cases habstract
  refine ⟨session, hrun, fun hlatest => ?_⟩
  rw [hrelated.issued] at hlatest
  exact hlatest _ _ 1 rfl rfl (by decide) rfl

end Onced.Wal
