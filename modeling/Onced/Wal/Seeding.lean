import Onced.Wal.Fencing

/-! # What seeding the fence counter is good for, strict mode

A reopened node counts on from the fences in progress, not from all it ever
issued. That is enough for a key whose run is in progress and for a key that is
new; it is not enough for a key whose outcome has expired. As long as no process
died, the counter itself is above every token. From the first crash on, tokens
stay apart if a key is started only when it is new or its run is in progress.
-/

namespace Onced.Wal

open Foundation

/-- The operation is done, and no process dies. -/
def Undisturbed (_ _ : UInt64) (_ : IdempotencyKey → Option KeyState) (_ : List Issue) :
    SessionEvent → Prop
  | .op io _ => io = .done
  | .crash => False

/-- An undisturbed step does not end the life of the process. -/
theorem Undisturbed.answered {ttlMs nextFence : UInt64}
    {states : IdempotencyKey → Option KeyState} {issued : List Issue} {event : SessionEvent}
    (hguard : Undisturbed ttlMs nextFence states issued event) {nodeEvent : Event}
    (hevent : event.event issued = some nodeEvent) {setup : Setup} {point next : Point} :
    ¬ point.Moves setup nodeEvent none next := by
  intro hmove
  cases event with
  | crash => exact hguard
  | op io operation =>
      obtain ⟨call, -, rfl⟩ := Option.map_eq_some_iff.mp hevent
      cases hmove with
      | dies hplan hio hsurvives => exact hio hguard

/-- The record of a run in progress. -/
def Unfinished : Option KeyState → Prop
  | some (.inProgress ..) => True
  | _ => False

/-- A start is the first one of its key, or takes over a run in progress. -/
def FirstOrTakeover (ttlMs _ : UInt64) (states : IdempotencyKey → Option KeyState)
    (issued : List Issue) : SessionEvent → Prop
  | .op _ (.begin key fingerprint nowMs) =>
      Engine.action ttlMs fingerprint nowMs (states key) = .start →
        (∀ issue ∈ issued, issue.token.key ≠ key) ∨ Unfinished (states key)
  | _ => True

section Decidable

variable (ttlMs nextFence : UInt64) (states : IdempotencyKey → Option KeyState)
  (issued : List Issue)

instance : DecidablePred (Undisturbed ttlMs nextFence states issued)
  | .op io _ => inferInstanceAs (Decidable (io = .done))
  | .crash => isFalse id

instance : DecidablePred Unfinished
  | some (.inProgress ..) => isTrue trivial
  | some (.completed ..) => isFalse id
  | none => isFalse id

instance : DecidablePred (FirstOrTakeover ttlMs nextFence states issued)
  | .op _ (.begin key fingerprint nowMs) =>
      inferInstanceAs (Decidable (Engine.action ttlMs fingerprint nowMs (states key) = .start →
        (∀ issue ∈ issued, issue.token.key ≠ key) ∨ Unfinished (states key)))
  | .op _ (.complete ..) => isTrue trivial
  | .op _ .flush => isTrue trivial
  | .op _ (.pruneExpired ..) => isTrue trivial
  | .crash => isTrue trivial

end Decidable

/-- A fence in progress is below the counter and not below any token issued for
its key, and the counter is at most one ahead of the count. -/
structure Seeded (count : Nat) (issued : List Issue) (states : IdempotencyKey → Option KeyState)
    (nextFence : UInt64) : Prop where
  atMost : ∀ issue ∈ issued, ∀ fence fingerprint leaseExpiresAtMs,
    states issue.token.key = some (.inProgress fence fingerprint leaseExpiresAtMs) →
    issue.token.fence.val ≤ fence.val
  below : ∀ key fence fingerprint leaseExpiresAtMs,
    states key = some (.inProgress fence fingerprint leaseExpiresAtMs) → fence.val < nextFence
  bound : nextFence.toNat ≤ count + 1

/-- Every token issued for the key has a fence below the counter. -/
def Outrun (issued : List Issue) (nextFence : UInt64) (key : IdempotencyKey) : Prop :=
  ∀ issue ∈ issued, issue.token.key = key → issue.token.fence.val < nextFence

/-- A counter with room above it. -/
theorem toNat_succ {nextFence : UInt64} {count : Nat} (hbound : nextFence.toNat ≤ count + 1)
    (hroom : count + 2 < 2 ^ 64) : (nextFence + 1).toNat = nextFence.toNat + 1 := by
  have hone : (1 : UInt64).toNat = 1 := by decide
  rw [UInt64.toNat_add]
  omega

namespace Seeded

variable {count : Nat} {issued : List Issue} {states : IdempotencyKey → Option KeyState}
  {nextFence : UInt64}

theorem mono (hseeded : Seeded count issued states nextFence) :
    Seeded (count + 1) issued states nextFence :=
  { hseeded with bound := hseeded.bound.trans (by omega) }

/-- A run in progress is above the tokens of its key and below the counter. -/
theorem outrun (hseeded : Seeded count issued states nextFence) {key : IdempotencyKey}
    (hunfinished : Unfinished (states key)) : Outrun issued nextFence key := by
  rintro issue hissue rfl
  cases hstate : states issue.token.key with
  | none => exact absurd hunfinished (by rw [hstate]; exact id)
  | some state =>
      cases state with
      | completed => exact absurd hunfinished (by rw [hstate]; exact id)
      | inProgress fence fingerprint lease =>
          exact UInt64.lt_of_le_of_lt (hseeded.atMost issue hissue fence fingerprint lease hstate)
            (hseeded.below _ fence fingerprint lease hstate)

/-- A call leaves the counter alone or moves it by one. -/
theorem counter (hseeded : Seeded count issued states nextFence) (hroom : count + 2 < 2 ^ 64)
    (leaseMs ttlMs : UInt64) (call : EngineCall) :
    nextFence ≤ (call.plan leaseMs ttlMs nextFence states).nextFence ∧
      (call.plan leaseMs ttlMs nextFence states).nextFence.toNat ≤ nextFence.toNat + 1 := by
  have hsucc := toNat_succ hseeded.bound hroom
  have hplanned := EngineCall.planned leaseMs ttlMs nextFence states call
  generalize call.plan leaseMs ttlMs nextFence states = plan at hplanned ⊢
  rw [UInt64.le_iff_toNat_le]
  cases hplanned with
  | starts => exact ⟨hsucc ▸ Nat.le_succ _, hsucc.le⟩
  | _ => exact ⟨Nat.le_refl _, Nat.le_succ _⟩

/-- The store call of any operation, if a start outruns the tokens of its key. -/
theorem effect (hseeded : Seeded count issued states nextFence) (hroom : count + 2 < 2 ^ 64)
    {leaseMs ttlMs : UInt64} {call : EngineCall}
    (houtrun : ∀ key fingerprint nowMs, call = .begin key fingerprint nowMs →
      Engine.action ttlMs fingerprint nowMs (states key) = .start → Outrun issued nextFence key) :
    Seeded (count + 1) issued
      (fun key => (call.plan leaseMs ttlMs nextFence states).effect key (states key))
      (call.plan leaseMs ttlMs nextFence states).nextFence := by
  have hsucc := toNat_succ hseeded.bound hroom
  have hcounter := hseeded.counter hroom leaseMs ttlMs call
  refine ⟨?_, ?_, hcounter.2.trans (Nat.succ_le_succ hseeded.bound)⟩
  · rintro ⟨⟨key, carried⟩, requested⟩ hissue fence fingerprint lease hstate
    rcases EngineCall.plan_effect_eq_some hstate with hmakes | hkept
    · cases hmakes with
      | starts haction => exact UInt64.le_of_lt (houtrun _ _ _ rfl haction _ hissue rfl)
    · exact hseeded.atMost _ hissue fence fingerprint lease hkept
  · intro key fence fingerprint lease hstate
    rcases EngineCall.plan_effect_eq_some hstate with hmakes | hkept
    · cases hmakes with
      | starts haction =>
          rw [EngineCall.plan_begin_start haction, UInt64.lt_iff_toNat_lt, hsucc]
          exact Nat.lt_succ_self _
    · exact UInt64.lt_of_lt_of_le (hseeded.below key fence fingerprint lease hkept) hcounter.1

/-- One more token, whose fence is the current one of its key. -/
theorem append (hseeded : Seeded count issued states nextFence) {fresh : Issue}
    {fingerprint : RequestFingerprint} {leaseExpiresAtMs : UInt64}
    (hcurrent : states fresh.token.key =
      some (.inProgress fresh.token.fence fingerprint leaseExpiresAtMs)) :
    Seeded count (issued ++ [fresh]) states nextFence := by
  refine { hseeded with atMost := ?_ }
  intro issue hissue fence otherFingerprint otherLease hstate
  rcases List.mem_append.mp hissue with hold | hnew
  · exact hseeded.atMost issue hold fence otherFingerprint otherLease hstate
  · obtain rfl := List.mem_singleton.mp hnew
    cases hcurrent.symm.trans hstate
    exact UInt64.le_refl _

/-- Reopening counts on from the largest fence in progress. -/
theorem reseed (hseeded : Seeded count issued states nextFence) {records : List Entry}
    (hstates : states = fun key => (Ledger.indexOf records)[key]?) :
    Seeded count issued states (maxFence (Ledger.indexOf records) + 1) := by
  subst hstates
  obtain ⟨hbelow, hbound⟩ := seed_bounds hseeded.below
  exact ⟨hseeded.atMost, hbelow, hbound.trans (max_le (by omega) hseeded.bound)⟩

/-- A strict step, if a start outruns the tokens of its key. -/
theorem moves {setup : Setup} (hstrict : setup.syncEach = true) {session next : Session Point}
    (hbuffered : session.node.ledger.buffered = []) {event : SessionEvent}
    {answer : Option Answer}
    (hseeded : Seeded count session.issued session.node.states session.node.nextFence)
    (hroom : count + 2 < 2 ^ 64)
    (houtrun : ∀ io key fingerprint nowMs, event = .op io (.begin key fingerprint nowMs) →
      Engine.action setup.ttlMs fingerprint nowMs (session.node.states key) = .start →
      Outrun session.issued session.node.nextFence key)
    (hmove : session.Moves (Point.Moves setup) event answer next) :
    Seeded (count + 1) next.issued next.node.states next.node.nextFence := by
  cases hmove with
  | skips hevent => exact hseeded.mono
  | @serves nodeEvent _ node hevent hmove =>
      have heffect : ∀ io call, nodeEvent = .call io call →
          Seeded (count + 1) session.issued
            (fun key => (session.node.plan setup call).effect key (session.node.states key))
            (session.node.plan setup call).nextFence := by
        rintro io call rfl
        refine hseeded.effect hroom ?_
        rintro key fingerprint nowMs rfl haction
        exact houtrun io key fingerprint nowMs (SessionEvent.event_eq_begin hevent) haction
      rcases hmove.returns_or_restarts with ⟨io, call, rfl, rfl, rfl⟩ | ⟨rfl, records, rfl⟩
      · have hafter := heffect io call rfl
        rw [← Point.states_after, ← Point.nextFence_after] at hafter
        cases hissue : event.issue (some (session.node.plan setup call).answer) with
        | none => simpa [Session.record, hissue] using hafter
        | some issue =>
            obtain ⟨eventIo, key, nowMs, rfl, hanswer⟩ := SessionEvent.issue_eq_some hissue
            cases hevent
            have happend := hafter.append (Point.states_after_run (Option.some.inj hanswer))
            simpa [Session.record, hissue] using happend
      -- the states are those before or after the call, and the counter is seeded from them
      · have hrestarted : ∃ counter,
            Seeded (count + 1) session.issued (Point.restart records).states counter := by
          rcases (hmove.strict hstrict hbuffered).2 with
            hsame | ⟨io, call, storeCall, rfl, hplan, hupdated⟩
          · exact ⟨_, hsame ▸ hseeded.mono⟩
          · have hafter := heffect io call rfl
            simp only [Plan.effect, hplan] at hafter
            exact ⟨_, hupdated ▸ hafter⟩
        obtain ⟨counter, hcounter⟩ := hrestarted
        have hreseeded : Seeded (count + 1) session.issued (Point.restart records).states
            (Point.restart records).nextFence := hcounter.reseed (Point.states_restart records)
        simpa [Session.record] using hreseeded

end Seeded

theorem Outrun.fresh {issued : List Issue} {nextFence : UInt64} {key : IdempotencyKey}
    (houtrun : Outrun issued nextFence key) :
    ∀ issue ∈ issued, issue.token ≠ ⟨key, ⟨nextFence⟩⟩ := by
  intro issue hissue htoken
  have hlt := houtrun issue hissue (congrArg RunToken.key htoken)
  rw [htoken] at hlt
  exact UInt64.lt_irrefl _ hlt

/-- A strict node that has taken at most `count` steps and whose counter is above
the fences in progress. -/
structure Apart (count : Nat) (session : Session Point) : Prop where
  strict : StrictInvariant session
  seeded : Seeded count session.issued session.node.states session.node.nextFence

namespace Apart

variable {setup : Setup} {count : Nat} {session next : Session Point} {event : SessionEvent}
  {answer : Option Answer}

theorem start : Apart 0 (Session.start (Point.restart [])) where
  strict := ⟨rfl, fun ticket issue _ _ hticket _ => by simp [Session.start] at hticket⟩
  seeded := ⟨fun issue hissue => absurd hissue List.not_mem_nil, fun _ _ _ _ hstate => by
    simp [Session.start, Point.states_restart, Ledger.indexOf] at hstate, by decide⟩

theorem moves (hstrict : setup.syncEach = true) (hapart : Apart count session)
    (hroom : count + 2 < 2 ^ 64)
    (houtrun : ∀ io key fingerprint nowMs, event = .op io (.begin key fingerprint nowMs) →
      Engine.action setup.ttlMs fingerprint nowMs (session.node.states key) = .start →
      Outrun session.issued session.node.nextFence key)
    (hmove : session.Moves (Point.Moves setup) event answer next) : Apart (count + 1) next where
  strict := by
    refine hapart.strict.moves hstrict ?_ hmove
    unfold FreshFence
    split
    next io key fingerprint nowMs =>
      exact fun haction => (houtrun io key fingerprint nowMs rfl haction).fresh
    next => trivial
  seeded := hapart.seeded.moves hstrict hapart.strict.buffered hroom houtrun hmove

/-- From a crash on. -/
theorem takesOver (hstrict : setup.syncEach = true) (hapart : Apart count session)
    (hroom : count + 2 < 2 ^ 64)
    (hmove : GuardedMoves FirstOrTakeover setup session event answer next) :
    Apart (count + 1) next := by
  obtain ⟨hmove, hguard⟩ := hmove
  refine hapart.moves hstrict hroom ?_ hmove
  rintro io key fingerprint nowMs rfl haction
  rcases hguard haction with hfirst | hunfinished
  · exact fun issue hissue hkey => absurd hkey (hfirst issue hissue)
  · exact hapart.seeded.outrun hunfinished

/-- Before any crash, the counter is above every token. -/
theorem undisturbed (hstrict : setup.syncEach = true) (hapart : Apart count session)
    (houtrun : ∀ key, Outrun session.issued session.node.nextFence key)
    (hroom : count + 2 < 2 ^ 64)
    (hmove : GuardedMoves Undisturbed setup session event answer next) :
    Apart (count + 1) next ∧ ∀ key, Outrun next.issued next.node.nextFence key := by
  obtain ⟨hmove, hguard⟩ := hmove
  have hnext := hapart.moves hstrict hroom (fun _ key _ _ _ _ => houtrun key) hmove
  refine ⟨hnext, ?_⟩
  cases hmove with
  | skips hevent => exact houtrun
  | @serves nodeEvent _ node hevent hmove =>
      rcases hmove.returns_or_restarts with ⟨io, call, rfl, rfl, rfl⟩ | ⟨rfl, records, rfl⟩
      · intro key issue hissue hkey
        rcases List.mem_append.mp hissue with hold | hnew
        · have hcounter := (hapart.seeded.counter hroom setup.leaseMs setup.ttlMs call).1
          rw [Session.record, Point.nextFence_after]
          exact UInt64.lt_of_lt_of_le (houtrun key issue hold hkey) hcounter
        · obtain ⟨eventIo, started, nowMs, rfl, hanswer⟩ :=
            SessionEvent.issue_eq_some (Option.mem_toList.mp hnew)
          cases hevent
          exact hnext.seeded.below _ _ _ _ (Point.states_after_run (Option.some.inj hanswer))
      · exact absurd hmove (hguard.answered hevent)

end Apart

/-- In strict mode, where from the first crash on a key is started only when it is
new or its run is in progress, a completion is accepted only with the latest token
of its key: the fences in progress are all a new life must know. -/
theorem seeding_keeps_tokens_apart (leaseMs ttlMs : UInt64) (before after : List SessionEvent)
    (hbefore : Along (Session.step Node.step) (Guarded Undisturbed)
      (Session.start (Node.fresh true leaseMs ttlMs)) before)
    (hafter : ∀ answers session,
      Node.runSession (Session.start (Node.fresh true leaseMs ttlMs)) before =
        .ok (answers, session) →
      Along (Session.step Node.step) (Guarded FirstOrTakeover) session after)
    (hroom : before.length + after.length ≤ 2 ^ 64 - 2) :
    ∃ answers session,
      Node.runSession (Session.start (Node.fresh true leaseMs ttlMs)) (before ++ after) =
        .ok (answers, session) ∧
      ∀ io ticket outcome nowMs next,
        Session.step Node.step session (.op io (.complete ticket outcome nowMs)) =
          .ok (some (.completed (.ok ())), next) →
        Session.Latest session.issued ticket := by
  obtain ⟨firstAnswers, middle, abstractMiddle, hfirst, hfirstPath, hmiddle⟩ :=
    guarded_run_refines ⟨true, leaseMs, ttlMs⟩ hbefore
  obtain ⟨secondAnswers, last, abstractLast, hsecond, hsecondPath, hlast⟩ :=
    guarded_path_refines hmiddle (hafter firstAnswers middle hfirst)
  have hundisturbed := hfirstPath.counted (fun count session => Apart count session ∧
      ∀ key, Outrun session.issued session.node.nextFence key)
    (fun event _ count hcount session answer next hsession hmove =>
      hsession.1.undisturbed rfl hsession.2 (by omega) hmove)
    (Nat.le_of_eq (Nat.zero_add _))
    ⟨.start, fun key issue hissue => absurd hissue List.not_mem_nil⟩
  have hapart := hsecondPath.counted Apart
    (fun event _ count hcount session answer next hsession hmove =>
      hsession.takesOver rfl (by omega) hmove) (Nat.le_refl _) hundisturbed.1
  exact ⟨_, last, runSteps_append hfirst hsecond, fun io ticket outcome nowMs next hstep =>
    hapart.strict.accepts hlast hstep⟩

/-- A key is completed, expires after 10 ms and is started again. -/
def rerun : List SessionEvent :=
  [.op .done (.begin ⟨"k"⟩ ⟨genesis⟩ 0), .op .done (.complete 0 ⟨200, ∅, []⟩ 1),
    .op .done (.begin ⟨"k"⟩ ⟨genesis⟩ 11)]

/-- The process dies on the second run, which is taken over; then it dies again. -/
def abandoned : List SessionEvent :=
  [.crash, .op .done (.begin ⟨"k"⟩ ⟨genesis⟩ 21), .crash]

/-- After both crashes the third worker completes the key. -/
theorem seeding_keeps_tokens_apart_rerun :
    ∃ answers session next,
      Node.runSession (Session.start (Node.fresh true 10 10)) (rerun ++ abandoned) =
        .ok (answers, session) ∧
      Session.step Node.step session (.op .done (.complete 2 ⟨200, ∅, []⟩ 22)) =
        .ok (some (.completed (.ok ())), next) ∧
      Session.Latest session.issued 2 := by
  have hquiet : Along (Session.step (Point.serve ⟨true, 10, 10⟩)) QuietIn
      (Session.start (Point.restart [])) rerun := by decide
  obtain ⟨_, middle, _, hmiddle, habstract, hmiddleRelated⟩ :=
    runSession_quiet (start_related ⟨true, 10, 10⟩) hquiet
  cases habstract
  have hafter : ∀ answers session,
      Node.runSession (Session.start (Node.fresh true 10 10)) rerun = .ok (answers, session) →
      Along (Session.step Node.step) (Guarded FirstOrTakeover) session abandoned := by
    intro answers session hrun
    cases hmiddle.symm.trans hrun
    exact guarded_of_related hmiddleRelated (by decide)
  obtain ⟨answers, session, hrun, hlatest⟩ := seeding_keeps_tokens_apart 10 10 rerun abandoned
    (guarded_of_quiet ⟨true, 10, 10⟩ (by decide)) hafter (by decide)
  have hwhole : Along (Session.step (Point.serve ⟨true, 10, 10⟩)) QuietIn
      (Session.start (Point.restart [])) (rerun ++ abandoned) := by decide
  obtain ⟨_, last, _, hlast, habstract, hrelated⟩ :=
    runSession_quiet (start_related ⟨true, 10, 10⟩) hwhole
  cases hrun.symm.trans hlast
  cases habstract
  obtain ⟨_, next, _, _, hstep, habstract, rfl, -⟩ := lockstep_quiet ⟨true, 10, 10⟩ _ _
    (.op .done (.complete 2 ⟨200, ∅, []⟩ 22)) hrelated (by decide)
  cases habstract
  exact ⟨_, session, next, hrun, hstep, hlatest _ _ _ _ _ hstep⟩

end Onced.Wal
