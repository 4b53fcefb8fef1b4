import Onced.Core.Discipline
import Onced.Wal.NodeSession

/-! # Crashes between operations do not show, strict mode

A strict node that crashes and reopens between operations answers like an
engine in memory that never crashes, as long as no stored outcome has expired.
The two mint different fences, but both are disciplined, and a disciplined
engine accepts exactly the latest token of a key.
-/

namespace Onced.Wal

open Foundation

/-- Before the instant at which an engine takes the outcome for expired. -/
abbrev BeforeExpiry (nowMs completedAtMs ttlMs : UInt64) : Prop :=
  nowMs < saturatingAdd completedAtMs ttlMs

/-- Before the sum of the completion time and the time to live, as numbers. -/
abbrev BeforeSum (nowMs completedAtMs ttlMs : UInt64) : Prop :=
  nowMs.toNat < completedAtMs.toNat + ttlMs.toNat

section Conditions

variable (inTime : UInt64 → UInt64 → UInt64 → Prop)

/-- The instant is in time for the outcome, if one is stored. -/
def OutcomeInTime (nowMs ttlMs : UInt64) : KeyState → Prop
  | .completed _ _ completedAtMs => inTime nowMs completedAtMs ttlMs
  | .inProgress .. => True

/-- The operation is made in time for every stored outcome. -/
def InTime (engine : Engine MemoryStore) (operation : Operation) : Prop :=
  ∀ nowMs ∈ operation.time, ∀ entry ∈ engine.store.keys.toList,
    OutcomeInTime inTime nowMs engine.ttlMs entry.2

/-- The operation is made in time, and it is not the start that would exhaust the
fence counter. -/
def Unhurried (session : Session (Engine MemoryStore)) : SessionEvent → Prop
  | .op _ operation => InTime inTime session.node operation ∧
      session.view.Roomy session.node.ttlMs operation
  | .crash => True

/-- Nothing fails and every record fits, and the operation is unhurried. -/
def Calm (session : Session (Engine MemoryStore)) (event : SessionEvent) : Prop :=
  QuietIn session event ∧ Unhurried inTime session event

section Decidable

variable [∀ nowMs completedAtMs ttlMs, Decidable (inTime nowMs completedAtMs ttlMs)]

instance (nowMs ttlMs : UInt64) : DecidablePred (OutcomeInTime inTime nowMs ttlMs)
  | .completed _ _ completedAtMs => inferInstanceAs (Decidable (inTime nowMs completedAtMs ttlMs))
  | .inProgress .. => inferInstanceAs (Decidable True)

instance (engine : Engine MemoryStore) (operation : Operation) :
    Decidable (InTime inTime engine operation) :=
  -- named, since the search would enumerate the instants
  Option.decidableForallMem operation.time

instance (session : Session (Engine MemoryStore)) : DecidablePred (Unhurried inTime session)
  | .op _ _ => inferInstanceAs (Decidable (_ ∧ _))
  | .crash => inferInstanceAs (Decidable True)

instance (session : Session (Engine MemoryStore)) : DecidablePred (Calm inTime session) :=
  fun event => inferInstanceAs (Decidable (QuietIn session event ∧ Unhurried inTime session event))

end Decidable

end Conditions

/-- The view of a session on records. -/
def pointView (session : Session Point) : View :=
  ⟨session.issued, session.node.states, session.node.nextFence⟩

/-- Nothing is buffered, and the two views are twins. -/
structure Matches (setup : Setup) (session : Session Point)
    (memory : Session (Engine MemoryStore)) : Prop where
  buffered : session.node.ledger.buffered = []
  leaseMs : memory.node.leaseMs = setup.leaseMs
  ttlMs : memory.node.ttlMs = setup.ttlMs
  twins : Twins (pointView session) memory.view

theorem timely_of_inTime {session : Session (Engine MemoryStore)} {operation : Operation}
    (hinTime : InTime BeforeExpiry session.node operation) :
    session.view.Timely session.node.ttlMs operation := by
  intro nowMs hnow key fingerprint outcome completedAtMs hstate
  have hentry := Std.ExtTreeMap.mem_toList_iff_getElem?_eq_some.mpr hstate
  exact hinTime nowMs hnow _ hentry

/-- Reopening seeds the counter between the fences in progress and the old counter. -/
theorem reseeded {issued : List Issue} {states : IdempotencyKey → Option KeyState}
    {nextFence : UInt64} (hdisciplined : Disciplined issued states nextFence)
    {records : List Entry} (hstates : ∀ key, states key = (Ledger.indexOf records)[key]?) :
    Disciplined issued states (maxFence (Ledger.indexOf records) + 1) := by
  obtain rfl : states = fun key => (Ledger.indexOf records)[key]? := funext hstates
  obtain ⟨hbelow, hbound⟩ := seed_bounds hdisciplined.below
  exact hdisciplined.reseed hbelow (hbound.trans (max_le (by omega) hdisciplined.bound))

/-- A crash shows on neither side. -/
theorem Matches.crash {setup : Setup} {session : Session Point}
    {memory : Session (Engine MemoryStore)} (hmatches : Matches setup session memory) :
    Matches setup (session.record .crash none (Point.restart session.node.ledger.durable))
      (memory.record .crash none memory.node) := by
  have hstates : (Point.restart session.node.ledger.durable).states = session.node.states := by
    funext key
    rw [Point.states, Point.restart, Ledger.records_settled, Point.states,
      Ledger.records_of_buffered_nil hmatches.buffered]
  obtain ⟨hone, hother, hissued, hsame⟩ := hmatches.twins
  have hreseeded := reseeded hone fun key => (congrFun hstates key).symm.trans (by
    rw [Point.states, Point.restart, Ledger.records_settled])
  have hview : pointView (session.record .crash none
      (Point.restart session.node.ledger.durable)) =
        ⟨session.issued, session.node.states,
          maxFence (Ledger.indexOf session.node.ledger.durable) + 1⟩ := by
    simp only [pointView, Session.record, SessionEvent.issue_none, Option.toList_none,
      List.append_nil, hstates]
    rfl
  have hmemory : (memory.record .crash none memory.node).view = memory.view := by
    simp [Session.view, Session.record]
  refine ⟨rfl, hmatches.leaseMs, hmatches.ttlMs, ?_⟩
  rw [hview, hmemory]
  exact ⟨hreseeded, hother, hissued, hsame⟩

/-- Up to fences, a strict node that crashes only between operations is in
lockstep with an engine in memory. -/
theorem lockstep_memory (setup : Setup) (hstrict : setup.syncEach = true) :
    Lockstep (Session.step (Point.serve setup)) (Session.step Memory.serve) (Matches setup)
      (fun answer memoryAnswer =>
        answer.map Answer.unfenced = memoryAnswer.map Answer.unfenced)
      (Calm BeforeExpiry) := by
  rintro session memory event hmatches ⟨hquiet, hcalm⟩
  cases event with
  | crash => exact ⟨none, _, none, _, rfl, rfl, rfl, hmatches.crash⟩
  | op io operation =>
      obtain ⟨hinTime, hroomy⟩ := hcalm
      have htimely := timely_of_inTime hinTime
      have httl := hmatches.ttlMs
      rw [httl] at htimely hroomy
      rcases hmatches.twins.operation setup.leaseMs htimely hroomy with
        ⟨hcall, hmemoryCall⟩ | ⟨call, twin, hcall, hmemoryCall, hanswer, htwins⟩
      · exact ⟨none, session, none, memory, Session.step_skips hcall io,
          Session.step_skips hmemoryCall io, rfl, hmatches⟩
      · obtain ⟨-, rfl⟩ : Event.Fits (.call io twin) ∧ io = .done :=
          hquiet (.call io twin) (Option.map_eq_some_iff.mpr ⟨twin, hmemoryCall, rfl⟩)
        obtain ⟨next, hrun, hlease, hnextTtl, hnextFence, hstates⟩ :=
          Engine.run_lawful twin memory.node
        have hplan : memory.node.plan twin = twin.plan setup.leaseMs setup.ttlMs
            memory.node.nextFence (Store.get memory.node.store) := by
          rw [Engine.plan, hmatches.leaseMs, httl]
        have hserve : Memory.serve memory.node (.call .done twin) =
            .ok (some (memory.node.plan twin).answer, next) := by rw [Memory.serve, hrun]
        have hmove : session.node.Moves setup (.call .done call) _ _ :=
          .returns session.node .done call
        refine ⟨_, _, _, _, Session.step_serves hcall rfl, Session.step_serves hmemoryCall hserve,
          ?_, (hmove.strict hstrict hmatches.buffered).1, hlease.trans hmatches.leaseMs,
          hnextTtl.trans httl, ?_⟩
        · rw [hplan]
          exact congrArg some hanswer
        · convert htwins using 1
          · simp only [pointView, Session.record, Point.states_after, Point.nextFence_after]
            rfl
          · simp only [Session.view, Session.record, hnextFence, hplan, funext hstates]
            rfl

/-- Both sides write records for the same keys. -/
theorem Matches.quiet {setup : Setup} {session : Session Point}
    {memory : Session (Engine MemoryStore)} (hmatches : Matches setup session memory)
    {event : SessionEvent} (hquiet : QuietIn memory event) : QuietIn session event := by
  intro nodeEvent hevent
  match event with
  | .crash => exact hquiet nodeEvent hevent
  | .op io (.begin ..) => exact hquiet nodeEvent hevent
  | .op io .flush => exact hquiet nodeEvent hevent
  | .op io (.pruneExpired ..) => exact hquiet nodeEvent hevent
  | .op io (.complete ticket outcome nowMs) =>
      obtain ⟨call, hcall, rfl⟩ := Option.map_eq_some_iff.mp hevent
      obtain ⟨issued, hissue, rfl⟩ := Option.map_eq_some_iff.mp hcall
      obtain ⟨twin, htwin, hkey⟩ := hmatches.twins.issue hissue
      have hcompletes : memory.issued[ticket]? = some twin := htwin
      have htwinQuiet := hquiet (.call io (.complete twin.token outcome nowMs))
        (by simp [SessionEvent.event, Operation.call, hcompletes])
      simpa only [Event.Fits, EngineCall.Fits, Event.Quiet, hkey] using htwinQuiet

theorem matches_start (leaseMs ttlMs : UInt64) :
    Matches ⟨true, leaseMs, ttlMs⟩ (Session.start (Point.restart []))
      (Session.start (Memory.fresh leaseMs ttlMs)) :=
  ⟨rfl, rfl, rfl, .empty fun _ => rfl, .empty fun _ => rfl, rfl, fun _ => rfl⟩

/-- Crashes between operations do not show: a strict node answers every
operation like an engine in memory, up to the fences of run tokens. -/
theorem strict_crashes_transparent (leaseMs ttlMs : UInt64) (events : List SessionEvent)
    (hcalm : Along (Session.step Memory.serve) (Calm BeforeExpiry)
      (Session.start (Memory.fresh leaseMs ttlMs)) events) :
    ∃ answers session memoryAnswers memory,
      Node.runSession (Session.start (Node.fresh true leaseMs ttlMs)) events =
        .ok (answers, session) ∧
      runSteps (Session.step Memory.serve) (Session.start (Memory.fresh leaseMs ttlMs)) events =
        .ok (memoryAnswers, memory) ∧
      answers.map (Option.map Answer.unfenced) =
        memoryAnswers.map (Option.map Answer.unfenced) := by
  have hlockstep := (lockstep_quiet ⟨true, leaseMs, ttlMs⟩).trans
    (lockstep_memory ⟨true, leaseMs, ttlMs⟩ rfl) fun _ _ _ hmatches hcalm => hmatches.quiet hcalm.1
  obtain ⟨answers, session, memoryAnswers, memory, hrun, hmemory, hagree, -⟩ := hlockstep.run
    ⟨_, start_related ⟨true, leaseMs, ttlMs⟩, matches_start leaseMs ttlMs⟩ hcalm
  refine ⟨answers, session, memoryAnswers, memory, hrun, hmemory, ?_⟩
  rw [← List.forall₂_eq_eq_eq, List.forall₂_map_left_iff, List.forall₂_map_right_iff]
  refine hagree.imp ?_
  rintro _ memoryAnswer ⟨answer, rfl, hunfenced⟩
  exact hunfenced

/-- A charge is begun, completed and replayed with a crash after each answer. -/
def interrupted : List SessionEvent :=
  [.op .done (.begin ⟨"k"⟩ ⟨genesis⟩ 0), .crash, .op .done (.complete 0 ⟨200, ∅, []⟩ 1), .crash,
    .op .done (.begin ⟨"k"⟩ ⟨genesis⟩ 2)]

theorem strict_crashes_transparent_interrupted :
    ∃ answers session,
      Node.runSession (Session.start (Node.fresh true 10 100)) interrupted =
        .ok (answers, session) ∧
      answers.map (Option.map Answer.unfenced) =
        [some (.begun (.run ⟨⟨"k"⟩, ⟨0⟩⟩)), none, some (.completed (.ok ())), none,
          some (.begun (.replay ⟨200, ∅, []⟩))] := by
  obtain ⟨answers, session, memoryAnswers, memory, hrun, hmemory, hsame⟩ :=
    strict_crashes_transparent 10 100 interrupted (by decide)
  cases hmemory
  exact ⟨answers, session, hrun, hsame⟩

/-- At the last instant of the clock every expiry has been reached: the outcome
is run again, and after a crash with the fence of the first token. -/
def lastInstant : List SessionEvent :=
  [.op .done (.begin ⟨"k"⟩ ⟨genesis⟩ 18446744073709551615),
    .op .done (.complete 0 ⟨200, ∅, []⟩ 18446744073709551615), .crash,
    .op .done (.begin ⟨"k"⟩ ⟨genesis⟩ 18446744073709551615),
    .op .done (.complete 0 ⟨200, ∅, []⟩ 18446744073709551615)]

theorem crash_shows_at_last_instant :
    Along (Session.step Memory.serve) (Calm BeforeSum) (Session.start (Memory.fresh 1 1))
      lastInstant ∧
    ∃ session memory,
      Node.runSession (Session.start (Node.fresh true 1 1)) lastInstant =
        .ok ([some (.begun (.run ⟨⟨"k"⟩, ⟨1⟩⟩)), some (.completed (.ok ())), none,
          some (.begun (.run ⟨⟨"k"⟩, ⟨1⟩⟩)), some (.completed (.ok ()))], session) ∧
      runSteps (Session.step Memory.serve) (Session.start (Memory.fresh 1 1)) lastInstant =
        .ok ([some (.begun (.run ⟨⟨"k"⟩, ⟨1⟩⟩)), some (.completed (.ok ())), none,
          some (.begun (.run ⟨⟨"k"⟩, ⟨2⟩⟩)), some (.completed (.error .staleFence))], memory) := by
  have hquiet : Along (Session.step (Point.serve ⟨true, 1, 1⟩)) QuietIn
      (Session.start (Point.restart [])) lastInstant := by decide
  obtain ⟨answers, session, abstract, hrun, habstract, hrelated⟩ :=
    runSession_quiet (start_related ⟨true, 1, 1⟩) hquiet
  cases habstract
  exact ⟨by decide, session, _, hrun, rfl⟩

end Onced.Wal
