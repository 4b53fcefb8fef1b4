import Onced.Core.Session
import Onced.Wal.Node

/-! # Sessions of a node

Sessions of a node follow its records step by step. A guard is a condition on
an event and on what the engine reads when it serves it; a session whose events
all pass a guard follows a path on records whose steps pass it too.
-/

namespace Onced.Wal

open Foundation

/-- The records the event writes fit their length fields. -/
def FitsIn {ν : Type} (session : Session ν) (event : SessionEvent) : Prop :=
  ∀ nodeEvent ∈ event.event session.issued, nodeEvent.Fits

/-- The records the event writes fit, and what it asks of the disk is done. -/
abbrev QuietIn {ν : Type} (session : Session ν) (event : SessionEvent) : Prop :=
  ∀ nodeEvent ∈ event.event session.issued, nodeEvent.Fits ∧ nodeEvent.Quiet

/-- A condition on an event, given the time to live, the next fence, the stored
states and the tokens issued so far. -/
abbrev Guard := UInt64 → UInt64 → (IdempotencyKey → Option KeyState) → List Issue →
  SessionEvent → Prop

/-- Sessions of a node, through crashes. -/
def Node.runSession : Session (Engine WalStore) → List SessionEvent →
    Except InvalidData (List (Option Answer) × Session (Engine WalStore)) :=
  runSteps (Session.step Node.step)

/-- The records of an event fit, and it passes the guard. -/
def Guarded (guard : Guard) (session : Session (Engine WalStore)) (event : SessionEvent) : Prop :=
  FitsIn session event ∧ guard session.node.ttlMs session.node.nextFence
    (Store.get session.node.store) session.issued event

/-- Steps of a session on records that pass the guard. -/
def GuardedMoves (guard : Guard) (setup : Setup) (session : Session Point) (event : SessionEvent)
    (answer : Option Answer) (next : Session Point) : Prop :=
  session.Moves (Point.Moves setup) event answer next ∧
    guard setup.ttlMs session.node.nextFence session.node.states session.issued event

theorem start_related (setup : Setup) : Session.Related (Node.Represents setup)
    (Session.start (Node.fresh setup.syncEach setup.leaseMs setup.ttlMs))
    (Session.start (Point.restart [])) :=
  ⟨Node.fresh_represents setup, rfl, rfl⟩

section Guards

variable {guard : Guard} {setup : Setup} {session : Session (Engine WalStore)}
  {abstract : Session Point} {event : SessionEvent} {events : List SessionEvent}

theorem guarded_step_refines (hrelated : Session.Related (Node.Represents setup) session abstract)
    (hguarded : Guarded guard session event) :
    ∃ answer next abstractNext, Session.step Node.step session event = .ok (answer, next) ∧
      GuardedMoves guard setup abstract event answer abstractNext ∧
      Session.Related (Node.Represents setup) next abstractNext := by
  obtain ⟨hfits, hguard⟩ := hguarded
  rw [hrelated.node.states, hrelated.node.ttlMs, hrelated.node.nextFence, hrelated.issued] at hguard
  obtain ⟨answer, next, abstractNext, hstep, hmove, hnext⟩ :=
    Session.step_simulation (fun _ _ _ hnode hevent => Node.step_refines hnode hevent) hrelated
      hfits
  exact ⟨answer, next, abstractNext, hstep, ⟨hmove, hguard⟩, hnext⟩

/-- A guarded session runs through, along a guarded path on its records. -/
theorem guarded_path_refines
    (hrelated : Session.Related (Node.Represents setup) session abstract)
    (hguarded : Along (Session.step Node.step) (Guarded guard) session events) :
    ∃ answers last abstractLast, Node.runSession session events = .ok (answers, last) ∧
      Path (GuardedMoves guard setup) abstract events answers abstractLast ∧
      Session.Related (Node.Represents setup) last abstractLast :=
  exists_path_of_simulation (fun _ _ _ => guarded_step_refines) hrelated hguarded

theorem guarded_run_refines (setup : Setup)
    (hguarded : Along (Session.step Node.step) (Guarded guard)
      (Session.start (Node.fresh setup.syncEach setup.leaseMs setup.ttlMs)) events) :
    ∃ answers session abstract,
      Node.runSession (Session.start (Node.fresh setup.syncEach setup.leaseMs setup.ttlMs)) events =
        .ok (answers, session) ∧
      Path (GuardedMoves guard setup) (Session.start (Point.restart [])) events answers abstract ∧
      Session.Related (Node.Represents setup) session abstract :=
  guarded_path_refines (start_related setup) hguarded

/-- Quiet sessions are computed on their records. -/
theorem lockstep_quiet (setup : Setup) :
    Lockstep (Session.step Node.step) (Session.step (Point.serve setup))
      (Session.Related (Node.Represents setup)) Eq QuietIn := by
  intro session abstract event hrelated hquiet
  unfold QuietIn at hquiet
  rw [← hrelated.issued] at hquiet
  have hsteps : ∃ answer next abstractNext,
      Session.step Node.step session event = .ok (answer, next) ∧
      Session.Moves (fun point event answer next =>
        Point.serve setup point event = .ok (answer, next)) abstract event answer abstractNext ∧
      Session.Related (Node.Represents setup) next abstractNext :=
    Session.step_simulation (fun _ _ _ hnode hevent => Node.step_quiet hnode hevent) hrelated hquiet
  obtain ⟨answer, next, abstractNext, hstep, hmove, hnext⟩ := hsteps
  exact ⟨answer, next, answer, abstractNext, hstep, Session.step_of_moves hmove, rfl, hnext⟩

theorem runSession_quiet (hrelated : Session.Related (Node.Represents setup) session abstract)
    (hquiet : Along (Session.step (Point.serve setup)) QuietIn abstract events) :
    ∃ answers last abstractLast, Node.runSession session events = .ok (answers, last) ∧
      runSteps (Session.step (Point.serve setup)) abstract events = .ok (answers, abstractLast) ∧
      Session.Related (Node.Represents setup) last abstractLast := by
  obtain ⟨answers, last, abstractAnswers, abstractLast, hrun, habstract, hagree, hlast⟩ :=
    (lockstep_quiet setup).run hrelated hquiet
  rw [List.forall₂_eq_eq_eq] at hagree
  subst hagree
  exact ⟨answers, last, abstractLast, hrun, habstract, hlast⟩

/-- A guard can be checked on the records of a quiet session. -/
theorem guarded_of_related (hrelated : Session.Related (Node.Represents setup) session abstract)
    (habstract : Along (Session.step (Point.serve setup)) (fun session event =>
      QuietIn session event ∧
        guard setup.ttlMs session.node.nextFence session.node.states session.issued event)
      abstract events) :
    Along (Session.step Node.step) (Guarded guard) session events := by
  refine ((lockstep_quiet setup).mono fun _ _ hcondition => And.left hcondition).along
    ?_ hrelated habstract
  rintro session abstract event hrelated ⟨hquiet, hguard⟩
  refine ⟨?_, ?_⟩
  · intro nodeEvent hevent
    rw [hrelated.issued] at hevent
    exact (hquiet nodeEvent hevent).1
  · rw [hrelated.node.states, hrelated.node.ttlMs, hrelated.node.nextFence, hrelated.issued]
    exact hguard

theorem guarded_of_quiet (setup : Setup)
    (habstract : Along (Session.step (Point.serve setup)) (fun session event =>
      QuietIn session event ∧
        guard setup.ttlMs session.node.nextFence session.node.states session.issued event)
      (Session.start (Point.restart [])) events) :
    Along (Session.step Node.step) (Guarded guard)
      (Session.start (Node.fresh setup.syncEach setup.leaseMs setup.ttlMs)) events :=
  guarded_of_related (start_related setup) habstract

end Guards

end Onced.Wal
