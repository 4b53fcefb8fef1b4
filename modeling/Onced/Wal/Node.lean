import Onced.Core.Engine
import Onced.Foundation.Trace
import Onced.Wal.Recovery

/-! # A node: an engine over a log, through crashes

A node answers engine calls until its process dies, between two calls or in
the middle of one. It then reopens the log and goes on with an engine that
seeds its fence counter from the recovered records. On the ledger side a node
is two record lists and a counter, and every step of the real node is a step
of that abstract one.
-/

namespace Onced

/-- The records a call may write fit their length field. Neither the fence, the
fingerprint nor the time has a bearing on a payload's length. -/
def EngineCall.Fits : EngineCall → Prop
  | .begin key fingerprint nowMs => Wal.Fits (key, .inProgress ⟨0⟩ fingerprint nowMs)
  | .complete token outcome nowMs => Wal.Fits (token.key, .completed ⟨Wal.genesis⟩ outcome nowMs)
  | .flush => True
  | .pruneExpired .. => True

instance (call : EngineCall) : Decidable call.Fits :=
  match call with
  | .begin key fingerprint nowMs =>
      inferInstanceAs (Decidable (Wal.Fits (key, .inProgress ⟨0⟩ fingerprint nowMs)))
  | .complete token outcome nowMs =>
      inferInstanceAs (Decidable (Wal.Fits (token.key, .completed ⟨Wal.genesis⟩ outcome nowMs)))
  | .flush => inferInstanceAs (Decidable True)
  | .pruneExpired .. => inferInstanceAs (Decidable True)

namespace Event

def Fits : Event → Prop
  | .call _ engineCall => engineCall.Fits
  | .crash => True

instance (event : Event) : Decidable event.Fits :=
  match event with
  | .call _ engineCall => inferInstanceAs (Decidable engineCall.Fits)
  | .crash => inferInstanceAs (Decidable True)

/-- Whatever the event asks of the disk is done. -/
def Quiet : Event → Prop
  | .call io _ => io = .done
  | .crash => True

instance (event : Event) : Decidable event.Quiet :=
  match event with
  | .call io _ => inferInstanceAs (Decidable (io = .done))
  | .crash => inferInstanceAs (Decidable True)

end Event

namespace Wal

open Foundation

theorem fits_inProgress {key : IdempotencyKey} {fence other : Fence}
    {fingerprint otherFingerprint : RequestFingerprint} {lease otherLease : UInt64}
    (hfits : Fits (key, .inProgress fence fingerprint lease)) :
    Fits (key, .inProgress other otherFingerprint otherLease) := by
  unfold Fits at hfits ⊢
  rw [encodePayload_eq] at hfits ⊢
  simpa [stateField] using hfits

theorem fits_completed {key : IdempotencyKey} {fingerprint other : RequestFingerprint}
    {outcome : CachedOutcome} {time : UInt64}
    (hfits : Fits (key, .completed fingerprint outcome time)) :
    Fits (key, .completed other outcome time) := by
  unfold Fits at hfits ⊢
  rw [encodePayload_eq] at hfits ⊢
  simpa [stateField] using hfits

/-- The store call of a plan fits when the engine call does. -/
theorem plan_fits {call : EngineCall} (hfits : call.Fits) {leaseMs ttlMs nextFence : UInt64}
    {states : IdempotencyKey → Option KeyState} {storeCall : StoreCall}
    (hplan : (call.plan leaseMs ttlMs nextFence states).storeCall = some storeCall) :
    storeCall.Fits := by
  cases EngineCall.makes_of_plan hplan with
  | starts haction => exact fits_inProgress hfits
  | commits hstate outcome nowMs => exact fits_completed hfits
  | flushes => trivial
  | prunes iteration nowMs => trivial

/-! ## The node -/

namespace Node

/-- Start again from the log file of a process that is gone. -/
def reopen (dead : Engine WalStore) : Except InvalidData (Engine WalStore) := do
  let store ← WalStore.openWith dead.store.disk dead.store.syncEach
  return Engine.withTtl store dead.leaseMs dead.ttlMs

/-- A call is answered, or the process dies in it and the node starts again. -/
def step (engine : Engine WalStore) : Event →
    Except InvalidData (Option Answer × Engine WalStore)
  | .call io call =>
      match call.run io engine with
      | .ok answer next => .ok (some answer, next)
      | .error _ dead => (reopen dead).map fun next => (none, next)
  | .crash => (reopen engine).map fun next => (none, next)

def run : Engine WalStore → List Event →
    Except InvalidData (List (Option Answer) × Engine WalStore) := runSteps step

/-- A node on an empty log file. -/
def fresh (syncEach : Bool) (leaseMs ttlMs : UInt64) : Engine WalStore :=
  Engine.withTtl ⟨∅, ⟨[], 0⟩, [], syncEach, genesis, none⟩ leaseMs ttlMs

end Node

/-! ## The abstract node -/

/-- What stays the same in every life of a node. -/
structure Setup where
  syncEach : Bool
  leaseMs : UInt64
  ttlMs : UInt64
  deriving DecidableEq

/-- The records of a node and its fence counter. -/
structure Point where
  ledger : Ledger
  nextFence : UInt64

namespace Point

/-- The states an engine reads. -/
def states (point : Point) (key : IdempotencyKey) : Option KeyState :=
  (Ledger.indexOf point.ledger.records)[key]?

/-- A new life on the surviving records. -/
def restart (records : List Entry) : Point :=
  ⟨Ledger.settled records, maxFence (Ledger.indexOf records) + 1⟩

theorem states_restart (records : List Entry) :
    (restart records).states = fun key => (Ledger.indexOf records)[key]? := by
  funext key
  rw [states, restart, Ledger.records_settled]

def plan (setup : Setup) (point : Point) (call : EngineCall) : Plan :=
  call.plan setup.leaseMs setup.ttlMs point.nextFence point.states

/-- Where a call that returns leads. -/
def after (setup : Setup) (point : Point) (call : EngineCall) : Point :=
  match (point.plan setup call).storeCall with
  | none => point
  | some storeCall =>
      ⟨point.ledger.call setup.syncEach storeCall, (point.plan setup call).nextFence⟩

/-- The steps of a node, on its records. -/
inductive Moves (setup : Setup) : Point → Event → Option Answer → Point → Prop where
  | returns (point : Point) (io : Io) (call : EngineCall) :
      Moves setup point (.call io call) (some (point.plan setup call).answer)
        (point.after setup call)
  | dies {point : Point} {io : Io} {call : EngineCall} {storeCall : StoreCall}
      {records : List Entry} (hplan : (point.plan setup call).storeCall = some storeCall)
      (hio : io ≠ .done)
      (hsurvives : point.ledger.Survives setup.syncEach (some storeCall) records) :
      Moves setup point (.call io call) none (restart records)
  | crashes (point : Point) : Moves setup point .crash none (restart point.ledger.durable)

/-- A call that returns acts on the states as planned. -/
theorem states_after (setup : Setup) (point : Point) (call : EngineCall) :
    (point.after setup call).states =
      fun key => (point.plan setup call).effect key (point.states key) := by
  funext key
  unfold after Plan.effect
  cases (point.plan setup call).storeCall with
  | none => rfl
  | some storeCall => simp only [states, Ledger.indexOf_call, Ledger.getElem?_indexAfter]

/-- A begin that is answered with a token leaves its run in progress. -/
theorem states_after_run {setup : Setup} {point : Point} {key : IdempotencyKey}
    {fingerprint : RequestFingerprint} {nowMs : UInt64} {token : RunToken}
    (hanswer : (point.plan setup (.begin key fingerprint nowMs)).answer = .begun (.run token)) :
    (point.after setup (.begin key fingerprint nowMs)).states token.key =
      some (.inProgress token.fence fingerprint (saturatingAdd nowMs setup.leaseMs)) := by
  obtain ⟨haction, rfl⟩ := EngineCall.plan_begin_run hanswer
  rw [states_after, plan, EngineCall.plan_begin_start haction]
  exact if_pos rfl

theorem nextFence_after (setup : Setup) (point : Point) (call : EngineCall) :
    (point.after setup call).nextFence = (point.plan setup call).nextFence := by
  unfold after
  split
  next hplan => exact (EngineCall.plan_nextFence_of_reads hplan).symm
  next => rfl

theorem after_of_reads {setup : Setup} {point : Point} {call : EngineCall}
    (hplan : (point.plan setup call).storeCall = none) : point.after setup call = point := by
  simp only [after, hplan]

theorem Moves.returned {setup : Setup} {point next : Point} {io : Io} {call : EngineCall}
    {reply : Answer} (hmove : point.Moves setup (.call io call) (some reply) next) :
    reply = (point.plan setup call).answer ∧ next = point.after setup call := by
  cases hmove
  exact ⟨rfl, rfl⟩

/-- A step returns, or a new life begins. -/
theorem Moves.returns_or_restarts {setup : Setup} {point next : Point} {event : Event}
    {answer : Option Answer} (hmove : point.Moves setup event answer next) :
    (∃ io call, event = .call io call ∧ answer = some (point.plan setup call).answer ∧
      next = point.after setup call) ∨
    answer = none ∧ ∃ records, next = restart records := by
  cases hmove with
  | returns io call => exact Or.inl ⟨io, call, rfl, rfl, rfl⟩
  | dies hplan hio hsurvives => exact Or.inr ⟨rfl, _, rfl⟩
  | crashes => exact Or.inr ⟨rfl, _, rfl⟩

/-- A strict step leaves the states alone or carries out the store call of its event. -/
theorem Moves.strict {setup : Setup} (hstrict : setup.syncEach = true) {point next : Point}
    (hbuffered : point.ledger.buffered = []) {event : Event} {answer : Option Answer}
    (hmove : point.Moves setup event answer next) :
    next.ledger.buffered = [] ∧
      (next.states = point.states ∨
        ∃ io call storeCall, event = .call io call ∧
          (point.plan setup call).storeCall = some storeCall ∧
          next.states = fun key => storeCall.effect key (point.states key)) := by
  cases hmove with
  | returns io call =>
      cases hplan : (point.plan setup call).storeCall with
      | none =>
          rw [after_of_reads hplan]
          exact ⟨hbuffered, Or.inl rfl⟩
      | some storeCall =>
          refine ⟨?_, Or.inr ⟨io, call, storeCall, rfl, hplan, ?_⟩⟩
          · simp only [after, hplan, hstrict, Ledger.call_strict_buffered]
          · simp only [states_after, Plan.effect, hplan]
  | @dies io call storeCall records hplan hio hsurvives =>
      rw [hstrict] at hsurvives
      refine ⟨rfl, ?_⟩
      rcases Ledger.indexOf_survives_strict hbuffered hsurvives with hindex | hindex
      · left
        funext key
        rw [states, restart, Ledger.records_settled, hindex]
        rfl
      · right
        refine ⟨io, call, storeCall, rfl, hplan, ?_⟩
        funext key
        rw [states, restart, Ledger.records_settled, hindex, Ledger.getElem?_indexAfter]
        rfl
  | crashes =>
      refine ⟨rfl, Or.inl ?_⟩
      funext key
      rw [states, restart, Ledger.records_settled, states,
        Ledger.records_of_buffered_nil hbuffered]

end Point

/-- The engine runs under the setup on a store that represents the records. -/
structure Node.Represents (setup : Setup) (engine : Engine WalStore) (point : Point) : Prop where
  store : Wal.Represents engine.store point.ledger
  syncEach : engine.store.syncEach = setup.syncEach
  leaseMs : engine.leaseMs = setup.leaseMs
  ttlMs : engine.ttlMs = setup.ttlMs
  nextFence : engine.nextFence = point.nextFence

namespace Node

variable {setup : Setup} {engine : Engine WalStore} {point : Point}

theorem Represents.states (hrep : Represents setup engine point) :
    Store.get engine.store = point.states := by
  funext key
  change engine.store.index[key]? = _
  rw [hrep.store.index]
  rfl

theorem Represents.plan (hrep : Represents setup engine point) (call : EngineCall) :
    engine.plan call = point.plan setup call := by
  unfold Engine.plan Point.plan
  rw [hrep.states, hrep.leaseMs, hrep.ttlMs, hrep.nextFence]

theorem fresh_represents (setup : Setup) :
    Represents setup (fresh setup.syncEach setup.leaseMs setup.ttlMs) (Point.restart []) :=
  ⟨⟨rfl, rfl, rfl, rfl, fun _ hentry => absurd hentry List.not_mem_nil, rfl⟩, rfl, rfl, rfl, rfl⟩

/-- Reopening brings up the surviving records. -/
theorem reopen_represents {dead : Engine WalStore} (hsync : dead.store.syncEach = setup.syncEach)
    (hlease : dead.leaseMs = setup.leaseMs) (httl : dead.ttlMs = setup.ttlMs)
    {records : List Entry} (hopens : OpensTo dead.store.disk records) :
    ∃ next, reopen dead = .ok next ∧ Represents setup next (Point.restart records) := by
  obtain ⟨store, hopen, hmode, hstore⟩ := hopens dead.store.syncEach
  refine ⟨Engine.withTtl store dead.leaseMs dead.ttlMs, ?_, hstore, hmode.trans hsync, hlease,
    httl, ?_⟩
  · simp [reopen, hopen, bind, Except.bind, pure, Except.pure]
  · change maxFence store.index + 1 = _
    rw [hstore.index, Ledger.records_settled]
    rfl

/-- An answer is the one planned. -/
theorem step_answer {io : Io} {call : EngineCall} {reply : Answer} {next : Engine WalStore}
    (hstep : step engine (.call io call) = .ok (some reply, next)) :
    reply = (engine.plan call).answer := by
  cases hrun : call.run io engine with
  | ok answer last =>
      rw [step, hrun] at hstep
      cases hstep
      exact (Engine.run_eq_ok hrun).1
  | error panic dead =>
      rw [step, hrun] at hstep
      simp only [Except.map] at hstep
      split at hstep <;> cases hstep

/-- A call that touches no store is answered whatever becomes of its I/O. -/
theorem step_reads (hrep : Represents setup engine point) {call : EngineCall} {nextFence : UInt64}
    {answer : Answer} (hplan : point.plan setup call = ⟨none, nextFence, answer⟩) (io : Io) :
    step engine (.call io call) = .ok (some answer, engine) := by
  have henginePlan : (engine.plan call).storeCall = none := by rw [hrep.plan, hplan]
  rw [step, Engine.run_reads henginePlan, hrep.plan, hplan]

/-- A call returns and acts as on the records, or it stops at a file that opens to
records that survive it. -/
theorem Represents.call_refines (hrep : Represents setup engine point) {call : EngineCall}
    (hfits : call.Fits)
    (io : Io) :
    (∃ next, call.run io engine = .ok (point.plan setup call).answer next ∧
      Represents setup next (point.after setup call)) ∨
    ∃ panic dead storeCall records, call.run io engine = .error panic dead ∧
      (point.plan setup call).storeCall = some storeCall ∧ io ≠ .done ∧
      point.ledger.Survives setup.syncEach (some storeCall) records ∧
      dead.store.syncEach = setup.syncEach ∧ dead.leaseMs = setup.leaseMs ∧
      dead.ttlMs = setup.ttlMs ∧ OpensTo dead.store.disk records := by
  cases hplan : (point.plan setup call).storeCall with
  | none =>
      have hrun : call.run io engine = _ := Engine.run_reads (by rw [hrep.plan, hplan])
      rw [hrep.plan] at hrun
      rw [Point.after_of_reads hplan]
      exact Or.inl ⟨engine, hrun, hrep⟩
  | some storeCall =>
      have henginePlan : (engine.plan call).storeCall = some storeCall := by
        rw [hrep.plan, hplan]
      rcases hrep.store.call (plan_fits hfits hplan) io with ⟨store, hstep, hmode, hstore⟩ |
        ⟨hio, message, store, records, hstep, hmode, hsurvives, hopens⟩
      · have hrun := Engine.run_returns henginePlan hstep
        rw [hrep.syncEach] at hmode hstore
        rw [hrep.plan] at hrun
        refine Or.inl ⟨_, hrun, ?_⟩
        simp only [Point.after, hplan]
        exact ⟨hstore, hmode, hrep.leaseMs, hrep.ttlMs, rfl⟩
      · have hrun := Engine.run_panics henginePlan hstep
        rw [hrep.syncEach] at hmode hsurvives
        exact Or.inr ⟨message, _, storeCall, records, hrun, rfl, hio, hsurvives, hmode,
          hrep.leaseMs, hrep.ttlMs, hopens⟩

/-- Every step of the node is a step on its records, and no reopen fails. -/
theorem step_refines (hrep : Represents setup engine point) {event : Event}
    (hfits : event.Fits) :
    ∃ answer next pointNext, step engine event = .ok (answer, next) ∧
      Point.Moves setup point event answer pointNext ∧ Represents setup next pointNext := by
  cases event with
  | crash =>
      obtain ⟨next, hreopen, hnext⟩ :=
        reopen_represents hrep.syncEach hrep.leaseMs hrep.ttlMs hrep.store.opensTo_durable
      exact ⟨none, next, _, by simp [step, hreopen, Except.map], .crashes point, hnext⟩
  | call io call =>
      rcases hrep.call_refines hfits io with ⟨next, hrun, hnext⟩ |
        ⟨panic, dead, storeCall, records, hrun, hplan, hio, hsurvives, hmode, hlease, httl, hopens⟩
      · exact ⟨_, next, _, by rw [step, hrun], .returns point io call, hnext⟩
      · obtain ⟨next, hreopen, hnext⟩ := reopen_represents hmode hlease httl hopens
        refine ⟨none, next, _, ?_, .dies hplan hio hsurvives, hnext⟩
        rw [step, hrun]
        simp only [hreopen, Except.map]

/-- A node runs through any events, and its answers are those of its records. -/
theorem run_refines (hrep : Represents setup engine point) {events : List Event}
    (hfits : ∀ event ∈ events, event.Fits) :
    ∃ answers last pointLast, run engine events = .ok (answers, last) ∧
      Path (Point.Moves setup) point events answers pointLast ∧
      Represents setup last pointLast :=
  exists_path_of_simulation (fun _ _ _ hrelated hallowed => step_refines hrelated hallowed) hrep
    (along_of_forall (fun event hevent _ => hfits event hevent) engine)

end Node

/-! ## Runs in which no call is cut short -/

namespace Point

/-- The one step a quiet event makes. -/
def serve (setup : Setup) (point : Point) : Event → Except InvalidData (Option Answer × Point)
  | .call _ call => .ok (some (point.plan setup call).answer, point.after setup call)
  | .crash => .ok (none, restart point.ledger.durable)

theorem Moves.eq_serve {setup : Setup} {point last : Point} {event : Event}
    {answer : Option Answer} (hquiet : event.Quiet) (hmove : point.Moves setup event answer last) :
    point.serve setup event = .ok (answer, last) := by
  cases hmove with
  | returns io call => rfl
  | dies hplan hio hsurvives => exact absurd hquiet hio
  | crashes => rfl

end Point

namespace Node

variable {setup : Setup} {engine : Engine WalStore} {point : Point}

/-- A quiet step of the node is computed on its records. -/
theorem step_quiet (hrep : Represents setup engine point) {event : Event}
    (hquiet : event.Fits ∧ event.Quiet) :
    ∃ answer next pointNext, step engine event = .ok (answer, next) ∧
      point.serve setup event = .ok (answer, pointNext) ∧ Represents setup next pointNext := by
  obtain ⟨answer, next, pointNext, hstep, hmove, hnext⟩ := step_refines hrep hquiet.1
  exact ⟨answer, next, pointNext, hstep, hmove.eq_serve hquiet.2, hnext⟩

theorem run_quiet (hrep : Represents setup engine point) {events : List Event}
    (hquiet : ∀ event ∈ events, event.Fits ∧ event.Quiet) :
    ∃ answers last pointLast, run engine events = .ok (answers, last) ∧
      runSteps (Point.serve setup) point events = .ok (answers, pointLast) ∧
      Represents setup last pointLast := by
  have hpaths : ∃ answers last pointLast, run engine events = .ok (answers, last) ∧
      Path (fun point event answer next => Point.serve setup point event = .ok (answer, next)) point
        events answers pointLast ∧ Represents setup last pointLast :=
    exists_path_of_simulation (fun _ _ _ hrelated hallowed => step_quiet hrelated hallowed) hrep
      (along_of_forall (fun event hevent _ => hquiet event hevent) engine)
  obtain ⟨answers, last, pointLast, hrun, hpath, hlast⟩ := hpaths
  exact ⟨answers, last, pointLast, hrun, runSteps_of_path hpath, hlast⟩

end Node

end Wal

end Onced
