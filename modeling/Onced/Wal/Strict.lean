import Onced.Wal.Node

/-! # Strict nodes, step by step

A strict store has nothing buffered between calls, so what a call leaves behind when its
I/O is cut short is decided by where it was cut: a record is in the log once all its
bytes are, and a compacted log once it is renamed. A strict node with its I/O is
therefore a function on its records.
-/

namespace Onced.Wal

open Foundation

/-- The records a strict call leaves behind when its I/O is cut short. -/
def Ledger.cutShort (io : Io) (ledger : Ledger) : StoreCall → Option (List Entry)
  | .put key state =>
      match io.append with
      | .done => none
      | .unsynced => some (ledger.records ++ [(key, state)])
      | .stops written =>
          if headerLen + (encodePayload key state).length ≤ written then
            some (ledger.records ++ [(key, state)])
          else some ledger.records
  | .flush => none
  | .compact iteration keep =>
      match io.commit with
      | .done => none
      | .beforeRename _ => some ledger.records
      | .afterRename _ => some (ledger.compacted iteration keep)

section Stores

variable {store : WalStore} {ledger : Ledger}

/-- Behind whole frames, a frame cut before its end is cut off on the next open. -/
theorem opensTo_cut_frame {records : List Entry} {entry : Entry}
    (hfits : ∀ other ∈ records ++ [entry], Fits other) (written : Nat) :
    OpensTo (framing.log genesis records ++
        (encodeRecord entry.1 entry.2 (Ledger.rootOf records)).take written)
      (if headerLen + (encodePayload entry.1 entry.2).length ≤ written then records ++ [entry]
        else records) := by
  rw [← encodeRecord_length entry.1 entry.2 (Ledger.rootOf records)]
  split
  next hwhole =>
    have hopens := opensTo_log hfits
    rw [List.take_of_length_le hwhole]
    simpa [Ledger.rootOf] using hopens
  next hcut =>
    refine opensTo_of_torn hfits (Or.inr ⟨entry, [], rfl, List.take_prefix _ _,
      fun hsame => hcut ?_⟩)
    rw [← List.take_eq_self_iff]
    exact hsame

/-- A put on a strict store: its record is in the log once all its bytes are. -/
theorem Represents.strict_put (hrep : Represents store ledger) (hstrict : store.syncEach = true)
    (hbuffered : ledger.buffered = []) {key : IdempotencyKey} {state : KeyState}
    (hfits : Fits (key, state)) (io : Io) :
    match ledger.cutShort io (.put key state) with
    | none => ∃ next, WalStore.put io key state store = .ok () next ∧ next.syncEach = true ∧
        Represents next (ledger.call true (.put key state))
    | some records => ∃ message dead, WalStore.put io key state store = .error message dead ∧
        dead.syncEach = true ∧ OpensTo dead.disk records := by
  have hrecords := Ledger.records_of_buffered_nil hbuffered
  have hbuffer := hrep.buffer hfits
  rw [hbuffered, List.nil_append] at hbuffer
  have hpending : store.pending ++ encodeRecord key state store.chainRoot =
      encodeRecord key state (Ledger.rootOf ledger.durable) := by
    have hlog := hbuffer.pending
    simpa using hlog
  have hwaiting : (store.pending ++ encodeRecord key state store.chainRoot).isEmpty = false := by
    rw [List.isEmpty_eq_false_iff, hpending, ← List.length_pos_iff, encodeRecord_length, headerLen]
    omega
  have hopens : ∀ written, OpensTo (store.file.write ((store.pending ++
      encodeRecord key state store.chainRoot).take written)).bytes
        (if headerLen + (encodePayload key state).length ≤ written then
          ledger.records ++ [(key, state)] else ledger.records) := by
    intro written
    rw [hpending, hrep.file, LogFile.write_end, hrecords]
    exact @opensTo_cut_frame _ (key, state) hbuffer.fits written
  simp only [Ledger.cutShort]
  -- a strict put flushes at once, so the append of the flush decides
  rw [WalStore.put_eq, if_pos hstrict, WalStore.flushPending_eq, hwaiting]
  cases happend : io.append with
  | done =>
      rcases hbuffer.flushPending io with ⟨next, hrun, hmode, hnext⟩ | ⟨hio, -⟩
      · rw [WalStore.flushPending_eq, hwaiting, happend] at hrun
        refine ⟨next, hrun, hmode.trans hstrict, ?_⟩
        simpa [Ledger.call, Ledger.records, hbuffered] using hnext
      · contradiction
  | unsynced =>
      have hwhole := hopens (store.pending ++ encodeRecord key state store.chainRoot).length
      rw [List.take_length, hpending, encodeRecord_length, if_pos (le_refl _), ← hpending] at hwhole
      refine ⟨_, _, rfl, hstrict, ?_⟩
      rw [WalStore.disk_of_linked (by exact hrep.linked)]
      exact hwhole
  | stops written =>
      have hcut := hopens written
      split at hcut
      next hwhole =>
        simp only [if_pos hwhole]
        refine ⟨_, _, rfl, hstrict, ?_⟩
        rw [WalStore.disk_of_linked (by exact hrep.linked)]
        exact hcut
      next hshort =>
        simp only [if_neg hshort]
        refine ⟨_, _, rfl, hstrict, ?_⟩
        rw [WalStore.disk_of_linked (by exact hrep.linked)]
        exact hcut

/-- A compaction on a strict store: the rename decides. -/
theorem Represents.strict_compact (hrep : Represents store ledger)
    (hstrict : store.syncEach = true) (hbuffered : ledger.buffered = []) (iteration : Iteration)
    (keep : IdempotencyKey → KeyState → Bool) (io : Io) :
    match ledger.cutShort io (.compact iteration keep) with
    | none => ∃ next, WalStore.compact io iteration keep store = .ok () next ∧
        next.syncEach = true ∧ Represents next (ledger.call true (.compact iteration keep))
    | some records => ∃ message dead, WalStore.compact io iteration keep store =
        .error message dead ∧ dead.syncEach = true ∧ OpensTo dead.disk records := by
  have hcompact := hrep.compact iteration keep io
  simp only [Ledger.cutShort]
  rw [WalStore.compact_eq] at hcompact ⊢
  cases hcommit : io.commit with
  | done =>
      rw [hcommit] at hcompact
      rcases hcompact with ⟨next, hrun, hmode, hnext⟩ | ⟨-, message, dead, records, hrun, -⟩
      · rw [hstrict] at hmode hnext
        exact ⟨next, hrun, hmode, hnext⟩
      · cases hrun
  | beforeRename =>
      refine ⟨_, _, rfl, hstrict, ?_⟩
      rw [Ledger.records_of_buffered_nil hbuffered]
      exact hrep.opensTo_durable
  | afterRename =>
      refine ⟨_, _, rfl, hstrict, ?_⟩
      simp only [rewriteLog_eq]
      rw [hrep.index]
      exact hrep.opensTo_compacted iteration keep

/-- What a strict call does, its I/O included. -/
theorem Represents.strict_call (hrep : Represents store ledger) (hstrict : store.syncEach = true)
    (hbuffered : ledger.buffered = []) {storeCall : StoreCall} (hfits : storeCall.Fits) (io : Io) :
    match ledger.cutShort io storeCall with
    | none => ∃ next, storeCall.run io store = .ok () next ∧ next.syncEach = true ∧
        Represents next (ledger.call true storeCall)
    | some records => ∃ message dead, storeCall.run io store = .error message dead ∧
        dead.syncEach = true ∧ OpensTo dead.disk records := by
  cases storeCall with
  | put key state => exact hrep.strict_put hstrict hbuffered hfits io
  | compact iteration keep => exact hrep.strict_compact hstrict hbuffered iteration keep io
  | flush =>
      -- nothing waits to be written
      have hempty : store.pending.isEmpty = true := by
        rw [hrep.pending, hbuffered]
        rfl
      refine ⟨store, ?_, hstrict, ?_⟩
      · change WalStore.flushPending io store = _
        rw [WalStore.flushPending_eq, if_pos hempty]
      · rw [Ledger.call, Ledger.settled_of_buffered_nil hbuffered]
        exact hrep

end Stores

/-! ## Nodes -/

namespace Point

/-- The step of a strict node. -/
def strictStep (setup : Setup) (point : Point) : Event → Option Answer × Point
  | .call io call =>
      match (point.plan setup call).storeCall with
      | none => (some (point.plan setup call).answer, point)
      | some storeCall =>
          match point.ledger.cutShort io storeCall with
          | none => (some (point.plan setup call).answer, point.after setup call)
          | some records => (none, restart records)
  | .crash => (none, restart point.ledger.durable)

section Steps

variable {setup : Setup} {point : Point} {io : Io} {call : EngineCall} {storeCall : StoreCall}

theorem strictStep_reads (hplan : (point.plan setup call).storeCall = none) :
    point.strictStep setup (.call io call) = (some (point.plan setup call).answer, point) := by
  simp only [strictStep, hplan]

theorem strictStep_returns (hplan : (point.plan setup call).storeCall = some storeCall)
    (hcut : point.ledger.cutShort io storeCall = none) :
    point.strictStep setup (.call io call) =
      (some (point.plan setup call).answer, point.after setup call) := by
  simp only [strictStep, hplan, hcut]

theorem strictStep_dies (hplan : (point.plan setup call).storeCall = some storeCall)
    {records : List Entry} (hcut : point.ledger.cutShort io storeCall = some records) :
    point.strictStep setup (.call io call) = (none, restart records) := by
  simp only [strictStep, hplan, hcut]

end Steps

theorem strictStep_buffered {setup : Setup} (hstrict : setup.syncEach = true) {point : Point}
    (hbuffered : point.ledger.buffered = []) (event : Event) :
    (point.strictStep setup event).2.ledger.buffered = [] := by
  cases event with
  | crash => rfl
  | call io call =>
      simp only [strictStep]
      split
      next => exact hbuffered
      next storeCall hplan =>
        split
        next =>
          simp only [after, hplan, hstrict]
          exact Ledger.call_strict_buffered point.ledger storeCall
        next => rfl

end Point

/-- A strict node takes the step its records say. -/
theorem Node.step_strict {setup : Setup} (hstrict : setup.syncEach = true)
    {engine : Engine WalStore} {point : Point} (hrep : Node.Represents setup engine point)
    (hbuffered : point.ledger.buffered = []) {event : Event} (hfits : event.Fits) :
    ∃ next, step engine event = .ok ((point.strictStep setup event).1, next) ∧
      Node.Represents setup next (point.strictStep setup event).2 := by
  cases event with
  | crash =>
      obtain ⟨next, hreopen, hnext⟩ :=
        reopen_represents hrep.syncEach hrep.leaseMs hrep.ttlMs hrep.store.opensTo_durable
      exact ⟨next, by simp [step, hreopen, Except.map, Point.strictStep], hnext⟩
  | call io call =>
      cases hplan : (point.plan setup call).storeCall with
      | none =>
          rw [Point.strictStep_reads hplan]
          refine ⟨engine, ?_, hrep⟩
          rw [step, Engine.run_reads (by rw [hrep.plan, hplan]), hrep.plan]
      | some storeCall =>
          have henginePlan : (engine.plan call).storeCall = some storeCall := by
            rw [hrep.plan, hplan]
          have hcall := hrep.store.strict_call (hrep.syncEach.trans hstrict) hbuffered
            (plan_fits hfits hplan) io
          cases hcut : point.ledger.cutShort io storeCall with
          | none =>
              rw [hcut] at hcall
              obtain ⟨store, hrun, hmode, hstore⟩ := hcall
              rw [Point.strictStep_returns hplan hcut]
              refine ⟨_, by rw [step, Engine.run_returns henginePlan hrun, hrep.plan], ?_⟩
              simp only [Point.after, hplan, hstrict]
              exact ⟨hstore, hmode.trans hstrict.symm, hrep.leaseMs, hrep.ttlMs, rfl⟩
          | some records =>
              rw [hcut] at hcall
              obtain ⟨message, dead, hrun, hmode, hopens⟩ := hcall
              have hpanics := Engine.run_panics henginePlan hrun
              rw [Point.strictStep_dies hplan hcut]
              obtain ⟨next, hreopen, hnext⟩ := @reopen_represents setup
                { engine with store := dead, nextFence := (engine.plan call).nextFence }
                (hmode.trans hstrict.symm) hrep.leaseMs hrep.ttlMs records hopens
              refine ⟨next, ?_, hnext⟩
              rw [step, hpanics]
              simp only [hreopen, Except.map]

/-- A strict node runs through any events, and is left with nothing buffered. -/
theorem Node.run_strict {setup : Setup} (hstrict : setup.syncEach = true)
    {engine : Engine WalStore} {point : Point} (hrep : Node.Represents setup engine point)
    (hbuffered : point.ledger.buffered = []) {events : List Event}
    (hfits : ∀ event ∈ events, event.Fits) :
    ∃ answers last pointLast, run engine events = .ok (answers, last) ∧
      Node.Represents setup last pointLast ∧ pointLast.ledger.buffered = [] := by
  have hrelated : Node.Represents setup engine point ∧ point.ledger.buffered = [] :=
    ⟨hrep, hbuffered⟩
  obtain ⟨answers, last, pointLast, hrun, -, hlast⟩ :=
    @exists_path_of_simulation _ _ _ _ _ (fun point event answer next =>
        point.strictStep setup event = (answer, next)) step
      (fun engine point => Node.Represents setup engine point ∧ point.ledger.buffered = [])
      (fun _ event => event.Fits) (by
        rintro engine point event ⟨hrep, hbuffered⟩ hevent
        obtain ⟨next, hstep, hnext⟩ := step_strict hstrict hrep hbuffered hevent
        exact ⟨_, next, _, hstep, rfl, hnext, Point.strictStep_buffered hstrict hbuffered event⟩)
      events engine point hrelated (along_of_forall (fun event hevent _ => hfits event hevent) _)
  exact ⟨answers, last, pointLast, hrun, hlast⟩

end Onced.Wal
