import Onced.Core.Pruning
import Onced.Wal.Strict

/-! # Pruning a log does not show

Two strict nodes whose logs differ in expired records only stay so through calls, crashes
and calls that are cut short: the counter a node restarts with depends on the records in
progress, and these are the same on both sides.
-/

namespace Onced.Wal

open Foundation

/-- The indexes differ in expired records only. -/
def IndexPruned (ttlMs instant : UInt64) (index pruned : Index) : Prop :=
  ∀ key : IdempotencyKey, Pruned ttlMs instant index[key]? pruned[key]?

section Indexes

variable {ttlMs instant : UInt64} {index pruned : Index}

theorem IndexPruned.after (hpruned : IndexPruned ttlMs instant index pruned)
    (storeCall : StoreCall) :
    IndexPruned ttlMs instant (Ledger.indexAfter index storeCall)
      (Ledger.indexAfter pruned storeCall) := by
  intro key
  rw [Ledger.getElem?_indexAfter, Ledger.getElem?_indexAfter]
  exact (hpruned key).effect storeCall key

/-- The records in progress are the same. -/
theorem IndexPruned.fences (hpruned : IndexPruned ttlMs instant index pruned) (fence : UInt64) :
    fence ∈ inProgressFences index ↔ fence ∈ inProgressFences pruned := by
  rw [mem_inProgressFences, mem_inProgressFences]
  constructor
  · rintro ⟨key, fingerprint, lease, hstate⟩
    have hkey := hpruned key
    rw [hstate] at hkey
    generalize hkept : pruned[key]? = kept at hkey
    cases hkey
    exact ⟨key, fingerprint, lease, hkept⟩
  · rintro ⟨key, fingerprint, lease, hstate⟩
    have hkey := hpruned key
    rw [hstate] at hkey
    generalize hkept : index[key]? = kept at hkey
    cases hkey
    exact ⟨key, fingerprint, lease, hkept⟩

/-- An index with fewer records in progress has no larger fence. -/
theorem maxFence_mono {one other : Index}
    (hfences : inProgressFences one ⊆ inProgressFences other) :
    maxFence one ≤ maxFence other := by
  rcases maxFence_mem one with hzero | hmem
  · rw [hzero]
    exact UInt64.le_iff_toNat_le.mpr (Nat.zero_le _)
  · exact le_maxFence (hfences hmem)

/-- A restart seeds the counter alike. -/
theorem IndexPruned.maxFence_eq (hpruned : IndexPruned ttlMs instant index pruned) :
    maxFence index = maxFence pruned := by
  apply UInt64.le_antisymm
  · exact maxFence_mono fun fence => (hpruned.fences fence).mp
  · exact maxFence_mono fun fence => (hpruned.fences fence).mpr

end Indexes

/-- Two strict nodes that differ in expired records only. -/
structure Point.Twins (setup : Setup) (instant : UInt64) (point pruned : Point) : Prop where
  buffered : point.ledger.buffered = []
  prunedBuffered : pruned.ledger.buffered = []
  nextFence : pruned.nextFence = point.nextFence
  index : IndexPruned setup.ttlMs instant (Ledger.indexOf point.ledger.records)
    (Ledger.indexOf pruned.ledger.records)

namespace Point.Twins

variable {setup : Setup} {instant : UInt64} {point pruned : Point}

theorem restart {records prunedRecords : List Entry}
    (hindex : IndexPruned setup.ttlMs instant (Ledger.indexOf records)
      (Ledger.indexOf prunedRecords)) :
    Twins setup instant (Point.restart records) (Point.restart prunedRecords) := by
  refine ⟨rfl, rfl, ?_, ?_⟩
  · rw [Point.restart, Point.restart, hindex.maxFence_eq]
  · rw [Point.restart, Point.restart, Ledger.records_settled, Ledger.records_settled]
    exact hindex

/-- Cut at the same place, a call leaves such nodes behind on both sides or on none. -/
theorem cutShort (htwins : Twins setup instant point pruned) (io : Io) (storeCall : StoreCall) :
    Option.Rel (fun records prunedRecords =>
        IndexPruned setup.ttlMs instant (Ledger.indexOf records) (Ledger.indexOf prunedRecords))
      (point.ledger.cutShort io storeCall) (pruned.ledger.cutShort io storeCall) := by
  have hindex := htwins.index
  have hafter := hindex.after storeCall
  cases storeCall with
  | flush => exact .none
  | put key state =>
      simp only [Ledger.indexAfter, ← Ledger.indexOf_append_singleton] at hafter
      simp only [Ledger.cutShort]
      cases io.append with
      | done => exact .none
      | unsynced => exact .some hafter
      | stops written =>
          simp only
          split
          next => exact .some hafter
          next => exact .some hindex
  | compact iteration keep =>
      simp only [Ledger.indexAfter, ← Ledger.indexOf_compacted _ iteration] at hafter
      simp only [Ledger.cutShort]
      cases io.commit with
      | done => exact .none
      | beforeRename => exact .some hindex
      | afterRename => exact .some hafter

/-- Nobody who asks later can tell such nodes apart, and they stay so. -/
theorem step (hstrict : setup.syncEach = true) (htwins : Twins setup instant point pruned)
    {event : Event} (hsince : event.Since instant) :
    Option.Rel Answer.Agree (point.strictStep setup event).1 (pruned.strictStep setup event).1 ∧
      Twins setup instant (point.strictStep setup event).2 (pruned.strictStep setup event).2 := by
  cases event with
  | crash =>
      refine ⟨.none, restart ?_⟩
      rw [← Ledger.records_of_buffered_nil htwins.buffered,
        ← Ledger.records_of_buffered_nil htwins.prunedBuffered]
      exact htwins.index
  | call io call =>
      have hplans := @EngineCall.plan_pruned setup.leaseMs setup.ttlMs point.nextFence instant
        point.states pruned.states htwins.index call hsince
      have hplan : call.plan setup.leaseMs setup.ttlMs point.nextFence pruned.states =
          pruned.plan setup call := by rw [Point.plan, htwins.nextFence]
      rw [hplan] at hplans
      obtain ⟨hstoreCall, hcounter, hanswer⟩ := hplans
      change (point.plan setup call).storeCall = _ at hstoreCall
      cases hmakes : (pruned.plan setup call).storeCall with
      | none =>
          rw [strictStep_reads (hstoreCall.trans hmakes), strictStep_reads hmakes]
          exact ⟨.some hanswer, htwins⟩
      | some storeCall =>
          -- both sides make the same store call, and it is cut short on both or on none
          have hcut := htwins.cutShort io storeCall
          generalize hone : point.ledger.cutShort io storeCall = left at hcut
          generalize hother : pruned.ledger.cutShort io storeCall = right at hcut
          cases hcut with
          | some hindex =>
              rw [strictStep_dies (hstoreCall.trans hmakes) hone, strictStep_dies hmakes hother]
              exact ⟨.none, restart hindex⟩
          | none =>
              rw [strictStep_returns (hstoreCall.trans hmakes) hone,
                strictStep_returns hmakes hother]
              have hafter := htwins.index.after storeCall
              refine ⟨.some hanswer, ?_, ?_, ?_, ?_⟩
              · simp only [Point.after, hstoreCall, hmakes, hstrict, Ledger.call_strict_buffered]
              · simp only [Point.after, hmakes, hstrict, Ledger.call_strict_buffered]
              · rw [nextFence_after, nextFence_after]
                exact hcounter.symm
              · simpa only [Point.after, hstoreCall, hmakes, Ledger.indexOf_call] using hafter

end Point.Twins

namespace Node

/-- Two strict nodes whose logs differ in expired records only. -/
def Twins (setup : Setup) (instant : UInt64) (engine pruned : Engine WalStore) : Prop :=
  ∃ point prunedPoint, Represents setup engine point ∧ Represents setup pruned prunedPoint ∧
    Point.Twins setup instant point prunedPoint

theorem lockstep_twins {setup : Setup} (hstrict : setup.syncEach = true) (instant : UInt64) :
    Lockstep step step (Twins setup instant) (Option.Rel Answer.Agree)
      fun _ event => event.Fits ∧ event.Since instant := by
  rintro engine pruned event ⟨point, prunedPoint, hrep, hprunedRep, htwins⟩ ⟨hfits, hsince⟩
  obtain ⟨next, hstep, hnext⟩ := step_strict hstrict hrep htwins.buffered hfits
  obtain ⟨prunedNext, hprunedStep, hprunedNext⟩ :=
    step_strict hstrict hprunedRep htwins.prunedBuffered hfits
  obtain ⟨hanswer, hafter⟩ := htwins.step hstrict hsince
  exact ⟨_, next, _, prunedNext, hstep, hprunedStep, hanswer, _, _, hnext, hprunedNext, hafter⟩

/-- A strict node and the same node after it was pruned. -/
theorem twins_pruned {setup : Setup} (hstrict : setup.syncEach = true) {engine : Engine WalStore}
    {point : Point} (hrep : Represents setup engine point)
    (hbuffered : point.ledger.buffered = []) (iteration : Iteration) (instant : UInt64) :
    ∃ pruned, step engine (.call .done (.pruneExpired iteration instant)) =
        .ok (some .done, pruned) ∧ Twins setup instant engine pruned := by
  obtain ⟨pruned, hstep, hnext⟩ := @step_strict setup hstrict engine point hrep hbuffered
    (.call .done (.pruneExpired iteration instant)) trivial
  refine ⟨pruned, hstep, point, _, hrep, hnext, hbuffered, rfl, rfl, ?_⟩
  intro key
  change Pruned _ _ _ (Ledger.indexOf (Ledger.records (point.ledger.call setup.syncEach
    (.compact iteration (Engine.keeps setup.ttlMs instant)))))[key]?
  rw [Ledger.indexOf_call, Ledger.getElem?_indexAfter]
  exact .of_keeps setup.ttlMs instant key _

end Node

/-- An engine in memory, or a strict node that has run so far with records that fit their
length fields, answers whoever asks at or after an instant as if it had been pruned at
that instant: the same to every begin, and a completion is accepted on both sides or on
none. The node may crash between these calls or in them. -/
theorem prune_unobservable (iteration : Iteration) (instant : UInt64) (events : List Event)
    (hsince : ∀ event ∈ events, event.Since instant) :
    (∀ engine : Engine MemoryStore,
      PruneUnobservable Memory.serve engine iteration instant events) ∧
    ∀ (leaseMs ttlMs : UInt64) (before : List Event) (earlier : List (Option Answer))
        (engine : Engine WalStore), (∀ event ∈ before, event.Fits) →
      Node.run (Node.fresh true leaseMs ttlMs) before = .ok (earlier, engine) →
      (∀ event ∈ events, event.Fits) →
      PruneUnobservable Node.step engine iteration instant events := by
  refine ⟨fun engine => Memory.pruneUnobservable engine iteration hsince, ?_⟩
  intro leaseMs ttlMs before earlier engine hbefore hrun hfits
  have hfresh : Node.Represents ⟨true, leaseMs, ttlMs⟩ (Node.fresh true leaseMs ttlMs)
      (Point.restart []) := Node.fresh_represents ⟨true, leaseMs, ttlMs⟩
  obtain ⟨_, reached, point, hreached, hrep, hbuffered⟩ := Node.run_strict rfl hfresh rfl hbefore
  cases hrun.symm.trans hreached
  obtain ⟨pruned, hprune, htwins⟩ := Node.twins_pruned rfl hrep hbuffered iteration instant
  obtain ⟨answers, last, prunedAnswers, prunedLast, hanswers, hprunedAnswers, hagree, -⟩ :=
    (Node.lockstep_twins rfl instant).run htwins
      (along_of_forall (fun event hevent _ => ⟨hfits event hevent, hsince event hevent⟩) _)
  exact ⟨pruned, answers, prunedAnswers, last, prunedLast, hprune, hanswers, hprunedAnswers, hagree⟩

/-- A key that is locked and completed at once. -/
def charge (outcome : CachedOutcome) : List Event :=
  [.call .done (.begin ⟨"k"⟩ ⟨genesis⟩ 0), .call .done (.complete ⟨⟨"k"⟩, ⟨1⟩⟩ outcome 0)]

/-- The key expires, the node crashes, and the key is started anew. -/
theorem prune_unobservable_charge :
    (∃ earlier engine, Node.run (Node.fresh true 10 100) (charge ⟨200, ∅, [7]⟩) =
        .ok (earlier, engine) ∧
      PruneUnobservable Node.step engine .listed 100
        [.crash, .call .done (.begin ⟨"k"⟩ ⟨genesis⟩ 100)]) ∧
    PruneUnobservable Memory.serve (Memory.fresh 10 100) .listed 100
      [.call .done (.begin ⟨"k"⟩ ⟨genesis⟩ 100)] := by
  have hfits : ∀ event ∈ charge ⟨200, ∅, [7]⟩, event.Fits := by decide +kernel
  obtain ⟨earlier, engine, -, hrun, -⟩ := @Node.run_refines ⟨true, 10, 100⟩ _ _
    (Node.fresh_represents ⟨true, 10, 100⟩) _ hfits
  refine ⟨⟨earlier, engine, hrun, ?_⟩, ?_⟩
  · exact (prune_unobservable .listed 100 _ (by decide)).2 10 100 _ earlier engine hfits hrun
      (by decide +kernel)
  · exact (prune_unobservable .listed 100 _ (by decide)).1 _

/-! ## A record that does not fit -/

section Wrapped

variable {key : IdempotencyKey} {state : KeyState}
variable (hwraps : (encodePayload key state).length = 2 ^ 32)

include hwraps

/-- A length field that wrapped around to zero promises a frame without a payload. -/
theorem wrapped_refused (chain : Bytes32) :
    decodeRecord (encodeRecord key state chain) = none ∧
      isCompleteFrame (encodeRecord key state chain) = true := by
  have hfield : ofLeBytes (leBytes 4 (UInt32.ofNat (encodePayload key state).length).toNat) =
      0 := by
    rw [hwraps]
    decide
  have hentry : Reader.entry.run (Reader.new []) = none := rfl
  rw [encodeRecord_eq, decodeRecord_header _ (leBytes_length _ _) (leBytes_length _ _)
    (List.Vector.toList_length _), isCompleteFrame_header _ (leBytes_length _ _)
    (leBytes_length _ _) (List.Vector.toList_length _), hfield, List.take_zero, hentry]
  refine ⟨?_, by simp⟩
  split <;> rfl

/-- A log that ends with such a record does not open. -/
theorem openWith_wrapped {records : List Entry} (hfits : ∀ entry ∈ records, Fits entry)
    (syncEach : Bool) :
    ∃ failure, WalStore.openWith (framing.log genesis records ++
      encodeRecord key state (Ledger.rootOf records)) syncEach = .error failure := by
  obtain ⟨hnone, hcomplete⟩ := wrapped_refused hwraps (Ledger.rootOf records)
  rw [openWith_stop hfits hnone, hcomplete]
  exact ⟨_, rfl⟩

end Wrapped

/-- A put on a strict store writes its record behind the others, whether it fits or not. -/
theorem Represents.put_written {store : WalStore} {ledger : Ledger} (hrep : Represents store ledger)
    (hstrict : store.syncEach = true) (hbuffered : ledger.buffered = []) (key : IdempotencyKey)
    (state : KeyState) :
    ∃ next, (StoreCall.put key state).run .done store = .ok () next ∧ next.syncEach = true ∧
      next.index = store.index.insert key state ∧
      next.disk = framing.log genesis ledger.durable ++
        encodeRecord key state (Ledger.rootOf ledger.durable) := by
  have hempty : store.pending = [] := by
    rw [hrep.pending, hbuffered]
    rfl
  have hroot : store.chainRoot = Ledger.rootOf ledger.durable := by
    rw [hrep.chainRoot, Ledger.records_of_buffered_nil hbuffered]
  have hwaiting : (encodeRecord key state (Ledger.rootOf ledger.durable)).isEmpty = false := by
    rw [List.isEmpty_eq_false_iff, ← List.length_pos_iff, encodeRecord_length, headerLen]
    omega
  change ∃ next, WalStore.put .done key state store = .ok () next ∧ _
  rw [WalStore.put_eq, if_pos hstrict, WalStore.flushPending_eq, hempty, hroot, List.nil_append,
    hwaiting]
  refine ⟨_, rfl, hstrict, rfl, ?_⟩
  rw [WalStore.disk_of_linked (by exact hrep.linked), hrep.file, LogFile.write_end]

/-- An outcome with a body of that many zeros. -/
def zeros (length : Nat) : CachedOutcome := ⟨200, ∅, List.replicate length 0⟩

/-- With 56 bytes of its own, the record of a large enough body has a payload of
`2 ^ 32` bytes. -/
theorem zeros_wraps {length : Nat} (hlength : length + 56 = 2 ^ 32) :
    (encodePayload ⟨"k"⟩ (.completed ⟨genesis⟩ (zeros length) 0)).length = 2 ^ 32 := by
  have hheaders : (headersField (∅ : HeaderMap).toList).length = 0 := by decide +kernel
  have hkey : (utf8 "k").length = 1 := by decide
  rw [encodePayload_eq]
  simp only [stateField, bytesField, List.length_append, leBytes_length, List.length_singleton,
    List.Vector.toList_length, hkey, zeros, hheaders, List.length_replicate]
  omega

/-- The record of the lock in `charge`. -/
def chargeLock : Entry := (⟨"k"⟩, .inProgress ⟨1⟩ ⟨genesis⟩ 0)

theorem strictStep_lock :
    (Point.restart []).strictStep ⟨true, 0, 0⟩ (.call .done (.begin ⟨"k"⟩ ⟨genesis⟩ 0)) =
      (some (.begun (.run ⟨⟨"k"⟩, ⟨1⟩⟩)), ⟨Ledger.settled [chargeLock], 2⟩) := rfl

/-- At the instant of its completion, without a time to live, the key is dropped. -/
theorem filter_charged (outcome : CachedOutcome) :
    (Ledger.indexAfter (Ledger.indexOf [chargeLock])
      (.put ⟨"k"⟩ (.completed ⟨genesis⟩ outcome 0))).filter (Engine.keeps 0 0) = ∅ := by
  apply Std.ExtTreeMap.ext_getElem?
  intro key
  rw [Std.ExtTreeMap.getElem?_filter', Ledger.getElem?_indexAfter, Std.ExtTreeMap.getElem?_empty]
  by_cases hkey : ⟨"k"⟩ = key
  · simp only [StoreCall.effect, if_pos hkey]
    rfl
  · have hother : (Ledger.indexOf [chargeLock])[key]? = none := by
      have hinsert := Index.getElem?_insert ∅ ⟨"k"⟩ key chargeLock.2
      rw [if_neg hkey, Std.ExtTreeMap.getElem?_empty] at hinsert
      exact hinsert
    simp only [StoreCall.effect, if_neg hkey, hother, Option.filter_none]

/-- The node after the charge, whatever the outcome. -/
structure Charged (outcome : CachedOutcome) (engine : Engine WalStore) : Prop where
  syncEach : engine.store.syncEach = true
  leaseMs : engine.leaseMs = 0
  ttlMs : engine.ttlMs = 0
  index : engine.store.index = Ledger.indexAfter (Ledger.indexOf [chargeLock])
    (.put ⟨"k"⟩ (.completed ⟨genesis⟩ outcome 0))
  disk : engine.store.disk = framing.log genesis [chargeLock] ++
    encodeRecord ⟨"k"⟩ (.completed ⟨genesis⟩ outcome 0) (Ledger.rootOf [chargeLock])

theorem run_charge (outcome : CachedOutcome) :
    ∃ engine, Node.run (Node.fresh true 0 0) (charge outcome) =
        .ok ([some (.begun (.run ⟨⟨"k"⟩, ⟨1⟩⟩)), some (.completed (.ok ()))], engine) ∧
      Charged outcome engine := by
  obtain ⟨locked, hlock, hrep⟩ := @Node.step_strict ⟨true, 0, 0⟩ rfl _ _
    (Node.fresh_represents ⟨true, 0, 0⟩) rfl (.call .done (.begin ⟨"k"⟩ ⟨genesis⟩ 0)) (by decide)
  rw [strictStep_lock] at hlock hrep
  have hplan : locked.plan (.complete ⟨⟨"k"⟩, ⟨1⟩⟩ outcome 0) =
      ⟨some (.put ⟨"k"⟩ (.completed ⟨genesis⟩ outcome 0)), 2, .completed (.ok ())⟩ := by
    rw [hrep.plan]
    exact @EngineCall.plan_complete_holder 0 0 2 _ ⟨genesis⟩ 0 0 ⟨⟨"k"⟩, ⟨1⟩⟩ outcome rfl
  obtain ⟨store, hput, hmode, hindex, hfile⟩ := hrep.store.put_written hrep.syncEach rfl ⟨"k"⟩
    (.completed ⟨genesis⟩ outcome 0)
  have hcomplete := Engine.run_returns (by rw [hplan]) hput
  rw [hplan] at hcomplete
  refine ⟨{ locked with store := store, nextFence := 2 }, ?_, hmode, hrep.leaseMs, hrep.ttlMs, ?_,
    hfile⟩
  · have hstep : Node.step locked (.call .done (.complete ⟨⟨"k"⟩, ⟨1⟩⟩ outcome 0)) =
        .ok (some (.completed (.ok ())), { locked with store := store, nextFence := 2 }) := by
      rw [Node.step, hcomplete]
    rw [Node.run, charge, runSteps_cons_ok hlock, runSteps_cons_ok hstep]
    rfl
  · rw [hindex, hrep.store.index]
    rfl

/-- Pruned, the node goes on after a crash. -/
theorem Charged.pruned {outcome : CachedOutcome} {engine : Engine WalStore}
    (hcharged : Charged outcome engine) :
    ∃ pruned last,
      Node.step engine (.call .done (.pruneExpired .listed 0)) = .ok (some .done, pruned) ∧
      Node.run pruned [.crash, .call .done (.begin ⟨"k"⟩ ⟨genesis⟩ 0)] =
        .ok ([none, some (.begun (.run ⟨⟨"k"⟩, ⟨1⟩⟩))], last) := by
  have hfiltered : engine.store.index.filter (Engine.keeps 0 0) = ∅ := by
    rw [hcharged.index]
    exact filter_charged outcome
  have hcompact : (StoreCall.compact .listed (Engine.keeps 0 0)).run .done engine.store = .ok ()
      { engine.store with
        index := ∅, file := ⟨[], 0⟩, pending := [], chainRoot := genesis, replaced := none } := by
    change WalStore.compact .done .listed (Engine.keeps 0 0) engine.store = _
    rw [WalStore.compact_eq, hfiltered]
    rfl
  have hplan : (engine.plan (.pruneExpired .listed 0)).storeCall =
      some (.compact .listed (Engine.keeps 0 0)) := by
    rw [Engine.plan, hcharged.ttlMs]
    rfl
  have hprune := Engine.run_returns hplan hcompact
  obtain ⟨again, hagain, hrestarted⟩ := @Node.reopen_represents ⟨true, 0, 0⟩
    { engine with
      store := { engine.store with
        index := ∅, file := ⟨[], 0⟩, pending := [], chainRoot := genesis, replaced := none }
      nextFence := (engine.plan (.pruneExpired .listed 0)).nextFence }
    hcharged.syncEach hcharged.leaseMs hcharged.ttlMs [] opensTo_empty
  obtain ⟨last, hlast, -⟩ := @Node.step_strict ⟨true, 0, 0⟩ rfl _ _ hrestarted rfl
    (.call .done (.begin ⟨"k"⟩ ⟨genesis⟩ 0)) (by decide)
  rw [strictStep_lock] at hlast
  refine ⟨_, last, by rw [Node.step, hprune]; rfl, ?_⟩
  have hcrash := congrArg (Except.map fun next => ((none : Option Answer), next)) hagain
  rw [Node.run, runSteps_cons_ok hcrash, runSteps_cons_ok hlast]
  rfl

/-- Not pruned, the node does not come up again if the record does not fit. -/
theorem Charged.lost {outcome : CachedOutcome} {engine : Engine WalStore}
    (hcharged : Charged outcome engine)
    (hwraps : (encodePayload ⟨"k"⟩ (.completed ⟨genesis⟩ outcome 0)).length = 2 ^ 32)
    (events : List Event) : ∃ failure, Node.run engine (.crash :: events) = .error failure := by
  obtain ⟨failure, hfailure⟩ := openWith_wrapped hwraps
    (show ∀ entry ∈ [chargeLock], Fits entry by decide) engine.store.syncEach
  have hdead : Node.reopen engine = .error failure := by
    rw [Node.reopen, hcharged.disk, hfailure]
    rfl
  refine ⟨failure, ?_⟩
  simp only [Node.run, runSteps, Node.step, hdead, Except.map]

/-- The node that was pruned drops the record and goes on after a crash; the other one
cannot open its log any more. -/
theorem oversized_shows :
    ∃ earlier engine pruned last failure,
      Node.run (Node.fresh true 0 0) (charge (zeros (2 ^ 32 - 56))) = .ok (earlier, engine) ∧
      Node.step engine (.call .done (.pruneExpired .listed 0)) = .ok (some .done, pruned) ∧
      Node.run pruned [.crash, .call .done (.begin ⟨"k"⟩ ⟨genesis⟩ 0)] =
        .ok ([none, some (.begun (.run ⟨⟨"k"⟩, ⟨1⟩⟩))], last) ∧
      Node.run engine [.crash, .call .done (.begin ⟨"k"⟩ ⟨genesis⟩ 0)] = .error failure := by
  have hwraps := @zeros_wraps (2 ^ 32 - 56) (by omega)
  -- from here on only the length of the payload matters, and the body is not evaluated
  generalize zeros (2 ^ 32 - 56) = outcome at hwraps ⊢
  obtain ⟨engine, hrun, hcharged⟩ := run_charge outcome
  obtain ⟨pruned, last, hprune, hlast⟩ := hcharged.pruned
  obtain ⟨failure, hfailure⟩ := hcharged.lost hwraps [.call .done (.begin ⟨"k"⟩ ⟨genesis⟩ 0)]
  exact ⟨_, engine, pruned, last, failure, hrun, hprune, hlast, hfailure⟩

end Onced.Wal
