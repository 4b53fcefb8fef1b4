import Onced.Gateway.OneAnswer
import Onced.Wal.Node

/-! # A shard over a log that fails

An append or a sync that fails panics, and the panic leaves the index ahead of
the file: the record is in memory and in the pending bytes, not in the log. A
compaction that fails after its rename leaves the descriptor with the old file,
where later records are lost. The lock is recovered all the same, so the next
request is answered from that index. As long as no request is served while bytes
are left pending or while the descriptor is not that of the log, every outcome
that is shown can be read back from the log.
-/

namespace Onced

open Foundation

namespace Wal

/-! ## Stores with nothing pending -/

/-- The log holds exactly these records, nothing is pending, and what memory
knows of a key is what they say. Memory may know less: a compaction that fails
has already dropped its entries. -/
structure Trails (store : WalStore) (records : List Entry) : Prop where
  file : Represents { store with index := Ledger.indexOf records } (Ledger.settled records)
  known : ∀ (key : IdempotencyKey) (state : KeyState), store.index[key]? = some state →
    (Ledger.indexOf records)[key]? = some state

/-- What a put does to anything but the index does not depend on it. -/
theorem WalStore.put_reindexed (io : Io) (key : IdempotencyKey) (state : KeyState)
    (store : WalStore) (index : Index) :
    put io key state { store with index := index } =
      match put io key state store with
      | .ok _ next => .ok () { next with index := index.insert key state }
      | .error panic next => .error panic { next with index := index.insert key state } := by
  rw [put_eq, put_eq]
  cases hsync : store.syncEach with
  | false => rfl
  | true =>
      simp only [if_true, flushPending_eq]
      split
      next => rfl
      next => cases io.append <;> rfl

namespace Trails

variable {store next : WalStore} {records : List Entry} {io : Io}

theorem of_represents (hrep : Represents store (Ledger.settled records)) :
    Trails store records := by
  have hindex : store.index = Ledger.indexOf records := by simpa using hrep.index
  refine ⟨?_, fun key state hstate => hindex ▸ hstate⟩
  rw [← hindex]
  exact hrep

theorem pending (htrails : Trails store records) : store.pending = [] := htrails.file.pending

theorem linked (htrails : Trails store records) : store.replaced = none := htrails.file.linked

theorem opensTo (htrails : Trails store records) : OpensTo store.disk records :=
  htrails.file.opensTo_durable

theorem put_ok (htrails : Trails store records) (hstrict : store.syncEach = true)
    {key : IdempotencyKey} {state : KeyState} (hfits : Fits (key, state))
    (hrun : WalStore.put io key state store = .ok () next) :
    Trails next (records ++ [(key, state)]) := by
  have hreindexed := WalStore.put_reindexed io key state store (Ledger.indexOf records)
  rw [hrun] at hreindexed
  have hindex : next.index = store.index.insert key state :=
    (@WalStore.run_ok io (.put key state) store next hrun).1
  rcases htrails.file.put hfits io with ⟨after, hafter, -, hrep⟩ | ⟨-, _, _, _, hafter, -⟩
  · cases hreindexed.symm.trans hafter
    refine ⟨?_, fun other known hknown => ?_⟩
    · rw [Ledger.indexOf_append_singleton]
      simpa [Ledger.call, hstrict] using hrep
    · rw [hindex, Index.getElem?_insert] at hknown
      rw [Ledger.indexOf_append_singleton, Index.getElem?_insert]
      split
      next hsame => rwa [if_pos hsame] at hknown
      next hother =>
        rw [if_neg hother] at hknown
        exact htrails.known other known hknown
  · cases hreindexed.symm.trans hafter

theorem encodeRecord_ne_nil (key : IdempotencyKey) (state : KeyState) (chain : Bytes32) :
    encodeRecord key state chain ≠ [] := by
  intro hempty
  have hlength := congrArg List.length hempty
  simp [encodeRecord_length, headerLen] at hlength

/-- A put that panics leaves its record pending. -/
theorem put_error (htrails : Trails store records) (hstrict : store.syncEach = true)
    {key : IdempotencyKey} {state : KeyState} {panic : Panic}
    (hrun : WalStore.put io key state store = .error panic next) : next.pending ≠ [] := by
  have hrecord := encodeRecord_ne_nil key state store.chainRoot
  rw [WalStore.put_eq, hstrict, if_pos rfl, WalStore.flushPending_eq, htrails.pending] at hrun
  split at hrun
  next => contradiction
  next =>
    cases happend : io.append with
    | done =>
        rw [happend] at hrun
        cases hrun
    | stops written =>
        rw [happend] at hrun
        cases hrun
        exact hrecord
    | unsynced =>
        rw [happend] at hrun
        cases hrun
        exact hrecord

theorem compact_ok (htrails : Trails store records) {iteration : Iteration}
    {keep : IdempotencyKey → KeyState → Bool}
    (hrun : WalStore.compact io iteration keep store = .ok () next) :
    Trails next (iteration.order (store.index.filter keep).toList) := by
  have hindex : Ledger.indexOf (iteration.order (store.index.filter keep).toList) =
      store.index.filter keep := insertAll_of_perm (iteration.perm _)
  rw [WalStore.compact_eq] at hrun
  cases hcommit : io.commit with
  | done =>
      rw [hcommit] at hrun
      cases hrun
      refine ⟨⟨?_, rfl, by simp, ?_, ?_, rfl⟩, ?_⟩
      · simp [rewriteLog_eq, LogFile.seekEnd, Ledger.settled]
      · simp [rewriteLog_eq, Ledger.rootOf]
      · intro entry hentry
        rw [Ledger.records_settled, (iteration.perm _).mem_iff] at hentry
        have hkept := Std.ExtTreeMap.mem_toList_iff_getElem?_eq_some.mp hentry
        rw [Std.ExtTreeMap.getElem?_filter'] at hkept
        have hknown := htrails.known _ _ (Option.filter_eq_some_iff.mp hkept).1
        apply htrails.file.fits
        rw [Ledger.records_settled]
        exact Ledger.mem_of_getElem?_indexOf hknown
      · intro key state hstate
        rwa [hindex]
  | beforeRename =>
      rw [hcommit] at hrun
      cases hrun
  | afterRename =>
      rw [hcommit] at hrun
      cases hrun

/-- A compaction that fails leaves the log as it was, unless it fails after the rename. -/
theorem compact_error (htrails : Trails store records) {iteration : Iteration}
    {keep : IdempotencyKey → KeyState → Bool} {panic : Panic}
    (hrun : WalStore.compact io iteration keep store = .error panic next)
    (hlinked : next.replaced = none) : Trails next records := by
  rw [WalStore.compact_eq] at hrun
  cases hends : io.commit with
  | done =>
      rw [hends] at hrun
      cases hrun
  | beforeRename =>
      rw [hends] at hrun
      cases hrun
      refine ⟨htrails.file, fun key state hstate => ?_⟩
      rw [Std.ExtTreeMap.getElem?_filter'] at hstate
      exact htrails.known key state (Option.filter_eq_some_iff.mp hstate).1
  | afterRename =>
      rw [hends] at hrun
      cases hrun
      cases hlinked

theorem run_flush (htrails : Trails store records) (io : Io) :
    StoreCall.run io .flush store = .ok () store := by
  change WalStore.flushPending io store = _
  rw [WalStore.flushPending_eq, htrails.pending]
  rfl

/-- A call that returns leaves nothing pending. -/
theorem run_ok (htrails : Trails store records) (hstrict : store.syncEach = true)
    {storeCall : StoreCall} (hfits : storeCall.Fits)
    (hrun : storeCall.run io store = .ok () next) : ∃ records, Trails next records := by
  cases storeCall with
  | put key state => exact ⟨_, htrails.put_ok hstrict hfits hrun⟩
  | compact iteration keep => exact ⟨_, htrails.compact_ok hrun⟩
  | flush =>
      cases (htrails.run_flush io).symm.trans hrun
      exact ⟨records, htrails⟩

/-- A call that panics leaves bytes pending, another file at the path, or the log as it was. -/
theorem run_error (htrails : Trails store records) (hstrict : store.syncEach = true)
    {storeCall : StoreCall} {panic : Panic} (hrun : storeCall.run io store = .error panic next)
    (hpending : next.pending = []) (hlinked : next.replaced = none) : Trails next records := by
  cases storeCall with
  | put key state => exact absurd hpending (htrails.put_error hstrict hrun)
  | compact iteration keep => exact htrails.compact_error hrun hlinked
  | flush => cases (htrails.run_flush io).symm.trans hrun

end Trails

end Wal

/-! ## Sections on a shard whose log is in order -/

namespace Shard

open Wal

/-- Nothing is left pending, the descriptor is that of the log, the record fits,
and no completion is refused. -/
structure Sound (shard : Shard WalStore) (event : ShardEvent) : Prop where
  flushed : shard.gateway.engine.store.pending = []
  linked : shard.gateway.engine.store.replaced = none
  fits : ∀ call, shard.call event = some call → call.Fits
  held : shard.Held event

/-- The store is strict, and unless bytes are pending or its file is no longer the log,
the log is in order. -/
structure Kept (store : WalStore) : Prop where
  strict : store.syncEach = true
  trails : store.pending = [] → store.replaced = none → ∃ records, Trails store records

/-- Opening the log file as it stands gives this outcome for the key. -/
def Recovers (shard : Shard WalStore) (key : IdempotencyKey) (outcome : CachedOutcome) : Prop :=
  ∀ syncEach, ∃ reopened, WalStore.openWith shard.gateway.engine.store.disk syncEach =
      .ok reopened ∧
    ∃ fingerprint completedAtMs,
      reopened.index[key]? = some (.completed fingerprint outcome completedAtMs)

variable {shard next : Shard WalStore} {event : ShardEvent} {handled : Handled}

theorem recovers_of_trails {records : List Entry}
    (htrails : Trails shard.gateway.engine.store records) {key : IdempotencyKey}
    {outcome : CachedOutcome} (hstored : shard.Stored key outcome) :
    shard.Recovers key outcome := by
  intro syncEach
  obtain ⟨fingerprint, completedAtMs, hstate⟩ := hstored
  obtain ⟨reopened, hopen, -, hrep⟩ := htrails.opensTo syncEach
  refine ⟨reopened, hopen, fingerprint, completedAtMs, ?_⟩
  rw [hrep.index, Ledger.records_settled]
  exact htrails.known key _ hstate

/-- An engine call that returns leaves nothing pending and acts as planned. -/
theorem run_trails {engine last : Engine WalStore} (hstrict : engine.store.syncEach = true)
    {records : List Entry} (htrails : Trails engine.store records) {io : Io} {call : EngineCall}
    (hfits : call.Fits) {answer : Answer} (hrun : call.run io engine = .ok answer last) :
    last.store.syncEach = true ∧ (∃ records, Trails last.store records) ∧
      ∀ key, Store.get last.store key =
        (engine.plan call).effect key (Store.get engine.store key) := by
  obtain ⟨-, ⟨hplan, rfl⟩ | ⟨storeCall, hplan, hstore⟩⟩ := Engine.run_eq_ok hrun
  · refine ⟨hstrict, ⟨records, htrails⟩, fun key => ?_⟩
    rw [Plan.effect, hplan]
  · obtain ⟨hindex, hmode⟩ := WalStore.run_ok hstore
    refine ⟨hmode.trans hstrict, htrails.run_ok hstrict (plan_fits hfits hplan) hstore,
      fun key => ?_⟩
    change last.store.index[key]? = _
    rw [hindex, Ledger.getElem?_indexAfter, Plan.effect, hplan]
    rfl

/-- A sound section keeps the log in order unless it panics over an append or after a
rename, and what it shows can be read back. -/
theorem Sound.keeps (hsound : shard.Sound event) (hkept : Kept shard.gateway.engine.store)
    (hdoes : shard.Does event handled next) :
    Kept next.gateway.engine.store ∧ ∀ key outcome, handled.shown = some (key, outcome) →
      handled.Shows outcome ∧ next.Recovers key outcome := by
  obtain ⟨records, htrails⟩ := hkept.trails hsound.flushed hsound.linked
  cases hdoes with
  | passes _ hengine =>
      rw [hengine]
      exact ⟨hkept, nofun⟩
  | panics hcall hrun =>
      obtain ⟨storeCall, hplan, hstore⟩ := Engine.run_eq_error hrun
      refine ⟨⟨(WalStore.run_error hstore).2.trans hkept.strict, fun hpending hlinked => ?_⟩,
        nofun⟩
      exact ⟨records, htrails.run_error hkept.strict hstore hpending hlinked⟩
  | returns hcall hrun htells =>
      obtain ⟨hstrict, hafter, hstates⟩ :=
        run_trails hkept.strict htrails (hsound.fits _ hcall) hrun
      obtain ⟨rfl, -⟩ := Engine.run_eq_ok hrun
      refine ⟨⟨hstrict, fun _ _ => hafter⟩, fun key outcome hshown => ?_⟩
      obtain ⟨hshows, fingerprint, completedAtMs, hstate⟩ := hsound.held.shows hcall htells hshown
      obtain ⟨after, hafter⟩ := hafter
      exact ⟨hshows, recovers_of_trails hafter
        ⟨fingerprint, completedAtMs, (hstates key).trans hstate⟩⟩

/-- A section whose outcome, if it shows one, can be read back from the file. -/
def Recoverable (shard : Shard WalStore) (event : ShardEvent) (handled : Handled)
    (next : Shard WalStore) : Prop :=
  shard.step event = .ok (handled, next) ∧ ∀ key outcome, handled.shown = some (key, outcome) →
    handled.Shows outcome ∧ next.Recovers key outcome

/-- A shard is opened on a log and serves sound sections, some of which fail.
Whenever it hands out a response tagged created or replayed, opening the file as
it stands at that moment gives the outcome that was shown. -/
theorem shown_outcomes_recovered {disk : List UInt8} {records : List Entry}
    (hlog : OpensTo disk records) {gateway : Gateway WalStore}
    (hopen : WalStore.openWith disk true = .ok gateway.engine.store) (events : List ShardEvent)
    (hsound : Along step Sound (fresh gateway) events) :
    ∃ handled last, runSteps step (fresh gateway) events = .ok (handled, last) ∧
      Path Recoverable (fresh gateway) events handled last := by
  obtain ⟨opened, hopened, hstrict, hrep⟩ := hlog true
  obtain rfl := Except.ok.inj (hopened.symm.trans hopen)
  have hstep : ∀ (shard : Shard WalStore) event, Kept shard.gateway.engine.store →
      shard.Sound event →
      ∃ handled next, shard.step event = .ok (handled, next) ∧
        shard.Recoverable event handled next ∧ Kept next.gateway.engine.store := by
    intro shard event hkept hsound
    obtain ⟨handled, next, hstep, hdoes⟩ := shard.step_does event
    obtain ⟨hnext, hshows⟩ := hsound.keeps hkept hdoes
    exact ⟨handled, next, hstep, ⟨hstep, hshows⟩, hnext⟩
  obtain ⟨handled, last, hrun, hpath, -⟩ := exists_path_of_invariant
    (fun shard => Kept shard.gateway.engine.store) hstep
    ⟨hstrict, fun _ _ => ⟨records, .of_represents hrep⟩⟩ hsound
  exact ⟨handled, last, hrun, hpath⟩

/-- An append that stops at once: the outcome is in memory, and the file is as it was. -/
theorem step_append_fails {records : List Entry}
    (htrails : Trails shard.gateway.engine.store records)
    (hstrict : shard.gateway.engine.store.syncEach = true) {slot : Nat} {token : RunToken}
    {nowMs leaseExpiresAtMs : UInt64} {fingerprint : RequestFingerprint} {response : Response}
    (hslot : shard.forwards[slot]? = some (some ⟨⟨some token⟩, nowMs⟩))
    (hstatus : ¬ response.status ≥ 500)
    (hstate : shard.states token.key =
      some (.inProgress token.fence fingerprint leaseExpiresAtMs)) :
    ∃ panic next, shard.step (.complete ⟨.stops 0, .done⟩ slot (.ok response)) =
        .ok (⟨.panicked panic, none⟩, next) ∧
      next.gateway.fingerprintKey = shard.gateway.fingerprintKey ∧
      next.gateway.engine.ttlMs = shard.gateway.engine.ttlMs ∧
      next.states token.key = some (.completed fingerprint (toOutcome response) nowMs) ∧
      next.gateway.engine.store.disk = shard.gateway.engine.store.disk := by
  have hcall : shard.call (.complete ⟨.stops 0, .done⟩ slot (.ok response)) =
      some (.complete token (toOutcome response) nowMs) := by
    simp [call, hslot, ForwardTicket.commit, hstatus]
  have hplan : (shard.gateway.engine.plan (.complete token (toOutcome response) nowMs)).storeCall =
      some (.put token.key (.completed fingerprint (toOutcome response) nowMs)) := by
    rw [Engine.plan, EngineCall.plan_complete_holder hstate]
  have hput : StoreCall.run ⟨.stops 0, .done⟩
      (.put token.key (.completed fingerprint (toOutcome response) nowMs))
      shard.gateway.engine.store = _ := WalStore.put_eq _ _ _ _
  rw [hstrict, if_pos rfl, WalStore.flushPending_eq, htrails.pending, List.nil_append,
    if_neg (by simpa using Trails.encodeRecord_ne_nil _ _ _)] at hput
  have hpanics := Engine.run_panics hplan hput
  obtain ⟨handled, next, hstep, hdoes⟩ :=
    shard.step_does (.complete ⟨.stops 0, .done⟩ slot (.ok response))
  cases hdoes with
  | passes hnone => rw [hcall] at hnone; contradiction
  | returns hsome hrun =>
      obtain rfl := Option.some.inj (hcall.symm.trans hsome)
      cases hpanics.symm.trans hrun
  | panics hsome hrun _ hkeeps =>
      obtain rfl := Option.some.inj (hcall.symm.trans hsome)
      obtain ⟨-, hengine⟩ := EStateM.Result.error.inj (hpanics.symm.trans hrun)
      refine ⟨_, next, hstep, hkeeps.fingerprintKey, by rw [← hengine], ?_, ?_⟩
      · rw [states, ← hengine]
        exact (Index.getElem?_insert _ _ _ _).trans (if_pos rfl)
      · have hlinked : next.gateway.engine.store.replaced = none := by
          rw [← hengine]
          exact htrails.linked
        rw [WalStore.disk_of_linked htrails.linked, WalStore.disk_of_linked hlinked, ← hengine]
        change (LogFile.write shard.gateway.engine.store.file []).bytes = _
        rw [show shard.gateway.engine.store.file = _ from htrails.file.file, LogFile.write_end,
          List.append_nil]

end Shard

/-! ## An outcome ahead of the log -/

/-- A shard on an empty log with a lease of 10 and a time to live of 100. -/
def till : Shard Wal.WalStore := .fresh (.new (Wal.Node.fresh true 10 100))

theorem till_opened : Wal.WalStore.openWith [] true = .ok till.gateway.engine.store := by
  have hempty : ([] : List UInt8).length < Wal.headerLen := by decide
  have hopen := @Wal.openWith_stop [] (fun _ hentry => absurd hentry List.not_mem_nil) []
    (Wal.decodeRecord_short hempty) true
  rwa [Wal.isCompleteFrame_short hempty, if_neg Bool.false_ne_true] at hopen

theorem till_kept : Shard.Kept till.gateway.engine.store :=
  ⟨rfl, fun _ _ => ⟨[], .of_represents ⟨rfl, rfl, rfl, rfl, fun _ hentry =>
    absurd hentry List.not_mem_nil, rfl⟩⟩⟩

theorem charge_fits (fingerprint : RequestFingerprint) (nowMs : UInt64) :
    (EngineCall.begin ⟨"k"⟩ fingerprint nowMs).Fits :=
  Wal.fits_inProgress (show Wal.Fits (⟨"k"⟩, .inProgress ⟨0⟩ ⟨Wal.genesis⟩ 0) by decide)

/-- The charge is begun on the empty log. -/
theorem till_begun :
    ∃ begun one records, till.step (.begin .done charge 0) = .ok (begun, one) ∧
      till.Sound (.begin .done charge 0) ∧ one.gateway.engine.store.syncEach = true ∧
      Wal.Trails one.gateway.engine.store records ∧ till.SameSetup one ∧
      one.states ⟨"k"⟩ = some (.inProgress ⟨1⟩
        (fingerprintOf charge till.gateway.fingerprintKey) 10) ∧
      one.forwards[0]? = some (some ⟨⟨some ⟨⟨"k"⟩, ⟨1⟩⟩⟩, 0⟩) := by
  obtain ⟨one, hbegin, hsetup, hstate, _, hforwards⟩ := till.step_starts 0 charge_key rfl
  have hcall : till.call (.begin .done charge 0) = some (.begin ⟨"k"⟩
      (fingerprintOf charge till.gateway.fingerprintKey) 0) := by simp [Shard.call, charge_key]
  have hsound : till.Sound (.begin .done charge 0) := by
    refine ⟨rfl, rfl, fun call hsome => ?_, fun _ _ _ hsome => ?_⟩
    · cases hcall.symm.trans hsome
      exact charge_fits _ _
    · cases hcall.symm.trans hsome
  obtain ⟨records, hopened⟩ := till_kept.trails rfl rfl
  have hdoes := Shard.does_of_step hbegin
  cases hdoes with
  | returns hsome hrun =>
      obtain ⟨hstrict, ⟨after, hafter⟩, -⟩ :=
        Shard.run_trails till_kept.strict hopened (hsound.fits _ hsome) hrun
      refine ⟨_, one, after, hbegin, hsound, hstrict, hafter, hsetup, hstate, ?_⟩
      rw [hforwards]
      rfl

/-- The charge is begun and completed. -/
theorem shown_outcomes_recovered_charge :
    ∃ begun created one last, runSteps Shard.step till
        [.begin .done charge 0, .complete .done 0 (.ok ⟨200, [], [2]⟩)] =
          .ok ([begun, created], last) ∧
      Shard.Recoverable till (.begin .done charge 0) begun one ∧
      Shard.Recoverable one (.complete .done 0 (.ok ⟨200, [], [2]⟩)) created last ∧
      created.shown = some (⟨"k"⟩, ⟨200, ∅, [2]⟩) := by
  obtain ⟨begun, one, records, hbegin, hsound, _, htrails, _, hstate, hslot⟩ := till_begun
  obtain ⟨two, hcommit, -⟩ := one.step_commits hslot
    (show ¬ (Response.mk 200 [] [2]).status ≥ 500 by decide) hstate
  have hcall := call_complete_charge hslot
  have hpath : Path (fun shard event handled next => Shard.step shard event = .ok (handled, next))
      till _ _ two := .cons hbegin (.cons hcommit (.nil two))
  have hruns := runSteps_of_path hpath
  obtain ⟨handled, last, hrun, hrecovers⟩ := Shard.shown_outcomes_recovered Wal.opensTo_empty
    till_opened [.begin .done charge 0, .complete .done 0 (.ok ⟨200, [], [2]⟩)] (by
      change Along Shard.step Shard.Sound till _
      refine ⟨hsound, ?_⟩
      rw [hbegin]
      refine ⟨⟨htrails.pending, htrails.linked, fun call hsome => ?_,
        fun _ _ _ hsome => ?_⟩, by trivial⟩
      · cases hcall.symm.trans hsome
        decide
      · cases hcall.symm.trans hsome
        exact ⟨_, _, hstate⟩)
  cases hruns.symm.trans hrun
  cases hrecovers with
  | cons hfirst hrest =>
      cases hrest with
      | cons hsecond hnone =>
          cases hnone
          exact ⟨_, _, _, _, hruns, hfirst, hsecond, rfl⟩

/-- The append of an outcome fails; the panic unwinds, the lock is recovered, and
a retry is answered from memory while the log still has the charge in progress. -/
theorem replayed_outcome_not_in_log :
    ∃ begun failed replayed last reopened, runSteps Shard.step till
        [.begin .done charge 0, .complete ⟨.stops 0, .done⟩ 0 (.ok ⟨200, [], [2]⟩),
          .begin .done charge 1] = .ok ([begun, failed, replayed], last) ∧
      (∃ panic, failed.reply = .panicked panic) ∧
      replayed.reply = .answered ⟨200, [("Onced-Status", "replayed")], [2]⟩ ∧
      Wal.WalStore.openWith last.gateway.engine.store.disk true = .ok reopened ∧
      reopened.index[(⟨"k"⟩ : IdempotencyKey)]? = some (.inProgress ⟨1⟩
        (fingerprintOf charge till.gateway.fingerprintKey) 10) := by
  obtain ⟨begun, one, records, hbegin, _, hstrict, htrails, hsetup, hstate, hslot⟩ := till_begun
  obtain ⟨panic, two, hfails, hkey, httl, hcompleted, hbytes⟩ :=
    Shard.step_append_fails htrails hstrict hslot
      (show ¬ (Response.mk 200 [] [2]).status ≥ 500 by decide) hstate
  rw [← hsetup.fingerprintKey, ← hkey] at hcompleted
  have hlive : (1 : UInt64) < saturatingAdd 0 two.gateway.engine.ttlMs := by
    rw [httl, hsetup.ttlMs]
    decide
  obtain ⟨three, hreplays, hengine⟩ := two.step_replays .done charge_key hcompleted hlive
  have hpath : Path (fun shard event handled next => Shard.step shard event = .ok (handled, next))
      till _ _ three := .cons hbegin (.cons hfails (.cons hreplays (.nil three)))
  obtain ⟨reopened, hopen, -, hrep⟩ := htrails.opensTo true
  refine ⟨_, _, _, three, reopened, runSteps_of_path hpath, ⟨panic, rfl⟩, rfl, ?_, ?_⟩
  · rwa [hengine, hbytes]
  · rw [hrep.index, Wal.Ledger.records_settled]
    exact htrails.known _ _ hstate

end Onced
