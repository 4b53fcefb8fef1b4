import Onced.Wal.Node

/-! # Group commit writes the log of a strict store

A group-commit store keeps its records back until it is flushed, and a strict one
writes each of them at once. As long as the disk does what it is asked, that is all
the difference there is: what a group-commit store has written, followed by what it
holds back, is at every moment the log of the strict store that got the same calls,
byte by byte, and engines over the two give the same answers.
-/

namespace Onced.Wal

open Foundation

namespace WalStore

/-- The next write goes to the end of the file. -/
def AtEnd (store : WalStore) : Prop := store.file.cursor = store.file.bytes.length

/-- What is held back, written. -/
def written (store : WalStore) : WalStore :=
  { store with
    file := LogFile.seekEnd ⟨store.file.bytes ++ store.pending, 0⟩
    pending := [] }

/-- The strict store that has written what this one has written or holds back. -/
def strictly (group : WalStore) : WalStore := { group.written with syncEach := true }

theorem flushPending_written {store : WalStore} (hend : store.AtEnd) :
    flushPending .done store = .ok () store.written := by
  obtain ⟨index, ⟨bytes, cursor⟩, pending, syncEach, chainRoot⟩ := store
  obtain rfl : cursor = bytes.length := hend
  rw [flushPending_eq]
  cases pending with
  | nil => simp [written, LogFile.seekEnd]
  | cons first rest => simp [written, Io.done, LogFile.write_end, LogFile.seekEnd]

theorem written_of_pending_nil {store : WalStore} (hend : store.AtEnd)
    (hpending : store.pending = []) : store.written = store := by
  obtain ⟨index, ⟨bytes, cursor⟩, pending, syncEach, chainRoot⟩ := store
  obtain rfl : cursor = bytes.length := hend
  obtain rfl : pending = [] := hpending
  simp [written, LogFile.seekEnd]

variable {group : WalStore}

/-- A call on a group-commit store, and the same call on its strict store. -/
theorem run_strictly (hend : group.AtEnd) (hmode : group.syncEach = false)
    (storeCall : StoreCall) :
    ∃ next : WalStore, storeCall.run .done group = .ok () next ∧ next.AtEnd ∧
      next.syncEach = false ∧ storeCall.run .done group.strictly = .ok () next.strictly := by
  cases storeCall with
  | put key state =>
      refine ⟨{ group with
        pending := group.pending ++ encodeRecord key state group.chainRoot
        chainRoot := recordChainBytes (encodeRecord key state group.chainRoot)
        index := group.index.insert key state }, ?_, hend, hmode, ?_⟩
      · change put .done key state group = _
        rw [put_eq, hmode]
        rfl
      · -- the strict store writes the record behind all that the other holds back
        change put .done key state group.strictly = _
        have hwrites : ∀ index pending root, AtEnd { group.strictly with
            index := index, pending := pending, chainRoot := root } := fun _ _ _ => rfl
        rw [put_eq]
        refine (flushPending_written (hwrites _ _ _)).trans ?_
        simp [strictly, written, LogFile.seekEnd]
  | flush =>
      refine ⟨group.written, flushPending_written hend, rfl, hmode, ?_⟩
      have hstrict : group.strictly.AtEnd := rfl
      change flushPending .done group.strictly = _
      rw [flushPending_written hstrict, written_of_pending_nil hstrict rfl]
      simp [strictly, written, LogFile.seekEnd]
  | compact iteration keep =>
      exact ⟨_, compact_eq .done iteration keep group, rfl, hmode, by
        change compact .done iteration keep group.strictly = _
        rw [compact_eq]
        simp [strictly, written, LogFile.seekEnd, Io.done]⟩

end WalStore

/-- The engine over the strict store. -/
def strictly (engine : Engine WalStore) : Engine WalStore :=
  { engine with store := engine.store.strictly }

/-- A call of an engine over a group-commit store, and the same call over its strict store. -/
theorem run_strictly {group : Engine WalStore} (hend : group.store.AtEnd)
    (hmode : group.store.syncEach = false) (call : EngineCall) :
    ∃ answer next, call.run .done group = .ok answer next ∧ next.store.AtEnd ∧
      next.store.syncEach = false ∧
      call.run .done (strictly group) = .ok answer (strictly next) := by
  cases hplan : (group.plan call).storeCall with
  | none =>
      have hsame : ((strictly group).plan call).storeCall = none := hplan
      exact ⟨_, group, Engine.run_reads hplan, hend, hmode, Engine.run_reads hsame⟩
  | some storeCall =>
      have hsame : ((strictly group).plan call).storeCall = some storeCall := hplan
      obtain ⟨next, hrun, hnext, hnextMode, hstrict⟩ :=
        WalStore.run_strictly hend hmode storeCall
      exact ⟨_, _, Engine.run_returns hplan hrun, hnext, hnextMode,
        Engine.run_returns hsame hstrict⟩

/-- Nodes over the two stores stay in step. -/
theorem Node.lockstep_strictly :
    Lockstep step step
      (fun strict group => group.store.AtEnd ∧ group.store.syncEach = false ∧
        strict = strictly group)
      (· = ·) (fun _ event => ∃ call, event = .call .done call) := by
  rintro _ group _ ⟨hend, hmode, rfl⟩ ⟨call, rfl⟩
  obtain ⟨answer, next, hrun, hnext, hnextMode, hstrict⟩ := run_strictly hend hmode call
  exact ⟨some answer, strictly next, some answer, next, by simp only [step, hstrict],
    by simp only [step, hrun], rfl, hnext, hnextMode, rfl⟩

/-- A log opens in both modes, to stores that differ in the mode alone. -/
theorem openWith_modes {disk : List UInt8} {strict : WalStore}
    (hopen : WalStore.openWith disk true = .ok strict) :
    ∃ group : WalStore, WalStore.openWith disk false = .ok group ∧ group.AtEnd ∧
      group.syncEach = false ∧ strict = group.strictly := by
  rw [openWith_eq] at hopen
  rw [openWith_eq]
  cases hreplay : replay disk ⟨∅, 0, genesis⟩ with
  | error failure =>
      rw [hreplay] at hopen
      cases hopen
  | ok last =>
      rw [hreplay] at hopen
      simp only at hopen ⊢
      have hoffset : last.offset ≤ disk.length := (replay_offset hreplay (Nat.zero_le _)).2
      split at hopen
      next => cases hopen
      next hincomplete =>
        cases hopen
        rw [if_neg hincomplete]
        refine ⟨_, rfl, ?_, rfl, ?_⟩
        · simp [WalStore.AtEnd, LogFile.setLen, LogFile.seekStart, hoffset]
        · simp [WalStore.strictly, WalStore.written, LogFile.setLen, LogFile.seekStart,
            LogFile.seekEnd, hoffset]

/-- On any log that opens, and for any calls, engines in the two modes answer alike. What the
group-commit one has written is the first part of the strict log and what it holds back is the
rest, and once it is flushed the two stores differ in nothing but their mode. -/
theorem group_commit_writes_strict_log {disk : List UInt8} {strict : WalStore}
    (hopen : WalStore.openWith disk true = .ok strict) (leaseMs ttlMs : UInt64)
    (calls : List EngineCall) :
    ∃ group answers strictLast groupLast flushed,
      WalStore.openWith disk false = .ok group ∧
      Node.run (Engine.withTtl strict leaseMs ttlMs) (calls.map (.call .done)) =
        .ok (answers, strictLast) ∧
      Node.run (Engine.withTtl group leaseMs ttlMs) (calls.map (.call .done)) =
        .ok (answers, groupLast) ∧
      strictLast.store.file.bytes = groupLast.store.file.bytes ++ groupLast.store.pending ∧
      Engine.flush .done groupLast = .ok () flushed ∧
      flushed.store = { strictLast.store with syncEach := false } ∧
      flushed.nextFence = strictLast.nextFence := by
  obtain ⟨group, hgroup, hend, hmode, rfl⟩ := openWith_modes hopen
  have hstart : (Engine.withTtl group leaseMs ttlMs).store.AtEnd ∧
      (Engine.withTtl group leaseMs ttlMs).store.syncEach = false ∧
      Engine.withTtl group.strictly leaseMs ttlMs =
        strictly (Engine.withTtl group leaseMs ttlMs) := ⟨hend, hmode, rfl⟩
  have hcalls : Along Node.step (fun _ event => ∃ call, event = .call .done call)
      (Engine.withTtl group leaseMs ttlMs) (calls.map (.call .done)) := by
    apply along_of_forall
    intro event hevent _
    obtain ⟨call, -, rfl⟩ := List.mem_map.mp hevent
    exact ⟨call, rfl⟩
  obtain ⟨answers, _, sameAnswers, groupLast, hstrictRun, hgroupRun, hagree, hlast, hlastMode,
    rfl⟩ := Node.lockstep_strictly.run hstart hcalls
  obtain rfl : answers = sameAnswers := by rwa [List.forall₂_eq_eq_eq] at hagree
  have hflush : Engine.flush .done groupLast =
      .ok () { groupLast with store := groupLast.store.written } := by
    simp only [Engine.flush, Engine.onStore, Store.flush, WalStore.flush,
      WalStore.flushPending_written hlast]
  refine ⟨group, answers, _, groupLast, _, hgroup, hstrictRun, hgroupRun, rfl, hflush, ?_, rfl⟩
  have hmode : groupLast.store.written.syncEach = false := hlastMode
  change groupLast.store.written = { groupLast.store.written with syncEach := false }
  rw [← hmode]

/-- A key is locked, completed and asked for again on an empty log, and nothing is flushed. -/
theorem group_commit_writes_strict_log_charge :
    ∃ strict group answers strictLast groupLast flushed,
      WalStore.openWith [] true = .ok strict ∧ WalStore.openWith [] false = .ok group ∧
      Node.run (Engine.withTtl strict 10 100) ([EngineCall.begin ⟨"k"⟩ ⟨genesis⟩ 0,
        .complete ⟨⟨"k"⟩, ⟨1⟩⟩ ⟨200, ∅, [7]⟩ 1, .begin ⟨"k"⟩ ⟨genesis⟩ 2].map (.call .done)) =
        .ok (answers, strictLast) ∧
      Node.run (Engine.withTtl group 10 100) ([EngineCall.begin ⟨"k"⟩ ⟨genesis⟩ 0,
        .complete ⟨⟨"k"⟩, ⟨1⟩⟩ ⟨200, ∅, [7]⟩ 1, .begin ⟨"k"⟩ ⟨genesis⟩ 2].map (.call .done)) =
        .ok (answers, groupLast) ∧
      strictLast.store.file.bytes = groupLast.store.file.bytes ++ groupLast.store.pending ∧
      Engine.flush .done groupLast = .ok () flushed ∧
      flushed.store = { strictLast.store with syncEach := false } ∧
      flushed.nextFence = strictLast.nextFence := by
  obtain ⟨strict, hopen, -, -⟩ := opensTo_empty true
  obtain ⟨group, answers, strictLast, groupLast, flushed, hrest⟩ :=
    group_commit_writes_strict_log hopen 10 100 [.begin ⟨"k"⟩ ⟨genesis⟩ 0,
      .complete ⟨⟨"k"⟩, ⟨1⟩⟩ ⟨200, ∅, [7]⟩ 1, .begin ⟨"k"⟩ ⟨genesis⟩ 2]
  exact ⟨strict, group, answers, strictLast, groupLast, flushed, hopen, hrest⟩

end Onced.Wal
