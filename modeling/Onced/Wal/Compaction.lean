import Onced.Wal.Node

/-! # What compaction does to the log

The length of a record does not depend on where it stands in the chain. Compaction
writes one record for every key that is left, and that record was in the log before:
so the log does not grow, and a second compaction finds nothing to do.
-/

namespace Onced.Wal

open Foundation

/-- The length of a record, wherever it stands. -/
def recordLength (entry : Entry) : Nat := headerLen + (encodePayload entry.1 entry.2).length

theorem length_log (chain : Bytes32) (records : List Entry) :
    (framing.log chain records).length = (records.map recordLength).sum := by
  induction records generalizing chain with
  | nil => rfl
  | cons entry records ih =>
      rw [Framing.log_cons, List.length_append, ih, List.map_cons, List.sum_cons, framing_encode,
        encodeRecord_length]
      rfl

/-- An index lists a record of every key that has one, and each only once. -/
theorem sum_toList_le {index : Index} {records : List Entry}
    (hindex : ∀ (key : IdempotencyKey) (state : KeyState), index[key]? = some state →
      (key, state) ∈ records) (size : Entry → Nat) :
    (index.toList.map size).sum ≤ (records.map size).sum := by
  have hnodup : index.toList.Nodup := by
    apply List.Nodup.of_map Prod.fst
    rw [Std.ExtTreeMap.map_fst_toList_eq_keys]
    exact index.nodup_keys
  have hsubset : index.toList ⊆ records := by
    intro entry hentry
    exact hindex _ _ (Std.ExtTreeMap.mem_toList_iff_getElem?_eq_some.mp hentry)
  obtain ⟨listed, hperm, hsublist⟩ := List.subperm_of_subset hnodup hsubset
  rw [← (hperm.map size).sum_eq]
  exact (hsublist.map size).sum_le_sum fun _ _ => Nat.zero_le _

/-- The stored length is that of the records on disk and of those held back. -/
theorem Represents.length_eq {store : WalStore} {ledger : Ledger}
    (hrep : Represents store ledger) :
    store.disk.length + store.pending.length = (ledger.records.map recordLength).sum := by
  rw [hrep.disk_eq, hrep.pending, length_log, length_log, Ledger.records, List.map_append,
    List.sum_append]

/-- The store that a compaction leaves. -/
def WalStore.compacted (iteration : Iteration) (keep : IdempotencyKey → KeyState → Bool)
    (store : WalStore) : WalStore :=
  { store with
    index := store.index.filter keep
    file := LogFile.seekEnd
      ⟨framing.log genesis (iteration.order (store.index.filter keep).toList), 0⟩
    pending := []
    chainRoot := framing.root genesis (iteration.order (store.index.filter keep).toList)
    replaced := none }

theorem pruneExpired_done (iteration : Iteration) (nowMs : UInt64) (engine : Engine WalStore) :
    Engine.pruneExpired .done iteration nowMs engine = .ok () { engine with
      store := engine.store.compacted iteration (Engine.keeps engine.ttlMs nowMs) } := by
  have hcompact : WalStore.compact .done iteration (Engine.keeps engine.ttlMs nowMs) engine.store =
      .ok () (engine.store.compacted iteration (Engine.keeps engine.ttlMs nowMs)) := by
    rw [WalStore.compact_eq]
    simp only [rewriteLog_eq]
    rfl
  simp only [Engine.pruneExpired, Engine.onStore, Store.compact, hcompact, bind, EStateM.bind, get,
    getThe, MonadStateOf.get, EStateM.get]

section Compacted

variable (iteration : Iteration) (keep : IdempotencyKey → KeyState → Bool) (store : WalStore)

/-- A compacted log has one record for every entry that is kept. -/
theorem disk_compacted :
    (store.compacted iteration keep).disk =
      framing.log genesis (iteration.order (store.index.filter keep).toList) := rfl

theorem length_compacted :
    (store.compacted iteration keep).disk.length =
      ((store.index.filter keep).toList.map recordLength).sum := by
  rw [disk_compacted, length_log]
  exact ((iteration.perm _).map recordLength).sum_eq

/-- No key has two records in a compacted log. -/
theorem nodup_compacted :
    ((iteration.order (store.index.filter keep).toList).map Prod.fst).Nodup := by
  rw [((iteration.perm _).map Prod.fst).nodup_iff, Std.ExtTreeMap.map_fst_toList_eq_keys]
  exact Std.ExtTreeMap.nodup_keys

/-- The records of a compacted log are the entries that are kept. -/
theorem mem_compacted {key : IdempotencyKey} {state : KeyState} :
    (key, state) ∈ iteration.order (store.index.filter keep).toList ↔
      Store.get store key = some state ∧ keep key state := by
  rw [(iteration.perm _).mem_iff, Std.ExtTreeMap.mem_toList_iff_getElem?_eq_some,
    Std.ExtTreeMap.getElem?_filter', Option.filter_eq_some_iff]
  rfl

end Compacted

/-- What a second compaction keeps, the first one has kept. -/
theorem filter_filter_self (index : Index) (keep : IdempotencyKey → KeyState → Bool) :
    (index.filter keep).filter keep = index.filter keep := by
  apply Std.ExtTreeMap.ext_getElem?
  intro key
  simp only [Std.ExtTreeMap.getElem?_filter', Option.filter_filter, Bool.and_self]

/-- A node that has run so far, in either mode and through any crashes, and is pruned at any
time: memory keeps the records that have not expired, the log holds each of them once and
nothing else, and it is no longer than what was written or held back. Another prune at that
time leaves it as long as it is, or as it is if the map is walked in the same order. -/
theorem compaction_shrinks_log (syncEach : Bool) (leaseMs ttlMs : UInt64) {events : List Event}
    (hfits : ∀ event ∈ events, event.Fits) {answers : List (Option Answer)}
    {engine : Engine WalStore}
    (hrun : Node.run (Node.fresh syncEach leaseMs ttlMs) events = .ok (answers, engine))
    (iteration again : Iteration) (nowMs : UInt64) :
    ∃ pruned twice records, Engine.pruneExpired .done iteration nowMs engine = .ok () pruned ∧
      (∀ key, Store.get pruned.store key =
        (Store.get engine.store key).filter (Engine.keeps engine.ttlMs nowMs key)) ∧
      pruned.store.disk = framing.log genesis records ∧ (records.map Prod.fst).Nodup ∧
      (∀ key state, (key, state) ∈ records ↔
        Store.get engine.store key = some state ∧ Engine.keeps engine.ttlMs nowMs key state) ∧
      pruned.store.disk.length ≤ engine.store.disk.length + engine.store.pending.length ∧
      Engine.pruneExpired .done again nowMs pruned = .ok () twice ∧
      twice.store.disk.length = pruned.store.disk.length ∧
      (again = iteration → twice = pruned) := by
  obtain ⟨_, _, point, hreached, -, hrep⟩ :=
    Node.run_refines (Node.fresh_represents ⟨syncEach, leaseMs, ttlMs⟩) hfits
  cases hrun.symm.trans hreached
  have hkept : (engine.store.index.filter (Engine.keeps engine.ttlMs nowMs)).filter
      (Engine.keeps engine.ttlMs nowMs) =
        engine.store.index.filter (Engine.keeps engine.ttlMs nowMs) := filter_filter_self _ _
  refine ⟨_, _, _, pruneExpired_done iteration nowMs engine, ?_, disk_compacted iteration _ _,
    nodup_compacted iteration _ _, fun key state => mem_compacted iteration _ _, ?_,
    pruneExpired_done again nowMs _, ?_, ?_⟩
  · intro key
    exact Std.ExtTreeMap.getElem?_filter'
  · rw [hrep.store.length_eq]
    refine (length_compacted iteration _ _).trans_le (sum_toList_le ?_ recordLength)
    intro key state hstate
    rw [Std.ExtTreeMap.getElem?_filter', hrep.store.index] at hstate
    exact Ledger.mem_of_getElem?_indexOf (Option.filter_eq_some_iff.mp hstate).1
  · refine (length_compacted again _ _).trans ((length_compacted iteration _ _).trans ?_).symm
    exact congrArg (fun index : Index => (index.toList.map recordLength).sum) hkept.symm
  · rintro rfl
    simp only [WalStore.compacted, hkept]

/-- A key that is locked and completed has two records, and one once its node is pruned. -/
theorem compaction_shrinks_log_charge :
    ∃ answers engine pruned twice records,
      Node.run (Node.fresh false 10 100) [.call .done (.begin ⟨"k"⟩ ⟨genesis⟩ 0),
        .call .done (.complete ⟨⟨"k"⟩, ⟨1⟩⟩ ⟨200, ∅, [7]⟩ 1)] = .ok (answers, engine) ∧
      Engine.pruneExpired .done .listed 2 engine = .ok () pruned ∧
      pruned.store.disk = framing.log genesis records ∧ (records.map Prod.fst).Nodup ∧
      (∀ key state, (key, state) ∈ records ↔
        Store.get engine.store key = some state ∧ Engine.keeps engine.ttlMs 2 key state) ∧
      pruned.store.disk.length ≤ engine.store.disk.length + engine.store.pending.length ∧
      Engine.pruneExpired .done .listed 2 pruned = .ok () twice ∧ twice = pruned := by
  have hfits : ∀ event ∈ [Event.call .done (.begin ⟨"k"⟩ ⟨genesis⟩ 0),
      .call .done (.complete ⟨⟨"k"⟩, ⟨1⟩⟩ ⟨200, ∅, [7]⟩ 1)], event.Fits := by decide
  obtain ⟨answers, engine, -, hrun, -⟩ :=
    Node.run_refines (Node.fresh_represents ⟨false, 10, 100⟩) hfits
  obtain ⟨pruned, twice, records, hprune, -, hdisk, hnodup, hlive, hlength, hagain, -, hsame⟩ :=
    compaction_shrinks_log false 10 100 hfits hrun .listed .listed 2
  exact ⟨answers, engine, pruned, twice, records, hrun, hprune, hdisk, hnodup, hlive, hlength,
    hagain, hsame rfl⟩

end Onced.Wal
