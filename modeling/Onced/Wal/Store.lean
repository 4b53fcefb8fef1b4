import Onced.Core.Store
import Onced.Wal.CodecLaws

/-! # The write-ahead-log store

An in-memory index kept in step with an append-only log file. Strict stores
append and sync inside every put; group-commit stores buffer records until an
explicit flush. Opening replays the log, verifies its hash chain and truncates
a torn tail. Compaction rewrites the log from genesis and renames it into place.
-/

namespace Onced.Wal

open Foundation

/-- The log file behind its descriptor: its bytes and the write cursor. -/
structure LogFile where
  bytes : List UInt8
  cursor : Nat
  deriving DecidableEq

namespace LogFile

/-- Write at the cursor, over existing bytes and past the end. -/
def write (file : LogFile) (data : List UInt8) : LogFile :=
  ⟨file.bytes.take file.cursor ++ List.replicate (file.cursor - file.bytes.length) 0 ++ data ++
      file.bytes.drop (file.cursor + data.length),
    file.cursor + data.length⟩

/-- `set_len`: truncate, or extend with zeros. -/
def setLen (file : LogFile) (len : Nat) : LogFile :=
  { file with bytes := file.bytes.take len ++ List.replicate (len - file.bytes.length) 0 }

def seekStart (file : LogFile) (pos : Nat) : LogFile := { file with cursor := pos }

def seekEnd (file : LogFile) : LogFile := { file with cursor := file.bytes.length }

end LogFile

/-- `std::io::ErrorKind::InvalidData` with its message. -/
structure InvalidData where
  message : String
  deriving DecidableEq

def chainMismatch (offset : Nat) : InvalidData :=
  ⟨"onced WAL: chain hash mismatch at offset " ++ toString offset ++
    " -- tamper, reorder, or insert detected"⟩

def interiorCorruption (offset : Nat) : InvalidData :=
  ⟨"onced WAL: checksum failure on a complete record at offset " ++ toString offset ++
    " -- interior corruption, refusing to silently truncate durable data"⟩

structure WalStore where
  index : Index
  file : LogFile
  /-- Records appended since the last flush, not yet on the descriptor. -/
  pending : List UInt8
  /-- Strict mode: sync inside every put. -/
  syncEach : Bool
  chainRoot : Bytes32
  /-- The log that was renamed over the path, as long as the descriptor is still
  that of the file it replaced. -/
  replaced : Option (List UInt8)
  deriving DecidableEq

/-- The local variables of the replay loop. -/
structure Replay where
  index : Index
  offset : Nat
  chainRoot : Bytes32

/-- The replay loop: decode records from `offset` on and verify their chain. -/
def replay (buf : List UInt8) (state : Replay) : Except InvalidData Replay :=
  match _ : decodeRecord (buf.drop state.offset) with
  | none => .ok state
  | some decoded =>
      let crc := UInt32.ofNat (ofLeBytes ((buf.take (state.offset + 8)).drop (state.offset + 4)))
      let payload := (buf.take (state.offset + decoded.consumed)).drop (state.offset + headerLen)
      let expectedChain := computeChain state.chainRoot crc payload
      if expectedChain ≠ decoded.chain then .error (chainMismatch state.offset)
      else replay buf
        ⟨state.index.insert decoded.entry.1 decoded.entry.2, state.offset + decoded.consumed,
          expectedChain⟩
termination_by buf.length - state.offset
decreasing_by
  have hconsumed := decodeRecord_consumed ‹_›
  simp only [headerLen, List.length_drop] at hconsumed ⊢
  omega

/-- The fences of the in-progress entries. -/
def inProgressFences (index : Index) : List UInt64 :=
  index.toList.filterMap fun entry =>
    match entry.2 with
    | .inProgress fence _ _ => some fence.val
    | .completed .. => none

/-- The largest fence of an in-progress entry, or 0 if there is none. -/
def maxFence (index : Index) : UInt64 := (inProgressFences index).max?.getD 0

theorem mem_inProgressFences {index : Index} {fence : UInt64} :
    fence ∈ inProgressFences index ↔ ∃ (key : IdempotencyKey) (fingerprint : RequestFingerprint)
      (lease : UInt64), index[key]? = some (.inProgress ⟨fence⟩ fingerprint lease) := by
  rw [inProgressFences, List.mem_filterMap]
  constructor
  · rintro ⟨⟨key, state⟩, hentry, hfence⟩
    cases state with
    | completed => cases hfence
    | inProgress other fingerprint lease =>
        cases hfence
        exact ⟨key, fingerprint, lease, Std.ExtTreeMap.mem_toList_iff_getElem?_eq_some.mp hentry⟩
  · rintro ⟨key, fingerprint, lease, hstate⟩
    exact ⟨(key, .inProgress ⟨fence⟩ fingerprint lease),
      Std.ExtTreeMap.mem_toList_iff_getElem?_eq_some.mpr hstate, rfl⟩

instance lawfulOrderMaxUInt64 : Std.LawfulOrderMax UInt64 where
  max_le_iff a b c := by
    change (if a ≤ b then b else a) ≤ c ↔ _
    simp only [UInt64.le_iff_toNat_le]
    split <;> omega
  max_eq_or a b := by
    change (if a ≤ b then b else a) = a ∨ (if a ≤ b then b else a) = b
    split <;> simp

theorem le_maxFence {index : Index} {fence : UInt64} (hfence : fence ∈ inProgressFences index) :
    fence ≤ maxFence index := by
  unfold maxFence
  cases hmax : (inProgressFences index).max? with
  | none =>
      rw [List.max?_eq_none_iff.mp hmax] at hfence
      exact absurd hfence List.not_mem_nil
  | some largest => exact (List.max?_eq_some_iff.mp hmax).2 fence hfence

theorem maxFence_mem (index : Index) :
    maxFence index = 0 ∨ maxFence index ∈ inProgressFences index := by
  unfold maxFence
  cases hmax : (inProgressFences index).max? with
  | none => exact Or.inl rfl
  | some largest => exact Or.inr (List.max?_eq_some_iff.mp hmax).1

/-- Where every fence in progress is below a bound, the seed is above them all and
no larger than the bound. -/
theorem seed_bounds {index : Index} {bound : UInt64}
    (hbound : ∀ (key : IdempotencyKey) fence fingerprint leaseExpiresAtMs,
      index[key]? = some (.inProgress fence fingerprint leaseExpiresAtMs) → fence.val < bound) :
    (∀ (key : IdempotencyKey) fence fingerprint leaseExpiresAtMs,
      index[key]? = some (.inProgress fence fingerprint leaseExpiresAtMs) →
        fence.val < maxFence index + 1) ∧
    (maxFence index + 1).toNat ≤ max 1 bound.toNat := by
  have hmax : (maxFence index).toNat + 1 ≤ max 1 bound.toNat := by
    rcases maxFence_mem index with hzero | hmem
    · rw [hzero]
      exact Nat.le_max_left 1 _
    · obtain ⟨key, fingerprint, lease, hstate⟩ := mem_inProgressFences.mp hmem
      have hbelow := UInt64.lt_iff_toNat_lt.mp (hbound key _ fingerprint lease hstate)
      exact hbelow.trans_le (Nat.le_max_right 1 _)
  have hsucc : (maxFence index + 1).toNat = (maxFence index).toNat + 1 := by
    have hlimit := bound.toNat_lt
    rw [UInt64.toNat_add, UInt64.toNat_one]
    omega
  refine ⟨fun key fence fingerprint lease hstate => ?_, hsucc.trans_le hmax⟩
  have hle := le_maxFence (mem_inProgressFences.mpr ⟨key, fingerprint, lease, hstate⟩)
  rw [UInt64.le_iff_toNat_le] at hle
  rw [UInt64.lt_iff_toNat_lt, hsucc]
  exact Nat.lt_succ_of_le hle

namespace WalStore

/-- Open the log `disk` and replay it; the file is truncated to the records read. -/
def openWith (disk : List UInt8) (syncEach : Bool) : Except InvalidData WalStore := do
  let file : LogFile := ⟨disk, 0⟩
  let buf := file.bytes
  let replayed ← replay buf ⟨∅, 0, genesis⟩
  let remaining := buf.drop replayed.offset
  if !remaining.isEmpty && isCompleteFrame remaining then
    throw (interiorCorruption replayed.offset)
  let file := (file.setLen replayed.offset).seekStart replayed.offset
  return ⟨replayed.index, file, [], syncEach, replayed.chainRoot, none⟩

/-- The log file at the path, which is what the next open reads. -/
def disk (store : WalStore) : List UInt8 := store.replaced.getD store.file.bytes

theorem disk_of_linked {store : WalStore} (hlinked : store.replaced = none) :
    store.disk = store.file.bytes := by
  rw [disk, hlinked, Option.getD_none]

/-- The current chain root. -/
def root (store : WalStore) : Bytes32 := store.chainRoot

/-- Append the buffered batch and sync it, or panic. -/
def flushPending (io : Io) : EStateM Panic WalStore Unit := do
  let store ← get
  if store.pending.isEmpty then return
  match io.append with
  | .stops written =>
      set { store with file := store.file.write (store.pending.take written) }
      throw "onced WAL: append failed; refusing to continue"
  | .unsynced =>
      set { store with file := store.file.write store.pending }
      throw "onced WAL: fsync failed; refusing to continue"
  | .done => set { store with file := store.file.write store.pending, pending := [] }

/-- The possible endings of a flush, as one case distinction. -/
theorem flushPending_eq (io : Io) (store : WalStore) :
    flushPending io store =
      if store.pending.isEmpty then .ok () store
      else match io.append with
        | .stops written =>
            .error "onced WAL: append failed; refusing to continue"
              { store with file := store.file.write (store.pending.take written) }
        | .unsynced =>
            .error "onced WAL: fsync failed; refusing to continue"
              { store with file := store.file.write store.pending }
        | .done => .ok () { store with file := store.file.write store.pending, pending := [] } := by
  unfold flushPending
  simp only [bind, EStateM.bind, get, getThe, MonadStateOf.get, EStateM.get]
  cases store.pending.isEmpty with
  | true => rfl
  | false => cases io.append <;> rfl

def maxInProgressFence (store : WalStore) : UInt64 := maxFence store.index

/-- Bytes 8..40 of a record, which always holds at least a header. -/
def recordChainBytes (record : List UInt8) : Bytes32 :=
  (toBytes32 ((record.take 40).drop 8)).getD genesis

def put (io : Io) (key : IdempotencyKey) (state : KeyState) : EStateM Panic WalStore Unit := do
  let store ← get
  let record := encodeRecord key state store.chainRoot
  let newChain := recordChainBytes record
  let store := { store with
    pending := store.pending ++ record
    chainRoot := newChain
    index := store.index.insert key state }
  set store
  if store.syncEach then flushPending io

theorem put_eq (io : Io) (key : IdempotencyKey) (state : KeyState) (store : WalStore) :
    put io key state store =
      let next := { store with
        pending := store.pending ++ encodeRecord key state store.chainRoot
        chainRoot := recordChainBytes (encodeRecord key state store.chainRoot)
        index := store.index.insert key state }
      if store.syncEach then flushPending io next else .ok () next := by
  unfold put
  simp only [bind, EStateM.bind, get, getThe, MonadStateOf.get, EStateM.get, set, EStateM.set]
  cases store.syncEach <;> rfl

def flush (io : Io) : EStateM Panic WalStore Unit := flushPending io

/-- One record per entry, chained from `chain`: the new log and its root. -/
def rewriteLog (entries : List Entry) (chain : Bytes32) : List UInt8 × Bytes32 :=
  entries.foldl (fun (compacted, chain) entry =>
    let record := encodeRecord entry.1 entry.2 chain
    (compacted ++ record, recordChainBytes record)) ([], chain)

def stagingMessage : Staging → Panic
  | .opens => "onced WAL: open compaction temp failed; refusing to continue"
  | .writes => "onced WAL: write compaction temp failed; refusing to continue"
  | .syncs => "onced WAL: fsync compaction temp failed; refusing to continue"
  | .renames => "onced WAL: atomic rename of compacted log failed; refusing to continue"

def reopeningMessage : Reopening → Panic
  | .opens => "onced WAL: reopen after compaction failed; refusing to continue"
  | .seeks => "onced WAL: seek after compaction failed; refusing to continue"

/-- Drop the rejected entries and rewrite the log from genesis. The temporary
file is not part of the state: only the rename makes it the log. A call that
ends after the rename leaves the new log at the path, and the descriptor with
the old one. -/
def compact (io : Io) (iteration : Iteration) (keep : IdempotencyKey → KeyState → Bool) :
    EStateM Panic WalStore Unit := do
  modify fun store => { store with index := store.index.filter keep }
  let store ← get
  let (compacted, newChainRoot) := rewriteLog (iteration.order store.index.toList) genesis
  match io.commit with
  | .beforeRename failure => throw (stagingMessage failure)
  | .afterRename failure =>
      set { store with replaced := some compacted }
      throw (reopeningMessage failure)
  | .done =>
      let file := LogFile.seekEnd ⟨compacted, 0⟩
      set { store with
        file := file, pending := [], chainRoot := newChainRoot, replaced := none }

theorem compact_eq (io : Io) (iteration : Iteration) (keep : IdempotencyKey → KeyState → Bool)
    (store : WalStore) :
    compact io iteration keep store =
      let kept := { store with index := store.index.filter keep }
      let rewritten := rewriteLog (iteration.order kept.index.toList) genesis
      match io.commit with
      | .beforeRename failure => .error (stagingMessage failure) kept
      | .afterRename failure =>
          .error (reopeningMessage failure) { kept with replaced := some rewritten.1 }
      | .done => .ok () { kept with
          file := LogFile.seekEnd ⟨rewritten.1, 0⟩, pending := [], chainRoot := rewritten.2,
          replaced := none } := by
  unfold compact
  simp only [bind, EStateM.bind, modify, modifyGet, MonadStateOf.modifyGet, EStateM.modifyGet, get,
    getThe, MonadStateOf.get, EStateM.get]
  cases io.commit <;> rfl

instance : Store WalStore where
  get store key := store.index[key]?
  put := put
  maxInProgressFence := maxInProgressFence
  flush := flush
  compact := compact

end WalStore

end Onced.Wal
