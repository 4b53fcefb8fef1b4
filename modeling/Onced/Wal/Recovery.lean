import Onced.Wal.Ledger

/-! # Recovery from a cut log

A store represents two record lists: those whose frames are in the file and
those whose frames still wait in the pending buffer. Every call moves along
these lists, and cutting its I/O anywhere leaves a file that opens to a prefix
of them. The index and the chain root are functions of the records alone.
-/

namespace Onced.Wal

open Foundation

/-! ## The replay loop -/

theorem replay_stop {buf : List UInt8} {state : Replay}
    (hstop : decodeRecord (buf.drop state.offset) = none) : replay buf state = .ok state := by
  rw [replay]
  split
  next => rfl
  next decoded hdecoded => rw [hstop] at hdecoded; contradiction

/-- The chain value the loop computes for the frame at its offset. -/
def expectedChain (buf : List UInt8) (state : Replay) (decoded : Decoded) : Bytes32 :=
  computeChain state.chainRoot
    (UInt32.ofNat (ofLeBytes ((buf.take (state.offset + 8)).drop (state.offset + 4))))
    ((buf.take (state.offset + decoded.consumed)).drop (state.offset + headerLen))

theorem replay_turn {buf : List UInt8} {state : Replay} {decoded : Decoded}
    (hdecoded : decodeRecord (buf.drop state.offset) = some decoded) :
    replay buf state =
      if expectedChain buf state decoded ≠ decoded.chain then .error (chainMismatch state.offset)
      else replay buf ⟨state.index.insert decoded.entry.1 decoded.entry.2,
        state.offset + decoded.consumed, expectedChain buf state decoded⟩ := by
  rw [replay]
  split
  next hnone => cases hnone.symm.trans hdecoded
  next found hfound =>
    cases hfound.symm.trans hdecoded
    rfl

/-- Replay only moves forward, and not past the end of the file. -/
theorem replay_offset {buf : List UInt8} {state last : Replay}
    (hreplay : replay buf state = .ok last) (hoffset : state.offset ≤ buf.length) :
    state.offset ≤ last.offset ∧ last.offset ≤ buf.length := by
  fun_induction replay buf state with
  | case1 state hnone =>
      cases hreplay
      exact ⟨le_rfl, hoffset⟩
  | case2 => contradiction
  | case3 state decoded hdecoded crc payload expectedChain hchain ih =>
      have hconsumed := (decodeRecord_consumed hdecoded).2
      rw [List.length_drop] at hconsumed
      obtain ⟨hforward, hinside⟩ := ih hreplay (by simp only; omega)
      exact ⟨le_trans (Nat.le_add_right _ _) hforward, hinside⟩

/-- One turn of the loop over a frame that decodes. -/
theorem replay_decoded {before buf : List UInt8} {index : Index} {chain : Bytes32}
    {decoded : Decoded} (hdecoded : decodeRecord buf = some decoded) :
    replay (before ++ buf) ⟨index, before.length, chain⟩ =
      if sha256 (frameInput chain buf) ≠ decoded.chain then .error (chainMismatch before.length)
      else replay (before ++ buf) ⟨index.insert decoded.entry.1 decoded.entry.2,
        before.length + decoded.consumed, decoded.chain⟩ := by
  have hconsumed : decoded.consumed = headerLen + ofLeBytes (buf.take 4) := by
    obtain ⟨lenBytes, crcBytes, rest, hlen, -, rfl, hconsumed, -⟩ := decodeRecord_eq_some hdecoded
    rw [hconsumed, List.take_left' hlen]
  have hexpected : expectedChain (before ++ buf) ⟨index, before.length, chain⟩ decoded =
      sha256 (frameInput chain buf) := by
    simp only [expectedChain, hconsumed, List.take_length_add_append, List.drop_length_add_append]
    rfl
  rw [replay_turn (by rwa [List.drop_left]), hexpected]
  split
  next => rfl
  next hmatch => rw [not_not.mp hmatch]

/-- One turn of the loop over an intact record. -/
theorem replay_record {entry : Entry} (hfits : Fits entry) (before after : List UInt8)
    (index : Index) (chain : Bytes32) :
    replay (before ++ (encodeRecord entry.1 entry.2 chain ++ after))
        ⟨index, before.length, chain⟩ =
      replay (before ++ (encodeRecord entry.1 entry.2 chain ++ after))
        ⟨index.insert entry.1 entry.2,
          (before ++ encodeRecord entry.1 entry.2 chain).length, recordChain chain entry⟩ := by
  have hinput : sha256 (frameInput chain (encodeRecord entry.1 entry.2 chain ++ after)) =
      recordChain chain entry := by
    rw [frameInput_record hfits]
    rfl
  rw [replay_decoded (decodeRecord_encodeRecord_append hfits chain after), hinput,
    if_neg (not_not_intro rfl), List.length_append]

/-- The loop gets past every whole frame, whatever comes after them. -/
theorem replay_frames {records : List Entry} (hfits : ∀ entry ∈ records, Fits entry)
    (tail before : List UInt8) (index : Index) (chain : Bytes32) :
    replay (before ++ (framing.log chain records ++ tail)) ⟨index, before.length, chain⟩ =
      replay (before ++ (framing.log chain records ++ tail))
        ⟨insertAll records index, (before ++ framing.log chain records).length,
          framing.root chain records⟩ := by
  induction records generalizing before index chain with
  | nil => simp
  | cons entry records ih =>
      have hentry : Fits entry := hfits entry List.mem_cons_self
      have hrecords : ∀ other ∈ records, Fits other := fun other hother =>
        hfits other (List.mem_cons_of_mem _ hother)
      have hloop := ih hrecords (before ++ encodeRecord entry.1 entry.2 chain)
        (index.insert entry.1 entry.2) (recordChain chain entry)
      simp only [Framing.log_cons, framing_encode, framing_next, List.append_assoc]
      rw [replay_record hentry]
      simp only [List.append_assoc] at hloop
      rw [hloop]
      simp

/-- The loop over a file that begins with whole frames, from the start. -/
theorem replay_log {records : List Entry} (hfits : ∀ entry ∈ records, Fits entry)
    (tail : List UInt8) :
    replay (framing.log genesis records ++ tail) ⟨∅, 0, genesis⟩ =
      replay (framing.log genesis records ++ tail)
        ⟨Ledger.indexOf records, (framing.log genesis records).length, Ledger.rootOf records⟩ := by
  exact replay_frames hfits tail [] ∅ genesis

/-- The endings of an open: the loop fails, it stops at a complete frame, or
what is left is cut off. -/
theorem openWith_eq (disk : List UInt8) (syncEach : Bool) :
    WalStore.openWith disk syncEach =
      match replay disk ⟨∅, 0, genesis⟩ with
      | .error failure => .error failure
      | .ok last =>
          if isCompleteFrame (disk.drop last.offset) then .error (interiorCorruption last.offset)
          else .ok ⟨last.index, (LogFile.setLen ⟨disk, 0⟩ last.offset).seekStart last.offset, [],
            syncEach, last.chainRoot, none⟩ := by
  have hempty : isCompleteFrame [] = false := isCompleteFrame_short (by simp [headerLen])
  simp only [WalStore.openWith, bind, Except.bind]
  cases replay disk ⟨∅, 0, genesis⟩ with
  | error failure => rfl
  | ok last =>
      cases hremaining : disk.drop last.offset with
      | nil => simp [hremaining, hempty, pure, Except.pure]
      | cons byte rest =>
          cases hframe : isCompleteFrame (byte :: rest) <;>
            simp [hremaining, hframe, pure, Except.pure, throw, throwThe, MonadExceptOf.throw]

/-- Opening whole frames followed by a tail that does not decode. -/
theorem openWith_stop {records : List Entry} (hfits : ∀ entry ∈ records, Fits entry)
    {tail : List UInt8} (htail : decodeRecord tail = none) (syncEach : Bool) :
    WalStore.openWith (framing.log genesis records ++ tail) syncEach =
      if isCompleteFrame tail then .error (interiorCorruption (framing.log genesis records).length)
      else .ok ⟨Ledger.indexOf records, ⟨framing.log genesis records,
        (framing.log genesis records).length⟩, [], syncEach, Ledger.rootOf records, none⟩ := by
  have hstop : decodeRecord ((framing.log genesis records ++ tail).drop
      (framing.log genesis records).length) = none := by rwa [List.drop_left]
  rw [openWith_eq, replay_log hfits, replay_stop hstop]
  simp [LogFile.setLen, LogFile.seekStart]

theorem torn_incomplete {chain : Bytes32} {records : List Entry}
    (hfits : ∀ entry ∈ records, Fits entry) {tail : List UInt8}
    (htorn : framing.Torn chain records tail) :
    decodeRecord tail = none ∧ isCompleteFrame tail = false := by
  rcases htorn with rfl | ⟨entry, rest, rfl, hcut, hstrict⟩
  · have hshort : ([] : List UInt8).length < headerLen := by simp [headerLen]
    exact ⟨decodeRecord_short hshort, isCompleteFrame_short hshort⟩
  · exact strictPrefix_incomplete (hfits entry List.mem_cons_self) chain hcut hstrict

/-! ## What a store represents -/

/-- The store holds the durable records in its file and the buffered ones in
its pending bytes; its index and chain root are those of all of them. -/
structure Represents (store : WalStore) (ledger : Ledger) : Prop where
  file : store.file =
    ⟨framing.log genesis ledger.durable, (framing.log genesis ledger.durable).length⟩
  pending : store.pending = framing.log (Ledger.rootOf ledger.durable) ledger.buffered
  index : store.index = Ledger.indexOf ledger.records
  chainRoot : store.chainRoot = Ledger.rootOf ledger.records
  fits : ∀ entry ∈ ledger.records, Fits entry
  linked : store.replaced = none

/-- The file contents open, in either mode, to exactly these records. -/
def OpensTo (disk : List UInt8) (records : List Entry) : Prop :=
  ∀ syncEach, ∃ store, WalStore.openWith disk syncEach = .ok store ∧
    store.syncEach = syncEach ∧ Represents store (Ledger.settled records)

/-- Whole frames followed by something that is not even a frame open to the
whole frames. -/
theorem opensTo_of_incomplete {records : List Entry} (hfits : ∀ entry ∈ records, Fits entry)
    {tail : List UInt8} (hnone : decodeRecord tail = none)
    (hincomplete : isCompleteFrame tail = false) :
    OpensTo (framing.log genesis records ++ tail) records := by
  intro syncEach
  have hopen := openWith_stop hfits hnone syncEach
  rw [hincomplete, if_neg Bool.false_ne_true] at hopen
  exact ⟨_, hopen, rfl, rfl, rfl, by simp, by simp, by simpa using hfits, rfl⟩

/-- Whole frames followed by a torn one open to the whole frames. -/
theorem opensTo_of_torn {records rest : List Entry}
    (hfits : ∀ entry ∈ records ++ rest, Fits entry) {tail : List UInt8}
    (htorn : framing.Torn (Ledger.rootOf records) rest tail) :
    OpensTo (framing.log genesis records ++ tail) records := by
  have hrecords : ∀ entry ∈ records, Fits entry := fun entry hentry =>
    hfits entry (List.mem_append_left _ hentry)
  obtain ⟨hnone, hincomplete⟩ := torn_incomplete
    (fun entry hentry => hfits entry (List.mem_append_right _ hentry)) htorn
  exact opensTo_of_incomplete hrecords hnone hincomplete

/-- A file cut anywhere inside the frames of `buffered` opens to a first part of them. -/
theorem opensTo_of_cut {durable buffered : List Entry}
    (hfits : ∀ entry ∈ durable ++ buffered, Fits entry) {cut : List UInt8}
    (hcut : cut <+: framing.log (Ledger.rootOf durable) buffered) :
    ∃ whole, whole <+: buffered ∧
      OpensTo (framing.log genesis durable ++ cut) (durable ++ whole) := by
  obtain ⟨whole, rest, tail, rfl, rfl, htorn⟩ := framing.exists_torn_of_cut hcut
  refine ⟨whole, List.prefix_append _ _, ?_⟩
  have hlog : framing.log genesis durable ++ (framing.log (Ledger.rootOf durable) whole ++ tail) =
      framing.log genesis (durable ++ whole) ++ tail := by simp [Ledger.rootOf]
  have hroot : framing.Torn (Ledger.rootOf (durable ++ whole)) rest tail := by
    simpa [Ledger.rootOf] using htorn
  rw [hlog]
  exact opensTo_of_torn (by simpa using hfits) hroot

theorem opensTo_log {records : List Entry} (hfits : ∀ entry ∈ records, Fits entry) :
    OpensTo (framing.log genesis records) records := by
  have htorn : framing.Torn (Ledger.rootOf records) [] [] := Or.inl rfl
  have hopens := opensTo_of_torn (by simpa using hfits) htorn
  simpa using hopens

theorem opensTo_empty : OpensTo [] [] :=
  opensTo_log (fun _ hentry => absurd hentry List.not_mem_nil)

/-! ## Calls act on the index -/

/-- The state a call ends in, whether it returns or panics. -/
def endOf {σ : Type} : EStateM.Result Panic σ Unit → σ
  | .ok _ next => next
  | .error _ next => next

namespace WalStore

theorem endOf_flushPending (io : Io) (store : WalStore) :
    (endOf (flushPending io store)).index = store.index ∧
      (endOf (flushPending io store)).syncEach = store.syncEach := by
  rw [flushPending_eq]
  split
  next => exact ⟨rfl, rfl⟩
  next => cases io.append <;> exact ⟨rfl, rfl⟩

/-- The index moves on, even when the call panics, and the mode stays. -/
theorem endOf_run (io : Io) (storeCall : StoreCall) (store : WalStore) :
    (endOf (storeCall.run io store)).index = Ledger.indexAfter store.index storeCall ∧
      (endOf (storeCall.run io store)).syncEach = store.syncEach := by
  cases storeCall with
  | put key state =>
      simp only [StoreCall.run, Store.put, put_eq]
      split
      next => exact endOf_flushPending io _
      next => exact ⟨rfl, rfl⟩
  | flush => exact endOf_flushPending io store
  | compact iteration keep =>
      simp only [StoreCall.run, Store.compact, compact_eq]
      cases io.commit <;> exact ⟨rfl, rfl⟩

theorem run_ok {io : Io} {storeCall : StoreCall} {store next : WalStore}
    (hrun : storeCall.run io store = .ok () next) :
    next.index = Ledger.indexAfter store.index storeCall ∧ next.syncEach = store.syncEach := by
  have hend := endOf_run io storeCall store
  rwa [hrun] at hend

theorem run_error {io : Io} {storeCall : StoreCall} {store next : WalStore} {panic : Panic}
    (hrun : storeCall.run io store = .error panic next) :
    next.index = Ledger.indexAfter store.index storeCall ∧ next.syncEach = store.syncEach := by
  have hend := endOf_run io storeCall store
  rwa [hrun] at hend

theorem flushPending_done (store : WalStore) : ∃ next, flushPending .done store = .ok () next := by
  rw [flushPending_eq]
  split <;> exact ⟨_, rfl⟩

theorem run_done (storeCall : StoreCall) (store : WalStore) :
    ∃ next, storeCall.run .done store = .ok () next := by
  cases storeCall with
  | put key state =>
      change ∃ next, put .done key state store = .ok () next
      rw [put_eq]
      cases store.syncEach with
      | true => exact flushPending_done _
      | false => exact ⟨_, rfl⟩
  | flush => exact flushPending_done store
  | compact iteration keep => exact ⟨_, compact_eq .done iteration keep store⟩

instance : LawfulStore WalStore where
  run_done storeCall store := by
    obtain ⟨next, hrun⟩ := run_done storeCall store
    refine ⟨next, hrun, fun key => ?_⟩
    change next.index[key]? = _
    rw [(run_ok hrun).1]
    exact Ledger.getElem?_indexAfter store.index storeCall key

end WalStore

/-! ## Calls refine the ledger -/

theorem framing_log_eq_nil {chain : Bytes32} {records : List Entry}
    (hlog : framing.log chain records = []) : records = [] := by
  cases records with
  | nil => rfl
  | cons entry records =>
      have hlength := congrArg List.length hlog
      simp [encodeRecord_length, headerLen] at hlength

@[simp] theorem recordChainBytes_encodeRecord (key : IdempotencyKey) (state : KeyState)
    (chain : Bytes32) :
    WalStore.recordChainBytes (encodeRecord key state chain) = recordChain chain (key, state) := by
  simp [WalStore.recordChainBytes, encodeRecord_chain]

/-- Writing at the end of the file appends. -/
theorem LogFile.write_end (bytes data : List UInt8) :
    (LogFile.mk bytes bytes.length).write data = ⟨bytes ++ data, (bytes ++ data).length⟩ := by
  simp [LogFile.write]

theorem rewriteLog_eq (entries : List Entry) (chain : Bytes32) :
    WalStore.rewriteLog entries chain =
      (framing.log chain entries, framing.root chain entries) := by
  have hloop : ∀ (entries : List Entry) (compacted : List UInt8) (chain : Bytes32),
      entries.foldl (fun log entry =>
        (log.1 ++ encodeRecord entry.1 entry.2 log.2,
          WalStore.recordChainBytes (encodeRecord entry.1 entry.2 log.2))) (compacted, chain) =
      (compacted ++ framing.log chain entries, framing.root chain entries) := by
    intro entries
    induction entries with
    | nil => simp
    | cons entry entries ih =>
        intro compacted chain
        rw [List.foldl_cons, ih]
        simp
  have hstart := hloop entries [] chain
  rw [List.nil_append] at hstart
  exact hstart

namespace Represents

variable {store : WalStore} {ledger : Ledger}

/-- A record joins the buffer; nothing has reached the file yet. -/
theorem buffer (hrep : Represents store ledger) {key : IdempotencyKey} {state : KeyState}
    (hfits : Fits (key, state)) :
    Represents { store with
      pending := store.pending ++ encodeRecord key state store.chainRoot
      chainRoot := WalStore.recordChainBytes (encodeRecord key state store.chainRoot)
      index := store.index.insert key state }
      ⟨ledger.durable, ledger.buffered ++ [(key, state)]⟩ := by
  obtain ⟨hfile, hpending, hindex, hroot, hall, hlinked⟩ := hrep
  refine ⟨hfile, ?_, ?_, ?_, ?_, hlinked⟩
  · simp [hpending, hroot, Ledger.rootOf, Ledger.records]
  · simp [hindex, Ledger.indexOf, Ledger.records]
  · simp [hroot, Ledger.rootOf, Ledger.records]
  · intro entry hentry
    simp only [Ledger.records, List.mem_append, List.mem_singleton] at hentry hall
    rcases hentry with hdurable | hbuffered | rfl
    · exact hall entry (Or.inl hdurable)
    · exact hall entry (Or.inr hbuffered)
    · exact hfits

/-- Whatever part of the pending bytes is written, the file opens to a first
part of the buffered records. -/
theorem opensTo_write (hrep : Represents store ledger) {cut : List UInt8}
    (hcut : cut <+: store.pending) :
    ∃ whole, whole <+: ledger.buffered ∧
      OpensTo (WalStore.disk { store with file := store.file.write cut })
        (ledger.durable ++ whole) := by
  rw [hrep.pending] at hcut
  obtain ⟨whole, hwhole, hopens⟩ := opensTo_of_cut hrep.fits hcut
  refine ⟨whole, hwhole, ?_⟩
  have hdisk : WalStore.disk { store with file := store.file.write cut } =
      (store.file.write cut).bytes := WalStore.disk_of_linked hrep.linked
  rw [hdisk, hrep.file, LogFile.write_end]
  exact hopens

/-- Flushing makes the buffer durable, or stops at a file that opens to a first
part of it. -/
theorem flushPending (hrep : Represents store ledger) (io : Io) :
    (∃ next, WalStore.flushPending io store = .ok () next ∧ next.syncEach = store.syncEach ∧
      Represents next (Ledger.settled ledger.records)) ∨
    (io.append ≠ .done ∧ ∃ message next whole,
      WalStore.flushPending io store = .error message next ∧ next.syncEach = store.syncEach ∧
      whole <+: ledger.buffered ∧ OpensTo next.disk (ledger.durable ++ whole)) := by
  rw [WalStore.flushPending_eq]
  split
  next hempty =>
    have hbuffered : ledger.buffered = [] := by
      apply framing_log_eq_nil
      rw [← hrep.pending]
      simpa using hempty
    have hsettled := Ledger.settled_of_buffered_nil hbuffered
    exact Or.inl ⟨store, rfl, rfl, hsettled.symm ▸ hrep⟩
  next =>
    cases happend : io.append with
    | done =>
        refine Or.inl ⟨_, rfl, rfl, ?_, rfl, by simpa using hrep.index,
          by simpa using hrep.chainRoot, by simpa using hrep.fits, hrep.linked⟩
        rw [hrep.file, LogFile.write_end, hrep.pending]
        simp [Ledger.settled, Ledger.records, Ledger.rootOf]
    | stops written =>
        obtain ⟨whole, hwhole, hopens⟩ :=
          hrep.opensTo_write (List.take_prefix written store.pending)
        exact Or.inr ⟨by simp, _, _, whole, rfl, rfl, hwhole, hopens⟩
    | unsynced =>
        obtain ⟨whole, hwhole, hopens⟩ := hrep.opensTo_write (List.prefix_refl store.pending)
        exact Or.inr ⟨by simp, _, _, whole, rfl, rfl, hwhole, hopens⟩

/-- Between calls the log holds the durable records. -/
theorem disk_eq (hrep : Represents store ledger) :
    store.disk = framing.log genesis ledger.durable := by
  rw [WalStore.disk_of_linked hrep.linked, hrep.file]

theorem opensTo_durable (hrep : Represents store ledger) :
    OpensTo store.disk ledger.durable := by
  rw [hrep.disk_eq]
  exact opensTo_log fun entry hentry => hrep.fits entry (List.mem_append_left _ hentry)

/-- The rewritten log holds the compacted records and opens to them. -/
theorem opensTo_compacted (hrep : Represents store ledger) (iteration : Iteration)
    (keep : IdempotencyKey → KeyState → Bool) :
    OpensTo (framing.log genesis (ledger.compacted iteration keep))
      (ledger.compacted iteration keep) :=
  opensTo_log fun entry hentry => hrep.fits entry (Ledger.mem_of_mem_compacted hentry)

/-- A put that returns is buffered or durable; one that does not leaves a file
that opens to a first part of the records it was writing. -/
theorem put (hrep : Represents store ledger) {key : IdempotencyKey} {state : KeyState}
    (hfits : Fits (key, state)) (io : Io) :
    (∃ next, WalStore.put io key state store = .ok () next ∧ next.syncEach = store.syncEach ∧
      Represents next (ledger.call store.syncEach (.put key state))) ∨
    (io ≠ .done ∧ ∃ message next records, WalStore.put io key state store = .error message next ∧
      next.syncEach = store.syncEach ∧
      ledger.Survives store.syncEach (some (.put key state)) records ∧
      OpensTo next.disk records) := by
  have hbuffer := hrep.buffer hfits
  have hnext := hbuffer.flushPending io
  rw [WalStore.put_eq]
  by_cases hsync : store.syncEach = true
  · simp only [hsync, if_true] at hnext ⊢
    rcases hnext with ⟨next, hrun, hmode, hnext⟩ |
      ⟨hio, message, next, whole, hrun, hmode, hwhole, hopens⟩
    · refine Or.inl ⟨next, hrun, hmode, ?_⟩
      simpa [Ledger.call, Ledger.records] using hnext
    · refine Or.inr ⟨fun hdone => hio (by rw [hdone]; rfl), message, next, _, hrun, hmode, ?_,
        hopens⟩
      exact Or.inr ⟨rfl, whole, hwhole, rfl⟩
  · simp only [hsync, Bool.false_eq_true, if_false] at hbuffer ⊢
    exact Or.inl ⟨_, rfl, rfl, hbuffer⟩

theorem compact (hrep : Represents store ledger) (iteration : Iteration)
    (keep : IdempotencyKey → KeyState → Bool) (io : Io) :
    (∃ next, WalStore.compact io iteration keep store = .ok () next ∧
      next.syncEach = store.syncEach ∧
      Represents next (ledger.call store.syncEach (.compact iteration keep))) ∨
    (io ≠ .done ∧ ∃ message next records,
      WalStore.compact io iteration keep store = .error message next ∧
      next.syncEach = store.syncEach ∧
      ledger.Survives store.syncEach (some (.compact iteration keep)) records ∧
      OpensTo next.disk records) := by
  have hentries : iteration.order (store.index.filter keep).toList =
      ledger.compacted iteration keep := by rw [hrep.index]; rfl
  rw [WalStore.compact_eq]
  simp only [hentries, rewriteLog_eq]
  cases hcommit : io.commit with
  | done =>
      refine Or.inl ⟨_, rfl, rfl, rfl, rfl, ?_, by simp [Ledger.call, Ledger.rootOf], ?_, rfl⟩
      · rw [hrep.index, Ledger.indexOf_call]
        rfl
      · intro entry hentry
        simp only [Ledger.call, Ledger.records_settled] at hentry
        exact hrep.fits entry (Ledger.mem_of_mem_compacted hentry)
  | beforeRename =>
      refine Or.inr ⟨fun hdone => ?_, _, _, ledger.durable, rfl, rfl, Or.inl rfl,
        hrep.opensTo_durable⟩
      rw [hdone] at hcommit
      contradiction
  | afterRename =>
      refine Or.inr ⟨fun hdone => ?_, _, _, _, rfl, rfl, Or.inr rfl,
        hrep.opensTo_compacted iteration keep⟩
      rw [hdone] at hcommit
      contradiction

/-- Every call either returns and acts as on the ledger, or stops at a file
that opens to records the ledger may keep in a crash. -/
theorem call (hrep : Represents store ledger) {storeCall : StoreCall} (hfits : storeCall.Fits)
    (io : Io) :
    (∃ next, storeCall.run io store = .ok () next ∧ next.syncEach = store.syncEach ∧
      Represents next (ledger.call store.syncEach storeCall)) ∨
    (io ≠ .done ∧ ∃ message next records, storeCall.run io store = .error message next ∧
      next.syncEach = store.syncEach ∧
      ledger.Survives store.syncEach (some storeCall) records ∧
      OpensTo next.disk records) := by
  cases storeCall with
  | put key state => exact hrep.put hfits io
  | compact iteration keep => exact hrep.compact iteration keep io
  | flush =>
      rcases hrep.flushPending io with hreturned |
        ⟨hio, message, next, whole, hrun, hmode, hwhole, hopens⟩
      · exact Or.inl hreturned
      · exact Or.inr ⟨fun hdone => hio (by rw [hdone]; rfl), message, next, _, hrun,
          hmode, ⟨whole, hwhole, rfl⟩, hopens⟩

end Represents

end Onced.Wal
