import Onced.Wal.Recovery

/-! # Lives of a log store

A log file outlives the processes that open it. One life opens the file, makes
calls that return, and ends: between two calls or inside one more call. The
next life finds the index and the chain root of some point in the history of
the last one, and no durable call lies after that point.
-/

namespace Onced.Wal

open Foundation

namespace Ledger

/-- The ledger after a list of calls that return. -/
def after (syncEach : Bool) (calls : List StoreCall) (ledger : Ledger) : Ledger :=
  calls.foldl (call syncEach) ledger

@[simp] theorem after_nil (syncEach : Bool) (ledger : Ledger) :
    ledger.after syncEach [] = ledger := rfl

@[simp] theorem after_cons (syncEach : Bool) (storeCall : StoreCall) (calls : List StoreCall)
    (ledger : Ledger) : ledger.after syncEach (storeCall :: calls) =
      (ledger.call syncEach storeCall).after syncEach calls := rfl

@[simp] theorem after_append_singleton (syncEach : Bool) (calls : List StoreCall)
    (storeCall : StoreCall) (ledger : Ledger) : ledger.after syncEach (calls ++ [storeCall]) =
      (ledger.after syncEach calls).call syncEach storeCall := by
  simp [after]

/-- The records of a point of a history that ends with the call it was cut in,
such that no call that returned and was durable lies after the point. -/
def PointOf (syncEach : Bool) (start : Ledger) (calls : List StoreCall)
    (during : Option StoreCall) (records : List Entry) : Prop :=
  ∃ point, point ≤ (calls ++ during.toList).length ∧
    (∀ missed ∈ calls.drop point, ¬ missed.Durable syncEach) ∧
    records = (start.after syncEach ((calls ++ during.toList).take point)).records

theorem pointOf_end (syncEach : Bool) (start : Ledger) (calls : List StoreCall)
    (during : Option StoreCall) :
    PointOf syncEach start calls during
      (start.after syncEach (calls ++ during.toList)).records := by
  refine ⟨(calls ++ during.toList).length, le_rfl, ?_, by rw [List.take_length]⟩
  rw [List.drop_of_length_le (by simp)]
  exact fun missed hmissed => absurd hmissed List.not_mem_nil

/-- A call that is not durable may be missed. -/
theorem PointOf.missing {syncEach : Bool} {start : Ledger} {calls : List StoreCall}
    {records : List Entry} (hpoint : PointOf syncEach start calls none records)
    {storeCall : StoreCall} (hmissed : ¬ storeCall.Durable syncEach) :
    PointOf syncEach start (calls ++ [storeCall]) none records := by
  obtain ⟨point, hle, hdurable, hrecords⟩ := hpoint
  simp only [Option.toList_none, List.append_nil] at hle hrecords
  refine ⟨point, by simp; omega, ?_, ?_⟩
  · rw [List.drop_append_of_le_length hle]
    intro missed hmem
    rcases List.mem_append.mp hmem with hmem | hmem
    · exact hdurable missed hmem
    · rw [List.mem_singleton.mp hmem]
      exact hmissed
  · rw [Option.toList_none, List.append_nil, List.take_append_of_le_length hle]
    exact hrecords

/-- So may the call the process died in. -/
theorem PointOf.interrupted {syncEach : Bool} {start : Ledger} {calls : List StoreCall}
    {records : List Entry} (hpoint : PointOf syncEach start calls none records)
    (during : Option StoreCall) : PointOf syncEach start calls during records := by
  obtain ⟨point, hle, hdurable, hrecords⟩ := hpoint
  simp only [Option.toList_none, List.append_nil] at hle hrecords
  refine ⟨point, by simp; omega, hdurable, ?_⟩
  rw [List.take_append_of_le_length hle]
  exact hrecords

/-- A crash right after a call has returned is a crash inside it. -/
theorem PointOf.returned {syncEach : Bool} {start : Ledger} {calls : List StoreCall}
    {records : List Entry} {storeCall : StoreCall}
    (hpoint : PointOf syncEach start (calls ++ [storeCall]) none records) :
    PointOf syncEach start calls (some storeCall) records := by
  obtain ⟨point, hle, hdurable, hrecords⟩ := hpoint
  refine ⟨point, by simpa using hle, ?_, by simpa using hrecords⟩
  intro missed hmissed
  apply hdurable missed
  rw [List.drop_append]
  exact List.mem_append_left _ hmissed

/-- Every first part of the buffer is a point of the history. -/
theorem pointOf_buffered (syncEach : Bool) (start : List Entry) (calls : List StoreCall)
    {whole : List Entry} (hwhole : whole <+: ((settled start).after syncEach calls).buffered) :
    PointOf syncEach (settled start) calls none
      (((settled start).after syncEach calls).durable ++ whole) := by
  -- from the last call backwards: only a buffered put can be missed
  induction calls using List.reverseRecOn generalizing whole with
  | nil =>
      obtain rfl : whole = [] := by simpa [settled] using hwhole
      have hend := pointOf_end syncEach (settled start) [] none
      simpa [settled, records] using hend
  | append_singleton calls last ih =>
      have hend := pointOf_end syncEach (settled start) (calls ++ [last]) none
      rw [Option.toList_none, List.append_nil, after_append_singleton] at hend
      rw [after_append_singleton] at hwhole ⊢
      have hsettled : ∀ safe, call syncEach ((settled start).after syncEach calls) last =
          settled safe → PointOf syncEach (settled start) (calls ++ [last]) none
            ((call syncEach ((settled start).after syncEach calls) last).durable ++ whole) := by
        intro safe hsafe
        rw [hsafe] at hwhole hend ⊢
        obtain rfl : whole = [] := by simpa [settled] using hwhole
        simpa [settled, records] using hend
      cases last with
      | flush => exact hsettled _ rfl
      | compact iteration keep => exact hsettled _ rfl
      | put key state =>
          cases syncEach with
          | true => exact hsettled _ rfl
          | false =>
              rcases List.prefix_concat_iff.mp hwhole with rfl | hmissing
              · exact hend
              · exact (ih hmissing).missing (by simp [StoreCall.Durable])

/-- Whatever a crash leaves is a point of the history. -/
theorem pointOf_survives (syncEach : Bool) (start : List Entry) (calls : List StoreCall)
    (during : Option StoreCall) {records : List Entry}
    (hsurvives : ((settled start).after syncEach calls).Survives syncEach during records) :
    PointOf syncEach (settled start) calls during records := by
  have hcut : ∀ {whole}, whole <+: ((settled start).after syncEach calls).buffered →
      PointOf syncEach (settled start) calls during
        (((settled start).after syncEach calls).durable ++ whole) :=
    fun hwhole => (pointOf_buffered syncEach start calls hwhole).interrupted during
  have hnothing := hcut List.nil_prefix
  rw [List.append_nil] at hnothing
  have hend := pointOf_end syncEach (settled start) calls during
  match during with
  | none =>
      obtain rfl := hsurvives
      exact hnothing
  | some .flush =>
      obtain ⟨whole, hwhole, rfl⟩ := hsurvives
      exact hcut hwhole
  | some (.compact iteration keep) =>
      rcases hsurvives with rfl | rfl
      · exact hnothing
      · simpa [call] using hend
  | some (.put key state) =>
      rcases hsurvives with rfl | ⟨rfl, whole, hwhole, rfl⟩
      · exact hnothing
      · rcases List.prefix_concat_iff.mp hwhole with rfl | hwhole
        · simpa [call, records, settled] using hend
        · exact hcut hwhole

end Ledger

/-! ## Runs of calls -/

/-- Make the calls one after the other, with I/O that succeeds. -/
def runAll (calls : List StoreCall) : EStateM Panic WalStore Unit :=
  calls.forM (StoreCall.run .done)

@[simp] theorem runAll_nil (store : WalStore) : runAll [] store = .ok () store := rfl

theorem runAll_cons {storeCall : StoreCall} {calls : List StoreCall} {store next : WalStore}
    (hcall : storeCall.run .done store = .ok () next) :
    runAll (storeCall :: calls) store = runAll calls next := by
  simp only [runAll, List.forM_eq_forM, List.forM_cons, bind, EStateM.bind, hcall]

/-- Calls with successful I/O all return, and the store goes where the ledger goes. -/
theorem Represents.runAll {store : WalStore} {ledger : Ledger} (hrep : Represents store ledger)
    {calls : List StoreCall} (hfits : ∀ storeCall ∈ calls, storeCall.Fits) :
    ∃ next, Wal.runAll calls store = .ok () next ∧ next.syncEach = store.syncEach ∧
      Represents next (ledger.after store.syncEach calls) := by
  induction calls generalizing store ledger with
  | nil => exact ⟨store, rfl, rfl, hrep⟩
  | cons storeCall calls ih =>
      rcases hrep.call (hfits storeCall List.mem_cons_self) .done with
        ⟨next, hcall, hmode, hnext⟩ | ⟨hio, -⟩
      · obtain ⟨last, hlast, hlastMode, hrepLast⟩ :=
          ih hnext (fun other hother => hfits other (List.mem_cons_of_mem _ hother))
        rw [hmode] at hlastMode hrepLast
        exact ⟨last, (runAll_cons hcall).trans hlast, hlastMode, hrepLast⟩
      · exact absurd rfl hio

/-! ## Lives -/

/-- One process on a log file: its mode, the calls that returned, and the call
it died in, if any, with what its I/O had done by then. -/
structure Life where
  syncEach : Bool
  calls : List StoreCall
  interrupted : Option (StoreCall × Io)

namespace Life

/-- The calls made, the interrupted one last. -/
def history (life : Life) : List StoreCall :=
  life.calls ++ (life.interrupted.map Prod.fst).toList

def Fits (life : Life) : Prop := ∀ storeCall ∈ life.history, storeCall.Fits

instance (life : Life) : Decidable life.Fits :=
  inferInstanceAs (Decidable (∀ storeCall ∈ life.history, storeCall.Fits))

/-- What the life does with the store it opened. -/
def live (life : Life) : EStateM Panic WalStore Unit := do
  runAll life.calls
  match life.interrupted with
  | none => pure ()
  | some (storeCall, io) => storeCall.run io

/-- The file contents the life leaves behind. -/
def leaves (life : Life) (opened : WalStore) : List UInt8 :=
  match life.live opened with
  | .ok _ store => store.disk
  | .error _ store => store.disk

/-- Open the file, live, and leave the file behind. -/
def run (disk : List UInt8) (life : Life) : Except InvalidData (List UInt8) := do
  let opened ← WalStore.openWith disk life.syncEach
  return life.leaves opened

/-- A life on a represented store leaves a file that opens to a point of its history. -/
theorem leaves_opensTo {life : Life} (hfits : life.Fits) {opened : WalStore}
    {records : List Entry} (hmode : opened.syncEach = life.syncEach)
    (hrep : Represents opened (Ledger.settled records)) :
    ∃ left, OpensTo (life.leaves opened) left ∧
      Ledger.PointOf life.syncEach (Ledger.settled records) life.calls
        (life.interrupted.map Prod.fst) left := by
  have hcalls : ∀ storeCall ∈ life.calls, storeCall.Fits := fun storeCall hcall =>
    hfits storeCall (List.mem_append_left _ hcall)
  obtain ⟨store, hrun, hstoreMode, hstore⟩ := hrep.runAll hcalls
  rw [hmode] at hstoreMode hstore
  have hpoint := @Ledger.pointOf_survives life.syncEach records life.calls
    (life.interrupted.map Prod.fst)
  unfold leaves live
  simp only [bind, EStateM.bind, hrun]
  match hinterrupted : life.interrupted with
  | none =>
      rw [hinterrupted] at hpoint
      exact ⟨_, hstore.opensTo_durable, hpoint rfl⟩
  | some (storeCall, io) =>
      rw [hinterrupted] at hpoint
      have hfitsLast : storeCall.Fits := hfits storeCall (by simp [history, hinterrupted])
      rcases hstore.call hfitsLast io with ⟨next, hcall, -, hnext⟩ |
        ⟨-, message, next, left, hcall, -, hleft, hopens⟩
      · have hreturned := @Ledger.pointOf_survives life.syncEach records
          (life.calls ++ [storeCall]) none _ rfl
        simp only [hcall]
        rw [hstoreMode] at hnext
        rw [Ledger.after_append_singleton] at hreturned
        exact ⟨_, hnext.opensTo_durable, hreturned.returned⟩
      · simp only [hcall]
        rw [hstoreMode] at hleft
        exact ⟨left, hopens, hpoint hleft⟩

/-- Any number of lives leave a file that opens. -/
theorem run_opensTo {lives : List Life} (hfits : ∀ life ∈ lives, life.Fits) {disk : List UInt8}
    {records : List Entry} (hopens : OpensTo disk records) :
    ∃ left leftRecords, lives.foldlM run disk = .ok left ∧ OpensTo left leftRecords := by
  induction lives generalizing disk records with
  | nil => exact ⟨disk, records, rfl, hopens⟩
  | cons life lives ih =>
      obtain ⟨opened, hopen, hmode, hrep⟩ := hopens life.syncEach
      obtain ⟨left, hleft, -⟩ := leaves_opensTo (hfits life List.mem_cons_self) hmode hrep
      have hlife : life.run disk = .ok (life.leaves opened) := by
        simp [run, hopen, bind, Except.bind, pure, Except.pure]
      obtain ⟨last, lastRecords, hlast, hlastOpens⟩ :=
        ih (fun other hother => hfits other (List.mem_cons_of_mem _ hother)) hleft
      exact ⟨last, lastRecords, by simpa [List.foldlM, hlife, bind, Except.bind] using hlast,
        hlastOpens⟩

end Life

/-- After any lives from an empty file, the file opens; and whatever the next
life does and wherever it dies, its file opens again, to the index and the root
that life had at some point of its history with no durable call after it. -/
theorem reopen_recovers_point (lives : List Life) (life : Life) (syncEach : Bool)
    (hfits : ∀ other ∈ life :: lives, other.Fits) :
    ∃ disk opened reopened, lives.foldlM Life.run [] = .ok disk ∧
      WalStore.openWith disk life.syncEach = .ok opened ∧
      WalStore.openWith (life.leaves opened) syncEach = .ok reopened ∧
      ∃ point past, point ≤ life.history.length ∧
        (∀ missed ∈ life.calls.drop point, ¬ missed.Durable life.syncEach) ∧
        runAll (life.history.take point) opened = .ok () past ∧
        reopened.index = past.index ∧ reopened.root = past.root := by
  obtain ⟨disk, records, hrun, hopens⟩ := Life.run_opensTo
    (fun other hother => hfits other (List.mem_cons_of_mem _ hother)) opensTo_empty
  obtain ⟨opened, hopen, hmode, hrep⟩ := hopens life.syncEach
  have hlife := hfits life List.mem_cons_self
  obtain ⟨left, hleft, point, hle, hdurable, hrecords⟩ := Life.leaves_opensTo hlife hmode hrep
  obtain ⟨reopened, hreopen, -, hreopened⟩ := hleft syncEach
  have hpastFits : ∀ storeCall ∈ life.history.take point, storeCall.Fits := fun storeCall hcall =>
    hlife storeCall (List.mem_of_mem_take hcall)
  obtain ⟨past, hpast, -, hpastRep⟩ := hrep.runAll hpastFits
  rw [hmode] at hpastRep
  refine ⟨disk, opened, reopened, hrun, hopen, hreopen, point, past, hle, hdurable, hpast, ?_, ?_⟩
  · rw [hreopened.index, hpastRep.index, Ledger.records_settled, hrecords]
    rfl
  · exact (hreopened.chainRoot.trans (by rw [Ledger.records_settled, hrecords]; rfl)).trans
      hpastRep.chainRoot.symm

/-- A group-commit life that dies seven bytes into its second flush. -/
def cutFlush : Life where
  syncEach := false
  calls := [.put ⟨"order-1"⟩ (.inProgress ⟨1⟩ ⟨genesis⟩ 30000), .flush,
    .put ⟨"order-2"⟩ (.inProgress ⟨2⟩ ⟨genesis⟩ 30005)]
  interrupted := some (.flush, ⟨.stops 7, .done⟩)

theorem reopen_recovers_point_cutFlush :
    (∀ other ∈ [cutFlush, cutFlush], other.Fits) ∧
    ∃ disk opened reopened, [cutFlush].foldlM Life.run [] = .ok disk ∧
      WalStore.openWith disk cutFlush.syncEach = .ok opened ∧
      WalStore.openWith (cutFlush.leaves opened) true = .ok reopened ∧
      ∃ point past, point ≤ cutFlush.history.length ∧
        (∀ missed ∈ cutFlush.calls.drop point, ¬ missed.Durable cutFlush.syncEach) ∧
        runAll (cutFlush.history.take point) opened = .ok () past ∧
        reopened.index = past.index ∧ reopened.root = past.root :=
  ⟨by decide, reopen_recovers_point [cutFlush] cutFlush true (by decide)⟩

end Onced.Wal
