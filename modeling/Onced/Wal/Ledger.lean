import Onced.Foundation.FramedLog
import Onced.Wal.Store

/-! # The abstract ledger of a log store

What a log store is for, without bytes: one list of records that are safe on
disk and one list of records still buffered. Calls move records between the
lists, and a crash keeps the safe records and some first part of those being
written. The faithful store is shown to refine this ledger in `Recovery`.
-/

namespace Onced.StoreCall

/-- The record a call writes fits its length field. -/
def Fits : StoreCall → Prop
  | .put key state => Wal.Fits (key, state)
  | .flush => True
  | .compact .. => True

instance (storeCall : StoreCall) : Decidable storeCall.Fits :=
  match storeCall with
  | .put key state => inferInstanceAs (Decidable (Wal.Fits (key, state)))
  | .flush => inferInstanceAs (Decidable True)
  | .compact .. => inferInstanceAs (Decidable True)

/-- Once the call has returned, everything before it is safe. -/
def Durable (syncEach : Bool) : StoreCall → Prop
  | .put .. => syncEach = true
  | .flush => True
  | .compact .. => True

end Onced.StoreCall

namespace Onced.Wal

open Foundation

/-- Log records as chained frames. -/
def framing : Framing Bytes32 Entry UInt8 :=
  ⟨fun chain entry => encodeRecord entry.1 entry.2 chain, recordChain⟩

@[simp] theorem framing_encode (chain : Bytes32) (entry : Entry) :
    framing.encode chain entry = encodeRecord entry.1 entry.2 chain := rfl

@[simp] theorem framing_next (chain : Bytes32) (entry : Entry) :
    framing.next chain entry = recordChain chain entry := rfl

/-- Records safe on disk and records still buffered, both oldest first. -/
structure Ledger where
  durable : List Entry
  buffered : List Entry

namespace Ledger

/-- A ledger whose records are all safe. -/
def settled (records : List Entry) : Ledger := ⟨records, []⟩

def records (ledger : Ledger) : List Entry := ledger.durable ++ ledger.buffered

@[simp] theorem records_settled (entries : List Entry) : (settled entries).records = entries := by
  simp [records, settled]

/-- The index a list of records builds. -/
def indexOf (records : List Entry) : Index := insertAll records ∅

/-- The chain root of a list of records. -/
def rootOf (records : List Entry) : Bytes32 := framing.root genesis records

/-- The one record per surviving key that compaction writes. -/
def compacted (ledger : Ledger) (iteration : Iteration)
    (keep : IdempotencyKey → KeyState → Bool) : List Entry :=
  iteration.order ((indexOf ledger.records).filter keep).toList

/-- The effect of a call that returns. -/
def call (syncEach : Bool) (ledger : Ledger) : StoreCall → Ledger
  | .put key state =>
      if syncEach then settled (ledger.records ++ [(key, state)])
      else ⟨ledger.durable, ledger.buffered ++ [(key, state)]⟩
  | .flush => settled ledger.records
  | .compact iteration keep => settled (ledger.compacted iteration keep)

/-- The records a crash can leave behind: between calls those on disk, inside
a call those and a first part of what the call was writing. -/
def Survives (syncEach : Bool) (ledger : Ledger) (during : Option StoreCall)
    (records : List Entry) : Prop :=
  match during with
  | none => records = ledger.durable
  | some (.put key state) =>
      records = ledger.durable ∨ syncEach = true ∧
        ∃ whole, whole <+: ledger.buffered ++ [(key, state)] ∧ records = ledger.durable ++ whole
  | some .flush => ∃ whole, whole <+: ledger.buffered ∧ records = ledger.durable ++ whole
  | some (.compact iteration keep) =>
      records = ledger.durable ∨ records = ledger.compacted iteration keep

/-- Compaction keeps exactly the accepted entries of the index. -/
theorem indexOf_compacted (ledger : Ledger) (iteration : Iteration)
    (keep : IdempotencyKey → KeyState → Bool) :
    indexOf (ledger.compacted iteration keep) = (indexOf ledger.records).filter keep :=
  insertAll_of_perm (iteration.perm _)

theorem mem_of_getElem?_indexOf {records : List Entry} {key : IdempotencyKey} {state : KeyState}
    (hstate : (indexOf records)[key]? = some state) : (key, state) ∈ records := by
  rcases mem_of_getElem?_insertAll hstate with hempty | hmem
  · simp at hempty
  · exact hmem

/-- Compaction writes only records that were there before. -/
theorem mem_of_mem_compacted {ledger : Ledger} {iteration : Iteration}
    {keep : IdempotencyKey → KeyState → Bool} {entry : Entry}
    (hentry : entry ∈ ledger.compacted iteration keep) : entry ∈ ledger.records := by
  have hlisted := (iteration.perm _).mem_iff.mp hentry
  have hvalue := Std.ExtTreeMap.mem_toList_iff_getElem?_eq_some.mp hlisted
  rw [Std.ExtTreeMap.getElem?_filter'] at hvalue
  exact mem_of_getElem?_indexOf (Option.filter_eq_some_iff.mp hvalue).1

theorem indexOf_append_singleton (records : List Entry) (key : IdempotencyKey) (state : KeyState) :
    indexOf (records ++ [(key, state)]) = (indexOf records).insert key state := by
  simp [indexOf]

/-- The visible effect of a returning call on the index. -/
def indexAfter (index : Index) : StoreCall → Index
  | .put key state => index.insert key state
  | .flush => index
  | .compact _ keep => index.filter keep

theorem getElem?_indexAfter (index : Index) (storeCall : StoreCall) (key : IdempotencyKey) :
    (indexAfter index storeCall)[key]? = storeCall.effect key index[key]? := by
  cases storeCall with
  | put written state => exact Index.getElem?_insert index written key state
  | flush => rfl
  | compact iteration keep => exact Std.ExtTreeMap.getElem?_filter'

@[simp] theorem indexOf_call (syncEach : Bool) (ledger : Ledger) (storeCall : StoreCall) :
    indexOf (ledger.call syncEach storeCall).records =
      indexAfter (indexOf ledger.records) storeCall := by
  cases storeCall with
  | put key state =>
      cases syncEach with
      | true => simp [call, indexOf, indexAfter]
      | false => simp [call, records, indexOf, indexAfter]
  | flush => simp [call, indexAfter]
  | compact iteration keep =>
      have hcompacted := indexOf_compacted ledger iteration keep
      simpa [call, indexAfter] using hcompacted

/-! ### Ledgers with nothing buffered -/

theorem records_of_buffered_nil {ledger : Ledger} (hbuffered : ledger.buffered = []) :
    ledger.records = ledger.durable := by
  rw [records, hbuffered, List.append_nil]

theorem settled_of_buffered_nil {ledger : Ledger} (hbuffered : ledger.buffered = []) :
    settled ledger.records = ledger := by
  rw [records_of_buffered_nil hbuffered, settled, ← hbuffered]

theorem call_strict_buffered (ledger : Ledger) (storeCall : StoreCall) :
    (ledger.call true storeCall).buffered = [] := by
  cases storeCall <;> rfl

/-- A strict call that is cut short has happened or it has not. -/
theorem indexOf_survives_strict {ledger : Ledger} (hbuffered : ledger.buffered = [])
    {storeCall : StoreCall} {records : List Entry}
    (hsurvives : ledger.Survives true (some storeCall) records) :
    indexOf records = indexOf ledger.records ∨
      indexOf records = indexAfter (indexOf ledger.records) storeCall := by
  have hrecords := records_of_buffered_nil hbuffered
  cases storeCall with
  | flush =>
      obtain ⟨whole, hwhole, rfl⟩ := hsurvives
      rw [hbuffered] at hwhole
      obtain rfl : whole = [] := List.prefix_nil.mp hwhole
      rw [hrecords, List.append_nil]
      exact Or.inl rfl
  | compact iteration keep =>
      rcases hsurvives with rfl | rfl
      · rw [hrecords]
        exact Or.inl rfl
      · rw [indexOf_compacted]
        exact Or.inr rfl
  | put key state =>
      rcases hsurvives with rfl | ⟨-, whole, hwhole, rfl⟩
      · rw [hrecords]
        exact Or.inl rfl
      · rcases List.prefix_concat_iff.mp hwhole with rfl | hwhole
        · rw [hbuffered, List.nil_append, indexOf_append_singleton, hrecords]
          exact Or.inr rfl
        · rw [hbuffered] at hwhole
          obtain rfl : whole = [] := List.prefix_nil.mp hwhole
          rw [hrecords, List.append_nil]
          exact Or.inl rfl

/-! ### Properties of every index a crash may bring back -/

/-- The property holds of the index of the durable records and any first part
of the buffered ones. -/
def Always (property : Index → Prop) (ledger : Ledger) : Prop :=
  ∀ whole, whole <+: ledger.buffered → property (indexOf (ledger.durable ++ whole))

namespace Always

variable {property : Index → Prop} {ledger : Ledger}

/-- With nothing buffered there is only one index to come back. -/
theorem of_buffered_nil (hbuffered : ledger.buffered = [])
    (hnow : property (indexOf ledger.records)) : ledger.Always property := by
  intro whole hwhole
  rw [hbuffered] at hwhole
  obtain rfl : whole = [] := List.prefix_nil.mp hwhole
  rwa [List.append_nil, ← records_of_buffered_nil hbuffered]

theorem settled {records : List Entry} (hrecords : property (indexOf records)) :
    (settled records).Always property :=
  of_buffered_nil rfl (by rwa [records_settled])

theorem now (halways : ledger.Always property) : property (indexOf ledger.records) :=
  halways ledger.buffered (List.prefix_refl _)

theorem durable (halways : ledger.Always property) : property (indexOf ledger.durable) := by
  have hnothing := halways [] List.nil_prefix
  rwa [List.append_nil] at hnothing

theorem mono {weaker : Index → Prop} (halways : ledger.Always property)
    (himp : ∀ index, property index → weaker index) : ledger.Always weaker :=
  fun whole hwhole => himp _ (halways whole hwhole)

/-- Putting one more record behind a first part of the buffer. -/
theorem put {key : IdempotencyKey} {state : KeyState} (halways : ledger.Always property)
    (hput : ∀ index, property index → property (index.insert key state)) {whole : List Entry}
    (hwhole : whole <+: ledger.buffered ++ [(key, state)]) :
    property (indexOf (ledger.durable ++ whole)) := by
  rcases List.prefix_concat_iff.mp hwhole with rfl | hwhole
  · rw [← List.append_assoc, indexOf_append_singleton]
    exact hput _ halways.now
  · exact halways whole hwhole

/-- What a call keeps of an index, it keeps of every index a crash may bring back. -/
theorem call {storeCall : StoreCall} (halways : ledger.Always property)
    (hkeeps : ∀ index, property index → property (indexAfter index storeCall))
    (syncEach : Bool) : (ledger.call syncEach storeCall).Always property := by
  have hnow : property (indexOf (ledger.call syncEach storeCall).records) := by
    rw [indexOf_call]
    exact hkeeps _ halways.now
  cases storeCall with
  | flush => exact of_buffered_nil rfl hnow
  | compact iteration keep => exact of_buffered_nil rfl hnow
  | put key state =>
      cases syncEach with
      | true => exact of_buffered_nil rfl hnow
      | false => exact fun whole hwhole => halways.put hkeeps hwhole

/-- The same for a call that is cut short. -/
theorem survives {storeCall : StoreCall} (halways : ledger.Always property)
    (hkeeps : ∀ index, property index → property (indexAfter index storeCall))
    {syncEach : Bool} {records : List Entry}
    (hsurvives : ledger.Survives syncEach (some storeCall) records) :
    property (indexOf records) := by
  cases storeCall with
  | flush =>
      obtain ⟨whole, hwhole, rfl⟩ := hsurvives
      exact halways whole hwhole
  | compact iteration keep =>
      rcases hsurvives with rfl | rfl
      · exact halways.durable
      · rw [indexOf_compacted]
        exact hkeeps _ halways.now
  | put key state =>
      rcases hsurvives with rfl | ⟨-, whole, hwhole, rfl⟩
      · exact halways.durable
      · exact halways.put hkeeps hwhole

end Always

end Ledger

end Onced.Wal
