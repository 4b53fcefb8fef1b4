import Onced.Wal.Checksum
import Onced.Wal.Lives

/-! # Damaged logs

What opening makes of a log whose bytes have changed on disk. The replay loop
stops at the first record it cannot read and then asks the damaged bytes
themselves whether the record is complete: a complete one is refused, any other
is taken for a torn tail and cut off together with everything after it.
-/

namespace Onced.Wal

open Foundation

/-! ## Flipped bits -/

/-- The byte at `position` with one bit flipped. -/
def flipBit (bytes : List UInt8) (position : Nat) (bit : Fin 8) : List UInt8 :=
  bytes.modify position (· ^^^ (1 <<< UInt8.ofNat bit))

section FlipBit

variable {position : Nat} (bit : Fin 8)

@[simp] theorem length_flipBit (bytes : List UInt8) (position : Nat) :
    (flipBit bytes position bit).length = bytes.length := List.length_modify ..

theorem flipBit_append_left {front : List UInt8} (hposition : position < front.length)
    (back : List UInt8) :
    flipBit (front ++ back) position bit = flipBit front position bit ++ back := by
  obtain ⟨before, byte, after, rfl, rfl, hflip⟩ := List.exists_of_modify
    (· ^^^ (1 <<< UInt8.ofNat bit)) hposition
  unfold flipBit
  rw [hflip]
  simp [List.modify_eq_take_drop]

theorem flipBit_append_right {front : List UInt8} {length : Nat} (hlength : front.length = length)
    (back : List UInt8) (position : Nat) :
    flipBit (front ++ back) (length + position) bit = front ++ flipBit back position bit := by
  subst hlength
  simp [flipBit, List.modify_eq_take_drop, List.take_length_add_append]

theorem flipBit_substitutes {bytes : List UInt8} (hposition : position < bytes.length) :
    ∃ before byte after flipped, bytes = before ++ byte :: after ∧ byte ≠ flipped ∧
      flipBit bytes position bit = before ++ flipped :: after := by
  obtain ⟨before, byte, after, hbytes, -, hflip⟩ := List.exists_of_modify
    (· ^^^ (1 <<< UInt8.ofNat bit)) hposition
  refine ⟨before, byte, after, _, hbytes, ?_, hflip⟩
  have hmask : ∀ bit : Fin 8, (0 : UInt8) ≠ 1 <<< UInt8.ofNat bit := by decide
  intro hsame
  refine hmask bit ((UInt8.xor_right_inj byte).mp ?_)
  rw [UInt8.xor_zero]
  exact hsame

theorem flipBit_ne {bytes : List UInt8} (hposition : position < bytes.length) :
    flipBit bytes position bit ≠ bytes := by
  obtain ⟨before, byte, after, flipped, rfl, hne, hflip⟩ := flipBit_substitutes bit hposition
  rw [hflip]
  simpa using hne.symm

theorem endsInside_iff (front back : List UInt8) (position len : Nat) :
    headerLen + len ≤ (flipBit back position bit).length ↔
      front.length + headerLen + len ≤ (front ++ back).length := by
  rw [length_flipBit, List.length_append]
  omega

end FlipBit

/-! ## Opening a damaged record -/

/-- Two different inputs with the same digest. -/
def Collides (one other : List UInt8) : Prop := one ≠ other ∧ sha256 one = sha256 other

section Header

variable {lenBytes crcBytes chainBytes : List UInt8} (rest : List UInt8)
variable (hlen : lenBytes.length = 4) (hcrc : crcBytes.length = 4)
variable (hchain : chainBytes.length = 32)

include hlen hcrc hchain

/-- A complete frame with a wrong checksum or a wrong chain is refused. -/
theorem openWith_refuses {records : List Entry} (hfits : ∀ entry ∈ records, Fits entry)
    (hcomplete : ofLeBytes lenBytes ≤ rest.length)
    (hdamaged : crc32 (rest.take (ofLeBytes lenBytes)) ≠ UInt32.ofNat (ofLeBytes crcBytes) ∨
      (computeChain (Ledger.rootOf records) (UInt32.ofNat (ofLeBytes crcBytes))
        (rest.take (ofLeBytes lenBytes))).toList ≠ chainBytes)
    (syncEach : Bool) :
    ∃ failure, WalStore.openWith (framing.log genesis records ++
      (lenBytes ++ (crcBytes ++ (chainBytes ++ rest)))) syncEach = .error failure := by
  cases hdecoded : decodeRecord (lenBytes ++ (crcBytes ++ (chainBytes ++ rest))) with
  | none =>
      rw [openWith_stop hfits hdecoded, isCompleteFrame_header rest hlen hcrc hchain,
        decide_eq_true hcomplete]
      exact ⟨_, rfl⟩
  | some decoded =>
      have hheader := hdecoded
      rw [decodeRecord_header rest hlen hcrc hchain] at hheader
      split at hheader
      next hframe =>
        obtain ⟨result, -, rfl⟩ := Option.map_eq_some_iff.mp hheader
        have hmismatch := hdamaged.resolve_left (not_not_intro hframe.2)
        rw [openWith_eq, replay_log hfits, replay_decoded hdecoded,
          frameInput_header rest hlen hcrc hchain,
            if_pos fun hsame => hmismatch (congrArg List.Vector.toList hsame)]
        exact ⟨_, rfl⟩
      next => contradiction

end Header

section Flipped

variable {records : List Entry} (hfits : ∀ entry ∈ records, Fits entry)
variable {entry : Entry} (hentry : Fits entry) (after : List UInt8)
variable {position : Nat} (bit : Fin 8)

include hfits hentry

/-- The same for a record whose length field is intact. -/
theorem openWith_refuses_record {crcBytes chainBytes payload : List UInt8}
    (hcrc : crcBytes.length = 4) (hchain : chainBytes.length = 32)
    (hpayload : payload.length = (encodePayload entry.1 entry.2).length)
    (hdamaged : crc32 payload ≠ UInt32.ofNat (ofLeBytes crcBytes) ∨
      (computeChain (Ledger.rootOf records) (UInt32.ofNat (ofLeBytes crcBytes))
        payload).toList ≠ chainBytes) (syncEach : Bool) :
    ∃ failure, WalStore.openWith (framing.log genesis records ++
      (leBytes 4 (UInt32.ofNat (encodePayload entry.1 entry.2).length).toNat ++
        (crcBytes ++ (chainBytes ++ (payload ++ after))))) syncEach = .error failure := by
  have hlen := ofLeBytes_length_field hentry
  refine openWith_refuses _ (leBytes_length _ _) hcrc hchain hfits ?_ ?_ syncEach
  · rw [hlen, List.length_append, hpayload]
    exact Nat.le_add_right _ _
  · rwa [hlen, List.take_left' hpayload]

theorem openWith_flipped_checksum (hposition : position < 4) (syncEach : Bool) :
    ∃ failure, WalStore.openWith (framing.log genesis records ++ flipBit
      (encodeRecord entry.1 entry.2 (Ledger.rootOf records) ++ after) (4 + position) bit)
        syncEach = .error failure := by
  have hcrc := leBytes_length 4 (crc32 (encodePayload entry.1 entry.2)).toNat
  rw [encodeRecord_append, flipBit_append_right _ (leBytes_length _ _),
    flipBit_append_left _ (by omega)]
  refine openWith_refuses_record hfits hentry after (by simp) (List.Vector.toList_length _) rfl
    (Or.inl fun hsame => flipBit_ne bit (hcrc.symm ▸ hposition) ?_) syncEach
  -- the damaged field would denote the same number as the intact one
  apply ofLeBytes_injective_on_length (length_flipBit bit _ _)
  have hbound := ofLeBytes_lt (flipBit (leBytes 4 (crc32
    (encodePayload entry.1 entry.2)).toNat) position bit)
  rw [length_flipBit, hcrc] at hbound
  have hnumber := congrArg UInt32.toNat hsame
  rw [UInt32.toNat_ofNat_of_lt' hbound] at hnumber
  rw [← hnumber, ofLeBytes_leBytes]
  exact (Nat.mod_eq_of_lt (UInt32.toNat_lt _)).symm

theorem openWith_flipped_chain (hposition : position < 32) (syncEach : Bool) :
    ∃ failure, WalStore.openWith (framing.log genesis records ++ flipBit
      (encodeRecord entry.1 entry.2 (Ledger.rootOf records) ++ after) (4 + (4 + position)) bit)
        syncEach = .error failure := by
  have hchain := (recordChain (Ledger.rootOf records) entry).toList_length
  rw [encodeRecord_append, flipBit_append_right _ (leBytes_length _ _),
    flipBit_append_right _ (leBytes_length _ _), flipBit_append_left _ (hchain.symm ▸ hposition)]
  refine openWith_refuses_record hfits hentry after (leBytes_length _ _) (by simp) rfl
    (Or.inr fun hsame => flipBit_ne bit (hchain.symm ▸ hposition) ?_) syncEach
  rw [ofLeBytes_crc_field] at hsame
  exact hsame.symm

theorem openWith_flipped_payload (hposition : position < (encodePayload entry.1 entry.2).length)
    (syncEach : Bool) :
    ∃ failure, WalStore.openWith (framing.log genesis records ++ flipBit
      (encodeRecord entry.1 entry.2 (Ledger.rootOf records) ++ after)
        (4 + (4 + (32 + position))) bit) syncEach = .error failure := by
  rw [encodeRecord_append, flipBit_append_right _ (leBytes_length _ _),
    flipBit_append_right _ (leBytes_length _ _),
    flipBit_append_right _ (List.Vector.toList_length _), flipBit_append_left _ hposition]
  refine openWith_refuses_record hfits hentry after (leBytes_length _ _)
    (List.Vector.toList_length _) (length_flipBit bit _ _) (Or.inl fun hsame => ?_) syncEach
  rw [ofLeBytes_crc_field] at hsame
  obtain ⟨before, byte, rest, flipped, hpayload, hne, hflip⟩ := flipBit_substitutes bit hposition
  rw [hflip, hpayload] at hsame
  exact crc32_substituted_ne hne before rest hsame.symm

/-- A damaged length field: the frame is refused if it still fits into the file. -/
theorem openWith_flipped_length (hposition : position < 4) {altered : List UInt8}
    (haltered : altered = flipBit (encodeRecord entry.1 entry.2 (Ledger.rootOf records) ++ after)
      position bit)
    (hsha : ¬ Collides (frameInput (Ledger.rootOf records) altered)
      (frameInput (Ledger.rootOf records)
        (encodeRecord entry.1 entry.2 (Ledger.rootOf records) ++ after)))
    (hcomplete : headerLen + ofLeBytes (altered.take 4) ≤ altered.length) (syncEach : Bool) :
    ∃ failure, WalStore.openWith (framing.log genesis records ++ altered) syncEach =
      .error failure := by
  have hlen := leBytes_length 4 (UInt32.ofNat (encodePayload entry.1 entry.2).length).toNat
  rw [frameInput_record hentry] at hsha
  rw [encodeRecord_append, flipBit_append_left _ (by omega)] at haltered
  subst haltered
  rw [List.take_left' (by simp)] at hcomplete
  rw [frameInput_header _ (by simp) (leBytes_length _ _) (List.Vector.toList_length _),
    ofLeBytes_crc_field] at hsha
  have hfitsFile : ofLeBytes (flipBit (leBytes 4 (UInt32.ofNat
      (encodePayload entry.1 entry.2).length).toNat) position bit) ≤
        (encodePayload entry.1 entry.2 ++ after).length := by
    simp only [List.length_append, length_flipBit, leBytes_length, List.Vector.toList_length,
      headerLen] at hcomplete ⊢
    omega
  refine openWith_refuses _ (by simp) (leBytes_length _ _) (List.Vector.toList_length _) hfits
    hfitsFile (Or.inr fun hsame => hsha ⟨fun hinput => ?_, ?_⟩) syncEach
  · -- equal inputs would have equal payload lengths, but the field has changed
    have hlength := congrArg List.length (List.append_cancel_left hinput)
    rw [List.length_take, Nat.min_eq_left hfitsFile] at hlength
    exact flipBit_ne bit (hlen.symm ▸ hposition) (ofLeBytes_injective_on_length
      (length_flipBit bit _ _) (hlength.trans (ofLeBytes_length_field hentry).symm))
  · rw [ofLeBytes_crc_field] at hsame
    exact List.Vector.toList_injective hsame

omit hfits in
/-- Outside the length field, damage does not change where the record ends. -/
theorem complete_of_intact_length (hposition : 4 ≤ position) {altered : List UInt8}
    (haltered : altered = flipBit (encodeRecord entry.1 entry.2 (Ledger.rootOf records) ++ after)
      position bit) :
    headerLen + ofLeBytes (altered.take 4) ≤ altered.length := by
  obtain ⟨offset, rfl⟩ := Nat.exists_eq_add_of_le hposition
  rw [encodeRecord_append, flipBit_append_right _ (leBytes_length _ _)] at haltered
  subst haltered
  rw [List.take_left' (leBytes_length _ _), ofLeBytes_length_field hentry]
  simp only [List.length_append, length_flipBit, leBytes_length, List.Vector.toList_length,
    headerLen]
  omega

/-- A flipped bit is noticed exactly if the record still ends inside the file. -/
theorem openWith_flipped_iff
    (hposition : position < (encodeRecord entry.1 entry.2 (Ledger.rootOf records)).length)
    {altered : List UInt8}
    (haltered : altered = flipBit (encodeRecord entry.1 entry.2 (Ledger.rootOf records) ++ after)
      position bit)
    (hsha : position < 4 → ¬ Collides (frameInput (Ledger.rootOf records) altered)
      (frameInput (Ledger.rootOf records)
        (encodeRecord entry.1 entry.2 (Ledger.rootOf records) ++ after))) (syncEach : Bool) :
    (∃ failure, WalStore.openWith (framing.log genesis records ++ altered) syncEach =
      .error failure) ↔ headerLen + ofLeBytes (altered.take 4) ≤ altered.length := by
  constructor
  · rintro ⟨failure, hfailure⟩
    by_contra hlong
    obtain ⟨hnone, hincomplete⟩ := incomplete_of_length (Nat.lt_of_not_le hlong)
    obtain ⟨store, hopen, -⟩ := opensTo_of_incomplete hfits hnone hincomplete syncEach
    rw [hfailure] at hopen
    contradiction
  · intro hcomplete
    rw [encodeRecord_length, headerLen] at hposition
    rcases Nat.lt_or_ge position 4 with hlength | hposition4
    · exact openWith_flipped_length hfits hentry after bit hlength haltered (hsha hlength) hcomplete
        syncEach
    obtain ⟨inChecksum, rfl⟩ := Nat.exists_eq_add_of_le hposition4
    subst haltered
    rcases Nat.lt_or_ge inChecksum 4 with hchecksum | hposition8
    · exact openWith_flipped_checksum hfits hentry after bit hchecksum syncEach
    obtain ⟨inChain, rfl⟩ := Nat.exists_eq_add_of_le hposition8
    rcases Nat.lt_or_ge inChain 32 with hchain | hposition40
    · exact openWith_flipped_chain hfits hentry after bit hchain syncEach
    obtain ⟨inPayload, rfl⟩ := Nat.exists_eq_add_of_le hposition40
    exact openWith_flipped_payload hfits hentry after bit (by omega) syncEach

end Flipped

/-! ## Logs written by puts -/

/-- Put the entries one after the other and flush. -/
def writing (syncEach : Bool) (entries : List Entry) : Life :=
  ⟨syncEach, entries.map (fun entry => .put entry.1 entry.2) ++ [.flush], none⟩

theorem Ledger.records_after_puts (syncEach : Bool) (entries : List Entry) (ledger : Ledger) :
    (ledger.after syncEach (entries.map fun entry => .put entry.1 entry.2)).records =
      ledger.records ++ entries := by
  induction entries generalizing ledger with
  | nil => simp
  | cons entry entries ih =>
      rw [List.map_cons, Ledger.after_cons, ih]
      cases syncEach <;> simp [Ledger.call, Ledger.records, Ledger.settled]

/-- The log file after puts and a flush holds their frames. -/
theorem run_writing (syncEach : Bool) {entries : List Entry}
    (hfits : ∀ entry ∈ entries, Fits entry) :
    Life.run [] (writing syncEach entries) = .ok (framing.log genesis entries) := by
  obtain ⟨opened, hopen, hmode, hrep⟩ := opensTo_empty syncEach
  have hcalls : ∀ storeCall ∈ (writing syncEach entries).calls, storeCall.Fits := by
    simp only [writing, List.mem_append, List.mem_map, List.mem_singleton]
    rintro _ (⟨entry, hentry, rfl⟩ | rfl)
    · exact hfits entry hentry
    · trivial
  obtain ⟨store, hrun, -, hstore⟩ := hrep.runAll hcalls
  have hfile : store.disk = framing.log genesis entries := by
    rw [hstore.disk_eq, writing,
      Ledger.after_append_singleton, Ledger.call, Ledger.settled, Ledger.records_after_puts,
      Ledger.records_settled, List.nil_append]
  simp only [Life.run, writing, Life.leaves, Life.live, bind, Except.bind, EStateM.bind, hopen,
    pure, Except.pure, EStateM.pure]
  simp only [writing] at hrun
  rw [hrun, ← hfile]

/-- A bit flipped inside a record is noticed exactly if the record, with the
length its damaged header states, still ends inside the file; outside the length
field it always is. -/
theorem flipped_bit_refused_iff (syncEach reopenMode : Bool) (before : List Entry) (entry : Entry)
    (after : List Entry) (hfits : ∀ other ∈ before ++ entry :: after, Fits other) {position : Nat}
    (hposition : position < (encodeRecord entry.1 entry.2 (Ledger.rootOf before)).length)
    (bit : Fin 8) :
    ∃ front disk, Life.run [] (writing syncEach before) = .ok front ∧
      Life.run [] (writing syncEach (before ++ entry :: after)) = .ok disk ∧
      ∀ altered, altered = flipBit disk (front.length + position) bit →
        (position < 4 →
          ¬ Collides (frameInput (Ledger.rootOf before) (altered.drop front.length))
            (frameInput (Ledger.rootOf before) (disk.drop front.length))) →
        ((∃ failure, WalStore.openWith altered reopenMode = .error failure) ↔
          front.length + headerLen + ofLeBytes ((altered.drop front.length).take 4) ≤
            disk.length) ∧
        (4 ≤ position → front.length + headerLen +
          ofLeBytes ((altered.drop front.length).take 4) ≤ disk.length) := by
  have hbefore : ∀ other ∈ before, Fits other := fun other hother =>
    hfits other (List.mem_append_left _ hother)
  have hentry : Fits entry := hfits entry (by simp)
  refine ⟨_, _, run_writing syncEach hbefore, run_writing syncEach hfits, ?_⟩
  rintro _ rfl hsha
  have hdisk : framing.log genesis (before ++ entry :: after) = framing.log genesis before ++
      (encodeRecord entry.1 entry.2 (Ledger.rootOf before) ++
        framing.log (recordChain (Ledger.rootOf before) entry) after) := by
    simp [Ledger.rootOf]
  rw [hdisk, flipBit_append_right bit rfl, List.drop_left] at hsha ⊢
  rw [List.drop_left] at hsha
  rw [← endsInside_iff bit]
  exact ⟨openWith_flipped_iff hbefore hentry _ bit hposition rfl hsha reopenMode,
    fun hintact => complete_of_intact_length hentry _ bit hintact rfl⟩

/-- Two records of one key. -/
def charged : List Entry :=
  [(⟨"k"⟩, .inProgress ⟨1⟩ ⟨genesis⟩ 30000), (⟨"k"⟩, .completed ⟨genesis⟩ ⟨200, ∅, []⟩ 5)]

theorem charged_fits : ∀ entry ∈ charged, Fits entry := by decide

/-- A bit of the first record's payload is flipped. -/
theorem flipped_bit_refused_iff_payload :
    ∃ disk failure, Life.run [] (writing true charged) = .ok disk ∧
      WalStore.openWith (flipBit disk 40 0) true = .error failure := by
  have hposition : 40 < (encodeRecord ⟨"k"⟩ (.inProgress ⟨1⟩ ⟨genesis⟩ 30000)
      (Ledger.rootOf [])).length := by
    rw [encodeRecord_length]
    decide
  obtain ⟨front, disk, hfront, hdisk, hiff⟩ := flipped_bit_refused_iff true true [] _ _
    charged_fits hposition 0
  obtain rfl : [] = front := Except.ok.inj ((run_writing true (by simp)).symm.trans hfront)
  obtain ⟨hnoticed, hends⟩ := hiff _ rfl (by omega)
  rw [List.length_nil, Nat.zero_add] at hnoticed
  obtain ⟨failure, hfailure⟩ := hnoticed.mpr (by simpa using hends (by omega))
  exact ⟨disk, failure, hdisk, hfailure⟩

/-- The top bit of the first record's length is flipped: the record seems to end
after the file does, and both records are gone. -/
theorem flipped_length_drops_log :
    ∃ disk store, Life.run [] (writing true charged) = .ok disk ∧
      WalStore.openWith (flipBit disk 3 7) true = .ok store ∧ store.index = ∅ := by
  have hincomplete : (flipBit (framing.log genesis charged) 3 7).length <
      headerLen + ofLeBytes ((flipBit (framing.log genesis charged) 3 7).take 4) := by
    rw [charged, Framing.log_cons, framing_encode, encodeRecord_append,
      flipBit_append_left _ (by simp), List.take_left' (by simp)]
    simp only [Framing.log_cons, Framing.log_nil, framing_encode, List.length_append,
      length_flipBit, leBytes_length, List.Vector.toList_length, encodeRecord_length]
    decide
  obtain ⟨hnone, hframe⟩ := incomplete_of_length hincomplete
  obtain ⟨store, hopen, -, hstore⟩ :=
    opensTo_of_incomplete (fun _ hentry => absurd hentry List.not_mem_nil) hnone hframe true
  exact ⟨_, store, run_writing true charged_fits, hopen, hstore.index⟩

/-! ## Appends that arrive out of order -/

/-- A byte of an unsynced append either has arrived or still reads as zero. -/
def Arriving (written onDisk : UInt8) : Prop := onDisk = written ∨ onDisk = 0

theorem ofLeBytes_arriving {written onDisk : List UInt8}
    (harriving : List.Forall₂ Arriving written onDisk) : ofLeBytes onDisk ≤ ofLeBytes written := by
  induction harriving with
  | nil => exact le_rfl
  | cons hbyte _ ih =>
      simp only [ofLeBytes]
      rcases hbyte with rfl | rfl
      · omega
      · simp only [UInt8.toNat_zero]
        omega

theorem arriving_zeros (written : List UInt8) :
    List.Forall₂ Arriving written (List.replicate written.length 0) := by
  induction written with
  | nil => exact .nil
  | cons byte written ih => exact .cons (Or.inr rfl) ih

/-- What opens has been read to the end of the file it leaves. -/
theorem replay_of_openWith {disk : List UInt8} {syncEach : Bool} {store : WalStore}
    (hopen : WalStore.openWith disk syncEach = .ok store) :
    ∃ last, replay disk ⟨∅, 0, genesis⟩ = .ok last ∧
      isCompleteFrame (disk.drop last.offset) = false ∧
      store.file.bytes = disk.take last.offset ∧ store.file.bytes.length = last.offset := by
  rw [openWith_eq] at hopen
  split at hopen
  next => contradiction
  next last hreplay =>
    split at hopen
    next => contradiction
    next hincomplete =>
      cases hopen
      have hinside := (replay_offset hreplay (Nat.zero_le _)).2
      have hbytes : ((LogFile.setLen ⟨disk, 0⟩ last.offset).seekStart last.offset).bytes =
          disk.take last.offset := by
        simp [LogFile.setLen, LogFile.seekStart, Nat.sub_eq_zero_of_le hinside]
      refine ⟨last, hreplay, by simpa using hincomplete, hbytes, ?_⟩
      rw [hbytes, List.length_take, Nat.min_eq_left hinside]

/-- An append of which some bytes may be missing is a complete frame. -/
theorem isCompleteFrame_arriving {entry : Entry} (hentry : Fits entry) {chain : Bytes32}
    {tail : List UInt8}
    (harriving : List.Forall₂ Arriving (encodeRecord entry.1 entry.2 chain) tail) :
    isCompleteFrame tail = true := by
  have hlength := harriving.length_eq
  rw [encodeRecord_length] at hlength
  have hheader : headerLen ≤ tail.length := by omega
  obtain ⟨lenBytes, crcBytes, chainBytes, rest, hlen, hcrc, hchain, rfl⟩ := exists_header hheader
  have hfield := ofLeBytes_arriving (List.forall₂_take 4 harriving)
  rw [encodeRecord_eq, List.take_left' (leBytes_length _ _), List.take_left' hlen,
    ofLeBytes_length_field hentry] at hfield
  rw [isCompleteFrame_header _ hlen hcrc hchain]
  simp only [List.length_append, headerLen, hlen, hcrc, hchain] at hlength
  exact decide_eq_true (by omega)

/-- If a log opens with an append of which bytes are missing, the damaged frame
was read as a record. -/
theorem read_past_arriving {durable : List Entry} (hfits : ∀ entry ∈ durable, Fits entry)
    {entry : Entry} (hentry : Fits entry) {tail : List UInt8} (harriving : List.Forall₂ Arriving
      (encodeRecord entry.1 entry.2 (Ledger.rootOf durable)) tail) {syncEach : Bool}
    {store : WalStore}
    (hopen : WalStore.openWith (framing.log genesis durable ++ tail) syncEach = .ok store) :
    (framing.log genesis durable).length < store.file.bytes.length ∧
      store.file.bytes <+: framing.log genesis durable ++ tail := by
  obtain ⟨last, hreplay, hincomplete, hbytes, hlength⟩ := replay_of_openWith hopen
  refine ⟨?_, hbytes ▸ List.take_prefix _ _⟩
  rw [hlength]
  rw [replay_log hfits] at hreplay
  cases hdecoded : decodeRecord tail with
  | none =>
      rw [replay_stop (by rwa [List.drop_left])] at hreplay
      cases hreplay
      simp [isCompleteFrame_arriving hentry harriving] at hincomplete
  | some decoded =>
      obtain ⟨hheader, hconsumed⟩ := decodeRecord_consumed hdecoded
      rw [replay_decoded hdecoded] at hreplay
      split at hreplay
      next => contradiction
      next =>
        have hforward := (replay_offset hreplay (by simp only [List.length_append]; omega)).1
        simp only [headerLen] at hheader hforward
        omega

/-- After a crash that left an append at its full length, the log opens to the
durable records, or to those and the appended one, exactly if every byte of the
append has arrived. -/
theorem arriving_append_recovers_iff (durable : List Entry) (entry : Entry)
    (hfits : ∀ other ∈ durable ++ [entry], Fits other) (tail : List UInt8)
    (harriving : List.Forall₂ Arriving
      (encodeRecord entry.1 entry.2 (Ledger.rootOf durable)) tail) :
    ∃ disk, Life.run [] (writing true durable) = .ok disk ∧
      (OpensTo (disk ++ tail) durable ∨ OpensTo (disk ++ tail) (durable ++ [entry]) ↔
        tail = encodeRecord entry.1 entry.2 (Ledger.rootOf durable)) := by
  have hdurable : ∀ other ∈ durable, Fits other := fun other hother =>
    hfits other (List.mem_append_left _ hother)
  have hentry : Fits entry := hfits entry (by simp)
  have hlog : framing.log genesis (durable ++ [entry]) = framing.log genesis durable ++
      encodeRecord entry.1 entry.2 (Ledger.rootOf durable) := by
    simp [Ledger.rootOf]
  refine ⟨_, run_writing true hdurable, ?_, ?_⟩
  · rintro (hopens | hopens)
    · obtain ⟨store, hopen, -, hstore⟩ := hopens true
      have hlonger := (read_past_arriving hdurable hentry harriving hopen).1
      rw [hstore.file] at hlonger
      exact absurd hlonger (lt_irrefl _)
    · obtain ⟨store, hopen, -, hstore⟩ := hopens true
      have hread := (read_past_arriving hdurable hentry harriving hopen).2
      rw [hstore.file, Ledger.settled, hlog, List.prefix_append_right_inj] at hread
      exact (hread.eq_of_length harriving.length_eq).symm
  · rintro rfl
    rw [← hlog]
    exact Or.inr (opensTo_log hfits)

/-- The append of the second record as a crash may leave it. -/
theorem arriving_append_recovers_iff_whole :
    ∃ disk, Life.run [] (writing true (charged.take 1)) = .ok disk ∧
      (OpensTo (disk ++ encodeRecord ⟨"k"⟩ (.completed ⟨genesis⟩ ⟨200, ∅, []⟩ 5)
          (Ledger.rootOf (charged.take 1))) (charged.take 1) ∨
        OpensTo (disk ++ encodeRecord ⟨"k"⟩ (.completed ⟨genesis⟩ ⟨200, ∅, []⟩ 5)
          (Ledger.rootOf (charged.take 1))) charged) := by
  obtain ⟨disk, hdisk, hiff⟩ := arriving_append_recovers_iff (charged.take 1)
    (⟨"k"⟩, .completed ⟨genesis⟩ ⟨200, ∅, []⟩ 5) charged_fits _
    (List.forall₂_same.mpr fun _ _ => Or.inl rfl)
  exact ⟨disk, hdisk, hiff.mpr rfl⟩

/-- None of the append has arrived: the zeros pass for a complete record with an
empty payload, and the log does not open. -/
theorem zeroed_append_unopenable :
    ∃ disk, Life.run [] (writing true (charged.take 1)) = .ok disk ∧
      ∃ tail, List.Forall₂ Arriving (encodeRecord ⟨"k"⟩ (.completed ⟨genesis⟩ ⟨200, ∅, []⟩ 5)
          (Ledger.rootOf (charged.take 1))) tail ∧
        ∃ failure, WalStore.openWith (disk ++ tail) true = .error failure := by
  have hfits : ∀ entry ∈ charged.take 1, Fits entry := by decide
  refine ⟨_, run_writing true hfits, _, arriving_zeros _, ?_⟩
  have hzeros : ∀ n, List.replicate (headerLen + n) (0 : UInt8) = List.replicate 4 0 ++
      (List.replicate 4 0 ++ (List.replicate 32 0 ++ List.replicate n 0)) := by
    intro n
    simp only [List.replicate_append_replicate, headerLen]
    congr 1
    omega
  rw [encodeRecord_length, hzeros]
  have hnone : decodeRecord (List.replicate 4 0 ++ (List.replicate 4 0 ++ (List.replicate 32 0 ++
      List.replicate (encodePayload ⟨"k"⟩ (.completed ⟨genesis⟩ ⟨200, ∅, []⟩ 5)).length 0))) =
        none := by
    rw [decodeRecord_header _ rfl rfl rfl]
    split <;> rfl
  rw [openWith_stop hfits hnone, isCompleteFrame_header _ rfl rfl rfl]
  exact ⟨_, if_pos rfl⟩

end Onced.Wal
