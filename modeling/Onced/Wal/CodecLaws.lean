import Onced.Foundation.Consume
import Onced.Foundation.Enumeration
import Onced.Wal.Codec

/-! # The codec reads back what it wrote

Each reader consumes exactly the bytes its writer appended, so a record whose
payload fits in 32 bits of length decodes to itself in front of any following
bytes. A strict byte prefix of a frame is neither decoded nor taken for a
complete frame; this is what lets replay tell a torn tail from a record.
-/

namespace Onced.Wal

open Foundation

/-! ## Fields -/

/-- The bytes of a length-prefixed string of bytes. -/
def bytesField (bytes : List UInt8) : List UInt8 :=
  leBytes 4 (UInt32.ofNat bytes.length).toNat ++ bytes

theorem putBytes_eq (buf bytes : List UInt8) : putBytes buf bytes = buf ++ bytesField bytes := by
  simp [putBytes, putU32, bytesField]

theorem putStr_eq (buf : List UInt8) (s : String) : putStr buf s = buf ++ bytesField (utf8 s) :=
  putBytes_eq _ _

/-- The bytes of a header list. -/
def headersField (headers : List (String × String)) : List UInt8 :=
  headers.flatMap fun header => bytesField (utf8 header.1) ++ bytesField (utf8 header.2)

theorem putHeaders_eq (buf : List UInt8) (headers : List (String × String)) :
    putHeaders buf headers = buf ++ headersField headers := by
  unfold putHeaders headersField
  induction headers generalizing buf with
  | nil => simp
  | cons header headers ih =>
      rw [List.foldl_cons, ih]
      simp only [putStr_eq, List.flatMap_cons, List.append_assoc]

/-- The payload after its key: the tag and the fields of the state. -/
def stateField : KeyState → List UInt8
  | .inProgress fence fingerprint leaseExpiresAtMs =>
      [tagInProgress] ++ (leBytes 8 fence.val.toNat ++
        (fingerprint.bytes.toList ++ leBytes 8 leaseExpiresAtMs.toNat))
  | .completed fingerprint outcome completedAtMs =>
      [tagCompleted] ++ (fingerprint.bytes.toList ++ (leBytes 8 completedAtMs.toNat ++
        (leBytes 2 outcome.status.toNat ++
          (leBytes 4 (UInt32.ofNat outcome.headers.size).toNat ++
            (headersField outcome.headers.toList ++ bytesField outcome.body)))))

theorem encodePayload_eq (key : IdempotencyKey) (state : KeyState) :
    encodePayload key state = bytesField (utf8 key.val) ++ stateField state := by
  cases state with
  | inProgress fence fingerprint leaseExpiresAtMs =>
      simp [encodePayload, stateField, putStr_eq, putU64]
  | completed fingerprint outcome completedAtMs =>
      simp [encodePayload, stateField, putStr_eq, putU64, putU16, putU32, putHeaders_eq,
        putBytes_eq]

theorem encodeRecord_eq (key : IdempotencyKey) (state : KeyState) (prevChain : Bytes32) :
    encodeRecord key state prevChain =
      leBytes 4 (UInt32.ofNat (encodePayload key state).length).toNat ++
        (leBytes 4 (crc32 (encodePayload key state)).toNat ++
          ((computeChain prevChain (crc32 (encodePayload key state))
            (encodePayload key state)).toList ++ encodePayload key state)) := by
  simp [encodeRecord, putU32]

/-! ## Readers consume their fields -/

namespace Reader

theorem take_consumes (input : List UInt8) :
    Consumes remaining (take input.length) input input := by
  intro reader rest hreader
  have hlength : reader.buf.length - reader.pos = input.length + rest.length := by
    have := congrArg List.length hreader
    simpa [remaining] using this
  have hpos := reader.pos_le
  have hstop : reader.pos + input.length ≤ reader.buf.length := by omega
  refine ⟨⟨reader.buf, reader.pos + input.length, hstop⟩, ?_, ?_⟩
  · have hslice : (reader.buf.take (reader.pos + input.length)).drop reader.pos = input := by
      rw [List.drop_take, Nat.add_sub_cancel_left]
      change (reader.remaining).take input.length = input
      rw [hreader, List.take_left']
      rfl
    simp [take, StateT.run, hstop, hslice]
  · change reader.buf.drop (reader.pos + input.length) = rest
    rw [← List.drop_drop]
    change reader.remaining.drop input.length = rest
    rw [hreader, List.drop_left']
    rfl

theorem take_consumes_of_length {input : List UInt8} {n : Nat} (hlength : input.length = n) :
    Consumes remaining (take n) input input := by
  subst n
  exact take_consumes input

theorem u8_consumes (byte : UInt8) : Consumes remaining u8 [byte] byte :=
  (take_consumes_of_length rfl).bind_pure (fun bytes => bytes[0]!)

theorem u16_consumes (x : UInt16) : Consumes remaining u16 (leBytes 2 x.toNat) x := by
  have hread := (take_consumes_of_length (leBytes_length 2 x.toNat)).bind_pure
    (fun bytes => UInt16.ofNat (ofLeBytes bytes))
  have hvalue : x.toNat % 256 ^ 2 = x.toNat := Nat.mod_eq_of_lt x.toNat_lt
  rwa [ofLeBytes_leBytes, hvalue, UInt16.ofNat_toNat] at hread

theorem u32_consumes (x : UInt32) : Consumes remaining u32 (leBytes 4 x.toNat) x := by
  have hread := (take_consumes_of_length (leBytes_length 4 x.toNat)).bind_pure
    (fun bytes => UInt32.ofNat (ofLeBytes bytes))
  have hvalue : x.toNat % 256 ^ 4 = x.toNat := Nat.mod_eq_of_lt x.toNat_lt
  rwa [ofLeBytes_leBytes, hvalue, UInt32.ofNat_toNat] at hread

theorem u64_consumes (x : UInt64) : Consumes remaining u64 (leBytes 8 x.toNat) x := by
  have hread := (take_consumes_of_length (leBytes_length 8 x.toNat)).bind_pure
    (fun bytes => UInt64.ofNat (ofLeBytes bytes))
  have hvalue : x.toNat % 256 ^ 8 = x.toNat := Nat.mod_eq_of_lt x.toNat_lt
  rwa [ofLeBytes_leBytes, hvalue, UInt64.ofNat_toNat] at hread

theorem arr32_consumes (x : Bytes32) : Consumes remaining arr32 x.toList x := by
  apply (take_consumes_of_length x.toList_length).bind_lift
  simp [toBytes32]

theorem bytes_consumes {input : List UInt8} (hlength : input.length < 2 ^ 32) :
    Consumes remaining bytes (bytesField input) input := by
  apply (u32_consumes (UInt32.ofNat input.length)).bind
  apply take_consumes_of_length
  rw [UInt32.toNat_ofNat_of_lt' hlength]

theorem string_consumes {s : String} (hlength : (utf8 s).length < 2 ^ 32) :
    Consumes remaining string (bytesField (utf8 s)) s := by
  apply (bytes_consumes hlength).bind_lift
  have hbytes : (utf8 s).toByteArray = s.toByteArray := by
    apply ByteArray.ext
    simp [utf8]
  rw [hbytes, String.fromUTF8?, dif_pos s.isValidUTF8]
  rfl

/-- Every name and value of a header list is short enough for its length field. -/
def HeadersFit (headers : List (String × String)) : Prop :=
  ∀ header ∈ headers, (utf8 header.1).length < 2 ^ 32 ∧ (utf8 header.2).length < 2 ^ 32

theorem headers_consumes {entries : List (String × String)} (hfit : HeadersFit entries)
    (collected : HeaderMap) :
    Consumes remaining (headers entries.length collected) (headersField entries)
      (insertAll entries collected) := by
  induction entries generalizing collected with
  | nil => exact Consumes.pure collected
  | cons header entries ih =>
      have hheader := hfit header List.mem_cons_self
      have htail : HeadersFit entries := fun other hother =>
        hfit other (List.mem_cons_of_mem _ hother)
      have hloop := ih htail (collected.insert header.1 header.2)
      have hrest : Consumes remaining
          (string >>= fun value => headers entries.length (collected.insert header.1 value))
          (bytesField (utf8 header.2) ++ headersField entries)
          (insertAll entries (collected.insert header.1 header.2)) :=
        (string_consumes hheader.2).bind hloop
      rw [insertAll_cons, headersField, List.flatMap_cons, List.append_assoc]
      exact (string_consumes hheader.1).bind hrest

/-- The strings of an entry are short enough for their length fields. -/
def EntryFits : Entry → Prop
  | (key, .inProgress ..) => (utf8 key.val).length < 2 ^ 32
  | (key, .completed _ outcome _) => (utf8 key.val).length < 2 ^ 32 ∧
      outcome.headers.size < 2 ^ 32 ∧ HeadersFit outcome.headers.toList ∧
      outcome.body.length < 2 ^ 32

theorem entry_consumes {key : IdempotencyKey} {state : KeyState}
    (hfits : EntryFits (key, state)) :
    Consumes remaining entry (encodePayload key state) (key, state) := by
  rw [encodePayload_eq]
  cases state with
  | inProgress fence fingerprint leaseExpiresAtMs =>
      refine (string_consumes hfits).bind ((u8_consumes tagInProgress).bind ?_)
      rw [if_pos rfl]
      refine (u64_consumes fence.val).bind ((arr32_consumes fingerprint.bytes).bind ?_)
      exact (u64_consumes leaseExpiresAtMs).bind_pure _
  | completed fingerprint outcome completedAtMs =>
      obtain ⟨hkey, hsize, hheaders, hbody⟩ := hfits
      refine (string_consumes hkey).bind ((u8_consumes tagCompleted).bind ?_)
      rw [if_neg (by decide), if_pos rfl]
      refine (arr32_consumes fingerprint.bytes).bind ((u64_consumes completedAtMs).bind ?_)
      refine (u16_consumes outcome.status).bind ((u32_consumes _).bind ?_)
      have hcount : (UInt32.ofNat outcome.headers.size).toNat =
          outcome.headers.toList.length := by
        rw [UInt32.toNat_ofNat_of_lt' hsize, Std.ExtTreeMap.length_toList]
      have hread := headers_consumes hheaders ∅
      rw [insertAll_of_perm (List.Perm.refl _), ← hcount] at hread
      exact hread.bind ((bytes_consumes hbody).bind_pure _)

/-! ### Readers look no further than they read -/

theorem take_local (n : Nat) : Local remaining (take n) := by
  intro reader value next hrun
  simp only [take, StateT.run] at hrun
  split at hrun
  next hstop =>
    cases hrun
    refine ⟨_, ?_, take_consumes_of_length ?_⟩
    · rw [remaining, remaining, ← List.drop_drop, List.drop_take, Nat.add_sub_cancel_left,
        List.take_append_drop]
    · rw [List.length_drop, List.length_take, Nat.min_eq_left hstop, Nat.add_sub_cancel_left]
  next => cases hrun

theorem u8_local : Local remaining u8 := (take_local 1).bind fun _ => Local.pure _
theorem u16_local : Local remaining u16 := (take_local 2).bind fun _ => Local.pure _
theorem u32_local : Local remaining u32 := (take_local 4).bind fun _ => Local.pure _
theorem u64_local : Local remaining u64 := (take_local 8).bind fun _ => Local.pure _
theorem arr32_local : Local remaining arr32 := (take_local 32).bind fun _ => Local.lift _
theorem bytes_local : Local remaining bytes := u32_local.bind fun n => take_local n.toNat
theorem string_local : Local remaining string := bytes_local.bind fun _ => Local.lift _

theorem headers_local (count : Nat) (collected : HeaderMap) :
    Local remaining (headers count collected) := by
  induction count generalizing collected with
  | zero => exact Local.pure collected
  | succ count ih => exact string_local.bind fun name => string_local.bind fun value => ih _

theorem entry_local : Local remaining entry := by
  refine string_local.bind fun key => u8_local.bind fun tag => ?_
  split
  next =>
    refine u64_local.bind fun fence => arr32_local.bind fun fingerprint => ?_
    exact u64_local.bind fun leaseExpiresAtMs => Local.pure _
  next =>
    split
    next =>
      refine arr32_local.bind fun fingerprint => u64_local.bind fun completedAtMs => ?_
      refine u16_local.bind fun status => u32_local.bind fun headerCount => ?_
      exact (headers_local _ _).bind fun headers => bytes_local.bind fun body => Local.pure _
    next => exact Local.failure

/-- No strict first part of a payload is read as an entry. -/
theorem entry_rejects_strict {key : IdempotencyKey} {state : KeyState}
    (hfits : EntryFits (key, state)) {torn : List UInt8} (hcut : torn <+: encodePayload key state)
    (hstrict : torn ≠ encodePayload key state) : entry.run (new torn) = none := by
  have hwhole : remaining (new (encodePayload key state)) = encodePayload key state := rfl
  have hpart : remaining (new torn) <+: encodePayload key state := hcut
  exact entry_local.rejects_strict (entry_consumes hfits) hwhole hpart hstrict

end Reader

/-! ## Frames -/

/-- A record whose payload length is representable in its length field. -/
def Fits (entry : Entry) : Prop := (encodePayload entry.1 entry.2).length < 2 ^ 32

instance (entry : Entry) : Decidable (Fits entry) :=
  inferInstanceAs (Decidable (_ < _))

theorem headersField_length_le (entries : List (String × String)) :
    8 * entries.length ≤ (headersField entries).length := by
  induction entries with
  | nil => simp
  | cons header entries ih =>
      simp only [headersField, List.flatMap_cons, List.length_append, bytesField,
        leBytes_length, List.length_cons] at ih ⊢
      omega

theorem headersFit_of_length {entries : List (String × String)}
    (hlength : (headersField entries).length < 2 ^ 32) : Reader.HeadersFit entries := by
  induction entries with
  | nil => intro header hheader; simp at hheader
  | cons header entries ih =>
      simp only [headersField, List.flatMap_cons, List.length_append, bytesField,
        leBytes_length] at ih hlength
      have htail := ih (by omega)
      intro other hother
      rcases List.mem_cons.mp hother with rfl | hother
      · exact ⟨by omega, by omega⟩
      · exact htail other hother

theorem Fits.entryFits {entry : Entry} (hfits : Fits entry) : Reader.EntryFits entry := by
  obtain ⟨key, state⟩ := entry
  unfold Fits at hfits
  rw [encodePayload_eq] at hfits
  cases state with
  | inProgress fence fingerprint leaseExpiresAtMs =>
      simp only [bytesField, List.length_append] at hfits
      change (utf8 key.val).length < 2 ^ 32
      omega
  | completed fingerprint outcome completedAtMs =>
      simp only [stateField, List.length_append, leBytes_length] at hfits
      have hcount := headersField_length_le outcome.headers.toList
      rw [Std.ExtTreeMap.length_toList] at hcount
      simp only [bytesField, List.length_append] at hfits
      refine ⟨by omega, by omega, headersFit_of_length (by omega), by omega⟩

theorem slice_append (before middle after : List UInt8) {start stop : Nat}
    (hstart : before.length = start) (hstop : start + middle.length = stop) :
    ((before ++ (middle ++ after)).take stop).drop start = middle := by
  subst hstart hstop
  rw [List.drop_take, List.drop_left, Nat.add_sub_cancel_left, List.take_left]

theorem getRange_append (before middle after : List UInt8) {start stop : Nat}
    (hstart : before.length = start) (hstop : start + middle.length = stop) :
    getRange (before ++ (middle ++ after)) start stop = some middle := by
  have hbound : start ≤ stop ∧ stop ≤ (before ++ (middle ++ after)).length := by
    simp only [List.length_append]
    omega
  rw [getRange, if_pos hbound, slice_append before middle after hstart hstop]

theorem getRange_eq_none {buf : List UInt8} {start stop : Nat} (hstop : buf.length < stop) :
    getRange buf start stop = none := by
  rw [getRange, if_neg (by omega)]

/-- What the replay loop hashes for the frame at the front of `buf`. -/
def frameInput (prevChain : Bytes32) (buf : List UInt8) : List UInt8 :=
  chainInput prevChain (UInt32.ofNat (ofLeBytes ((buf.take 8).drop 4)))
    ((buf.take (headerLen + ofLeBytes (buf.take 4))).drop headerLen)

section Header

variable {lenBytes crcBytes chainBytes : List UInt8} (rest : List UInt8)
variable (hlen : lenBytes.length = 4) (hcrc : crcBytes.length = 4)
variable (hchain : chainBytes.length = 32)

include hlen hcrc hchain

theorem getRange_header :
    getRange (lenBytes ++ (crcBytes ++ (chainBytes ++ rest))) 0 headerLen =
      some (lenBytes ++ (crcBytes ++ chainBytes)) := by
  have hstop : 0 + (lenBytes ++ (crcBytes ++ chainBytes)).length = headerLen := by
    simp [headerLen, hlen, hcrc, hchain]
  have hslice := getRange_append [] (lenBytes ++ (crcBytes ++ chainBytes)) rest rfl hstop
  simpa using hslice

theorem getRange_payload (len : Nat) :
    getRange (lenBytes ++ (crcBytes ++ (chainBytes ++ rest))) headerLen (headerLen + len) =
      if len ≤ rest.length then some (rest.take len) else none := by
  have hsplit : lenBytes ++ (crcBytes ++ (chainBytes ++ rest)) =
      (lenBytes ++ (crcBytes ++ chainBytes)) ++ (rest.take len ++ rest.drop len) := by simp
  have hstart : (lenBytes ++ (crcBytes ++ chainBytes)).length = headerLen := by
    simp [headerLen, hlen, hcrc, hchain]
  split
  next hfits =>
    rw [hsplit]
    apply getRange_append _ _ _ hstart
    rw [List.length_take, Nat.min_eq_left hfits]
  next hshort =>
    apply getRange_eq_none
    rw [hsplit, List.length_append, hstart, List.take_append_drop]
    omega

/-- What the decoder makes of a buffer that holds at least a header. -/
theorem decodeRecord_header :
    decodeRecord (lenBytes ++ (crcBytes ++ (chainBytes ++ rest))) =
      if ofLeBytes lenBytes ≤ rest.length ∧
          crc32 (rest.take (ofLeBytes lenBytes)) = UInt32.ofNat (ofLeBytes crcBytes) then
        (Reader.entry.run (Reader.new (rest.take (ofLeBytes lenBytes)))).map fun result =>
          ⟨headerLen + ofLeBytes lenBytes, result.1, ⟨chainBytes, hchain⟩⟩
      else none := by
  have hlenField : ((lenBytes ++ (crcBytes ++ chainBytes)).take 4).drop 0 = lenBytes :=
    slice_append [] lenBytes _ rfl (by omega)
  have hcrcField : ((lenBytes ++ (crcBytes ++ chainBytes)).take 8).drop 4 = crcBytes :=
    slice_append lenBytes crcBytes _ hlen (by omega)
  have hchainField : ((lenBytes ++ (crcBytes ++ chainBytes)).take 40).drop 8 = chainBytes := by
    have hslice : (((lenBytes ++ crcBytes) ++ (chainBytes ++ [])).take 40).drop 8 = chainBytes :=
      slice_append _ _ _ (by simp [hlen, hcrc]) (by omega)
    simpa using hslice
  unfold decodeRecord
  rw [getRange_header rest hlen hcrc hchain]
  simp only [Option.bind_eq_bind, Option.bind_some, hlenField, hcrcField, hchainField, toBytes32,
    dif_pos hchain, getRange_payload rest hlen hcrc hchain]
  by_cases hfits : ofLeBytes lenBytes ≤ rest.length
  · by_cases hsum : crc32 (rest.take (ofLeBytes lenBytes)) = UInt32.ofNat (ofLeBytes crcBytes)
    · simp only [hfits, hsum, if_true, and_self, Option.bind_some, ne_eq, not_true, if_false]
      cases Reader.entry.run (Reader.new (rest.take (ofLeBytes lenBytes))) <;> rfl
    · simp [hfits, hsum]
  · simp [hfits]

theorem isCompleteFrame_header :
    isCompleteFrame (lenBytes ++ (crcBytes ++ (chainBytes ++ rest))) =
      decide (ofLeBytes lenBytes ≤ rest.length) := by
  have hlenField : ((lenBytes ++ (crcBytes ++ chainBytes)).take 4).drop 0 = lenBytes :=
    slice_append [] lenBytes _ rfl (by omega)
  unfold isCompleteFrame
  rw [getRange_header rest hlen hcrc hchain]
  simp only [hlenField, List.length_append, headerLen, hlen, hcrc, hchain]
  apply decide_eq_decide.mpr
  omega

theorem frameInput_header (prevChain : Bytes32) :
    frameInput prevChain (lenBytes ++ (crcBytes ++ (chainBytes ++ rest))) =
      chainInput prevChain (UInt32.ofNat (ofLeBytes crcBytes))
        (rest.take (ofLeBytes lenBytes)) := by
  have hcrcField : ((lenBytes ++ (crcBytes ++ (chainBytes ++ rest))).take 8).drop 4 = crcBytes :=
    slice_append lenBytes crcBytes _ hlen (by omega)
  have hlenField : (lenBytes ++ (crcBytes ++ (chainBytes ++ rest))).take 4 = lenBytes :=
    List.take_left' hlen
  have hheader : (lenBytes ++ (crcBytes ++ chainBytes)).length = headerLen := by
    simp [headerLen, hlen, hcrc, hchain]
  have hpayload : ((lenBytes ++ (crcBytes ++ (chainBytes ++ rest))).take
      (headerLen + ofLeBytes lenBytes)).drop headerLen = rest.take (ofLeBytes lenBytes) := by
    rw [← hheader, List.drop_take, Nat.add_sub_cancel_left]
    simp only [← List.append_assoc, List.drop_left]
  rw [frameInput, hcrcField, hlenField, hpayload]

end Header

theorem decodeRecord_short {buf : List UInt8} (hshort : buf.length < headerLen) :
    decodeRecord buf = none := by
  simp [decodeRecord, getRange_eq_none hshort]

theorem isCompleteFrame_short {buf : List UInt8} (hshort : buf.length < headerLen) :
    isCompleteFrame buf = false := by
  simp [isCompleteFrame, getRange_eq_none hshort]

/-- A buffer of at least a header splits into its header fields and the rest. -/
theorem exists_header {buf : List UInt8} (hlength : headerLen ≤ buf.length) :
    ∃ lenBytes crcBytes chainBytes rest, lenBytes.length = 4 ∧ crcBytes.length = 4 ∧
      chainBytes.length = 32 ∧ buf = lenBytes ++ (crcBytes ++ (chainBytes ++ rest)) := by
  simp only [headerLen] at hlength
  refine ⟨buf.take 4, (buf.drop 4).take 4, (buf.drop 8).take 32, buf.drop 40, ?_, ?_, ?_, ?_⟩
  · simp; omega
  · simp; omega
  · simp; omega
  · have h8 : buf.drop 8 = (buf.drop 4).drop 4 := by simp
    have h40 : buf.drop 40 = (buf.drop 8).drop 32 := by simp
    rw [h40, List.take_append_drop, h8, List.take_append_drop, List.take_append_drop]

/-- A buffer shorter than its length field promises is neither decoded nor taken
for a complete frame. -/
theorem incomplete_of_length {buf : List UInt8}
    (hlength : buf.length < headerLen + ofLeBytes (buf.take 4)) :
    decodeRecord buf = none ∧ isCompleteFrame buf = false := by
  rcases Nat.lt_or_ge buf.length headerLen with hshort | hlong
  · exact ⟨decodeRecord_short hshort, isCompleteFrame_short hshort⟩
  obtain ⟨lenBytes, crcBytes, chainBytes, rest, hlen, hcrc, hchain, rfl⟩ := exists_header hlong
  rw [List.take_left' hlen] at hlength
  simp only [List.length_append, headerLen, hlen, hcrc, hchain] at hlength
  have hincomplete : ¬ ofLeBytes lenBytes ≤ rest.length := by omega
  rw [decodeRecord_header _ hlen hcrc hchain, isCompleteFrame_header _ hlen hcrc hchain]
  simp [hincomplete]

/-! ## Records -/

/-- The chain value a record carries when it follows `prevChain`. -/
def recordChain (prevChain : Bytes32) (entry : Entry) : Bytes32 :=
  computeChain prevChain (crc32 (encodePayload entry.1 entry.2)) (encodePayload entry.1 entry.2)

theorem encodeRecord_length (key : IdempotencyKey) (state : KeyState) (prevChain : Bytes32) :
    (encodeRecord key state prevChain).length = headerLen + (encodePayload key state).length := by
  simp only [encodeRecord_eq, List.length_append, leBytes_length, List.Vector.toList_length,
    headerLen]
  omega

/-- The chain bytes the store extracts from the record it just encoded. -/
theorem encodeRecord_chain (key : IdempotencyKey) (state : KeyState) (prevChain : Bytes32) :
    toBytes32 (((encodeRecord key state prevChain).take 40).drop 8) =
      some (recordChain prevChain (key, state)) := by
  rw [encodeRecord_eq, ← List.append_assoc, slice_append _ _ _ (by simp) (by simp)]
  simp [toBytes32, recordChain]

theorem ofLeBytes_length_field {payload : List UInt8} (hfits : payload.length < 2 ^ 32) :
    ofLeBytes (leBytes 4 (UInt32.ofNat payload.length).toNat) = payload.length := by
  rw [ofLeBytes_leBytes, UInt32.toNat_ofNat_of_lt' hfits]
  exact Nat.mod_eq_of_lt hfits

theorem ofLeBytes_crc_field (crc : UInt32) :
    UInt32.ofNat (ofLeBytes (leBytes 4 crc.toNat)) = crc := by
  have hvalue : crc.toNat % 256 ^ 4 = crc.toNat := Nat.mod_eq_of_lt crc.toNat_lt
  rw [ofLeBytes_leBytes, hvalue, UInt32.ofNat_toNat]

/-- The fields of a record in front of any following bytes. -/
theorem encodeRecord_append (entry : Entry) (chain : Bytes32) (after : List UInt8) :
    encodeRecord entry.1 entry.2 chain ++ after =
      leBytes 4 (UInt32.ofNat (encodePayload entry.1 entry.2).length).toNat ++
        (leBytes 4 (crc32 (encodePayload entry.1 entry.2)).toNat ++
          ((recordChain chain entry).toList ++ (encodePayload entry.1 entry.2 ++ after))) := by
  simp only [encodeRecord_eq, recordChain, List.append_assoc]

theorem frameInput_record {entry : Entry} (hfits : Fits entry) (chain : Bytes32)
    (after : List UInt8) :
    frameInput chain (encodeRecord entry.1 entry.2 chain ++ after) =
      chainInput chain (crc32 (encodePayload entry.1 entry.2)) (encodePayload entry.1 entry.2) := by
  rw [encodeRecord_append, frameInput_header _ (leBytes_length _ _) (leBytes_length _ _)
    (List.Vector.toList_length _), ofLeBytes_length_field hfits, ofLeBytes_crc_field,
    List.take_left' rfl]

/-- A record decodes to itself in front of any following bytes. -/
theorem decodeRecord_encodeRecord_append {key : IdempotencyKey} {state : KeyState}
    (hfits : Fits (key, state)) (prevChain : Bytes32) (rest : List UInt8) :
    decodeRecord (encodeRecord key state prevChain ++ rest) =
      some ⟨(encodeRecord key state prevChain).length, (key, state),
        recordChain prevChain (key, state)⟩ := by
  obtain ⟨next, hrun, -⟩ := Reader.entry_consumes hfits.entryFits
    (Reader.new (encodePayload key state)) [] (by simp [Reader.new, Reader.remaining])
  have hlen := ofLeBytes_length_field hfits
  have hfields := encodeRecord_append (key, state) prevChain rest
  rw [encodeRecord_length, hfields, decodeRecord_header _ (leBytes_length _ _) (leBytes_length _ _)
    (List.Vector.toList_length _), hlen, ofLeBytes_crc_field, List.take_left' rfl,
    if_pos (by simp), hrun]
  rfl

/-- No strict prefix of a record is decoded or taken for a complete frame. -/
theorem strictPrefix_incomplete {key : IdempotencyKey} {state : KeyState}
    (hfits : Fits (key, state)) (prevChain : Bytes32) {torn : List UInt8}
    (htorn : torn <+: encodeRecord key state prevChain)
    (hstrict : torn ≠ encodeRecord key state prevChain) :
    decodeRecord torn = none ∧ isCompleteFrame torn = false := by
  rcases Nat.lt_or_ge torn.length headerLen with hshort | hlong
  · exact ⟨decodeRecord_short hshort, isCompleteFrame_short hshort⟩
  apply incomplete_of_length
  -- the length field is intact, so it promises more payload than there is
  have hfour : 4 ≤ torn.length := le_trans (by simp [headerLen]) hlong
  have hfield : torn.take 4 = leBytes 4 (UInt32.ofNat (encodePayload key state).length).toNat := by
    rw [List.prefix_iff_eq_take.mp htorn, List.take_take, Nat.min_eq_left hfour, encodeRecord_eq,
      List.take_left' (leBytes_length _ _)]
  rw [hfield, ofLeBytes_length_field hfits, ← encodeRecord_length key state prevChain]
  have hle := htorn.length_le
  have hne : torn.length ≠ (encodeRecord key state prevChain).length := fun hsame =>
    hstrict (htorn.eq_of_length hsame)
  omega

/-- In front of any following bytes a record decodes to its length, its entry and
its chain value; cut short anywhere it is neither decoded nor taken for a frame. -/
theorem record_round_trip (key : IdempotencyKey) (state : KeyState)
    (hfits : (encodePayload key state).length < 2 ^ 32) (prevChain : Bytes32)
    (rest : List UInt8) :
    decodeRecord (encodeRecord key state prevChain ++ rest) =
        some ⟨(encodeRecord key state prevChain).length, (key, state),
          sha256 (prevChain.toList ++ leBytes 4 (crc32 (encodePayload key state)).toNat ++
            encodePayload key state)⟩ ∧
      ∀ torn, torn <+: encodeRecord key state prevChain →
        torn ≠ encodeRecord key state prevChain →
        decodeRecord torn = none ∧ isCompleteFrame torn = false := by
  constructor
  · have hdecoded := decodeRecord_encodeRecord_append hfits prevChain rest
    rwa [recordChain, computeChain, chainInput] at hdecoded
  · intro torn hcut hstrict
    exact strictPrefix_incomplete hfits prevChain hcut hstrict

/-- A completed record with a header and a body, followed by one more byte. -/
theorem record_round_trip_completed :
    (decodeRecord (encodeRecord ⟨"k"⟩ (.completed ⟨genesis⟩ ⟨201, {("a", "b")}, [7]⟩ 5) genesis ++
      [9])).map Decoded.entry = some (⟨"k"⟩, .completed ⟨genesis⟩ ⟨201, {("a", "b")}, [7]⟩ 5) := by
  rw [(record_round_trip ⟨"k"⟩ (.completed ⟨genesis⟩ ⟨201, {("a", "b")}, [7]⟩ 5) (by decide +kernel)
    genesis [9]).1]
  rfl

/-- What decodes is a complete frame whose checksum matches and whose payload is an entry. -/
theorem decodeRecord_eq_some {buf : List UInt8} {decoded : Decoded}
    (hdecoded : decodeRecord buf = some decoded) :
    ∃ lenBytes crcBytes rest, lenBytes.length = 4 ∧ crcBytes.length = 4 ∧
      buf = lenBytes ++ (crcBytes ++ (decoded.chain.toList ++ rest)) ∧
      decoded.consumed = headerLen + ofLeBytes lenBytes ∧ ofLeBytes lenBytes ≤ rest.length ∧
      crc32 (rest.take (ofLeBytes lenBytes)) = UInt32.ofNat (ofLeBytes crcBytes) ∧
      (Reader.entry.run (Reader.new (rest.take (ofLeBytes lenBytes)))).map Prod.fst =
        some decoded.entry := by
  rcases Nat.lt_or_ge buf.length headerLen with hshort | hlong
  · rw [decodeRecord_short hshort] at hdecoded
    contradiction
  obtain ⟨lenBytes, crcBytes, chainBytes, rest, hlen, hcrc, hchain, rfl⟩ := exists_header hlong
  rw [decodeRecord_header _ hlen hcrc hchain] at hdecoded
  split at hdecoded
  next hframe =>
    obtain ⟨result, hentry, rfl⟩ := Option.map_eq_some_iff.mp hdecoded
    exact ⟨lenBytes, crcBytes, rest, hlen, hcrc, rfl, rfl, hframe.1, hframe.2,
      Option.map_eq_some_iff.mpr ⟨result, hentry, rfl⟩⟩
  next => contradiction

/-- Decoding makes progress and stays inside the buffer. -/
theorem decodeRecord_consumed {buf : List UInt8} {decoded : Decoded}
    (hdecoded : decodeRecord buf = some decoded) :
    headerLen ≤ decoded.consumed ∧ decoded.consumed ≤ buf.length := by
  obtain ⟨lenBytes, crcBytes, rest, hlen, hcrc, rfl, hconsumed, hcomplete, -⟩ :=
    decodeRecord_eq_some hdecoded
  simp only [List.length_append, List.Vector.toList_length, headerLen, hlen, hcrc] at hconsumed ⊢
  omega

end Onced.Wal
