import Onced.Foundation.Checked
import Onced.Wal.Recovery

/-! # Reading untrusted bytes

The decoder and the replay loop as the source has them, with the panics of its slices,
indexes and unwraps. None is ever reached: on every input they do what the decoder and the
loop without these checks do, and the loop ends.
-/

namespace Onced.Wal

open Foundation

/-! ## Accesses -/

/-- `&buf[start..stop]`. -/
def slice (buf : List UInt8) (start stop : Nat) : Except Panic (List UInt8) :=
  if start ≤ stop ∧ stop ≤ buf.length then .ok ((buf.take stop).drop start)
  else .error "range out of bounds"

/-- `&buf[start..]`. -/
def sliceFrom (buf : List UInt8) (start : Nat) : Except Panic (List UInt8) :=
  slice buf start buf.length

/-- `slice[index]`. -/
def byteAt (bytes : List UInt8) (index : Nat) : Except Panic UInt8 :=
  match bytes[index]? with
  | some byte => .ok byte
  | none => .error "index out of bounds"

/-- `<[u8; N]>::try_from(slice).ok()`. -/
def toArray (width : Nat) (bytes : List UInt8) : Option (List UInt8) :=
  if bytes.length = width then some bytes else none

/-- `Option::unwrap`, `Result::unwrap`. -/
def unwrap {α : Type} : Option α → Except Panic α
  | some value => .ok value
  | none => .error "called unwrap on a missing value"

/-- `usize::checked_add`. -/
def checkedAdd (a b : Nat) : Option Nat := if a + b < 2 ^ 64 then some (a + b) else none

/-! ## The cursor -/

/-- The cursor of the source: nothing says that it is inside of its buffer. -/
structure Cursor where
  buf : List UInt8
  pos : Nat

abbrev CursorM := CheckedReader Cursor Panic

namespace Cursor

def new (buf : List UInt8) : Cursor := ⟨buf, 0⟩

def take (n : Nat) : CursorM (List UInt8) := fun cursor => do
  let stop ← orStop (checkedAdd cursor.pos n)
  let bytes ← orStop (getRange cursor.buf cursor.pos stop)
  return (bytes, { cursor with pos := stop })

def u8 : CursorM UInt8 := do StateT.lift (orPanic (byteAt (← take 1) 0))

/-- A little-endian number of that many bytes. -/
def number (width : Nat) : CursorM Nat := do
  let bytes ← take width
  return ofLeBytes (← StateT.lift (orStop (toArray width bytes)))

def u16 : CursorM UInt16 := do return UInt16.ofNat (← number 2)
def u32 : CursorM UInt32 := do return UInt32.ofNat (← number 4)
def u64 : CursorM UInt64 := do return UInt64.ofNat (← number 8)

def arr32 : CursorM Bytes32 := do StateT.lift (orStop (toBytes32 (← take 32)))

def bytes : CursorM (List UInt8) := do
  let n ← u32
  take n.toNat

def string : CursorM String := do
  StateT.lift (orStop (String.fromUTF8? (← bytes).toByteArray))

def headers : Nat → HeaderMap → CursorM HeaderMap
  | 0, collected => return collected
  | count + 1, collected => do
      let name ← string
      let value ← string
      headers count (collected.insert name value)

def entry : CursorM Entry := do
  let key ← string
  let tag ← u8
  if tag = tagInProgress then
    let fence ← u64
    let fingerprint ← arr32
    let leaseExpiresAtMs ← u64
    return (⟨key⟩, .inProgress ⟨fence⟩ ⟨fingerprint⟩ leaseExpiresAtMs)
  else if tag = tagCompleted then
    let fingerprint ← arr32
    let completedAtMs ← u64
    let status ← u16
    let headerCount ← u32
    let headers ← headers headerCount.toNat ∅
    let body ← bytes
    return (⟨key⟩, .completed ⟨fingerprint⟩ ⟨status, headers, body⟩ completedAtMs)
  else failure

end Cursor

namespace Checked

/-- Decode one record from the front of `buf`. -/
def decodeRecord (buf : List UInt8) : OptionT (Except Panic) Decoded := do
  let header ← orStop (getRange buf 0 headerLen)
  let len := ofLeBytes (← orStop (toArray 4 (← orPanic (slice header 0 4))))
  let crc := UInt32.ofNat (ofLeBytes (← orStop (toArray 4 (← orPanic (slice header 4 8)))))
  let chain ← orStop (toBytes32 (← orPanic (slice header 8 40)))
  let total ← orStop (checkedAdd headerLen len)
  let payload ← orStop (getRange buf headerLen total)
  if crc32 payload ≠ crc then failure
  else
    let (entry, _) ← Cursor.entry.run (Cursor.new payload)
    return ⟨total, entry, chain⟩

/-- Whether `buf` begins with a complete record frame. -/
def isCompleteFrame (buf : List UInt8) : Except Panic Bool :=
  match getRange buf 0 headerLen with
  | none => return false
  | some header => do
      let len := ofLeBytes (← unwrap (toArray 4 (← slice header 0 4)))
      match checkedAdd headerLen len with
      | some total => return total ≤ buf.length
      | none => return false

/-- The replay loop, for so many rounds; nothing if it has not ended by then. -/
def replay : Nat → List UInt8 → Replay → Except Panic (Option (Except InvalidData Replay))
  | 0, _, _ => return none
  | rounds + 1, buf, state => do
      match ← (decodeRecord (← sliceFrom buf state.offset)).run with
      | none => return some (.ok state)
      | some decoded =>
          let crc := UInt32.ofNat (ofLeBytes
            (← unwrap (toArray 4 (← slice buf (state.offset + 4) (state.offset + 8)))))
          let payload ← slice buf (state.offset + headerLen) (state.offset + decoded.consumed)
          let expectedChain := computeChain state.chainRoot crc payload
          let next : Replay := ⟨state.index.insert decoded.entry.1 decoded.entry.2,
            state.offset + decoded.consumed, expectedChain⟩
          if expectedChain ≠ decoded.chain then return some (.error (chainMismatch state.offset))
          else replay rounds buf next

/-- Whether a complete frame is left where decoding stopped. -/
def completeTail (buf : List UInt8) (offset : Nat) : Except Panic Bool := do
  let remaining ← sliceFrom buf offset
  if remaining.isEmpty then return false else isCompleteFrame remaining

/-- Open the log `disk` and replay it, with so many rounds for the loop. -/
def openWith (rounds : Nat) (disk : List UInt8) (syncEach : Bool) :
    Except Panic (Option (Except InvalidData WalStore)) := do
  match ← replay rounds disk ⟨∅, 0, genesis⟩ with
  | none => return none
  | some (.error failure) => return some (.error failure)
  | some (.ok replayed) =>
      if ← completeTail disk replayed.offset then
        return some (.error (interiorCorruption replayed.offset))
      else
        let file := (LogFile.setLen ⟨disk, 0⟩ replayed.offset).seekStart replayed.offset
        return some (.ok ⟨replayed.index, file, [], syncEach, replayed.chainRoot, none⟩)

end Checked

/-! ## No access is out of bounds -/

/-- The cursor of a reader. -/
def Reader.cursor (reader : Reader) : Cursor := ⟨reader.buf, reader.pos⟩

/-- The buffer of a reader is one that a machine can hold. -/
def Reader.Held (reader : Reader) : Prop := reader.buf.length < 2 ^ 64

abbrev ReadsSafely {α : Type} (checked : CursorM α) (plain : ReadM α) : Prop :=
  Safe Reader.cursor Reader.Held checked plain

namespace Cursor

theorem take_safe (n : Nat) : ReadsSafely (take n) (Reader.take n) := by
  intro reader hheld
  have hrun : ((take n).run reader.cursor).run = .ok ((checkedAdd reader.pos n).bind fun stop =>
      (getRange reader.buf reader.pos stop).map fun bytes => (bytes, ⟨reader.buf, stop⟩)) := by
    simp only [take, StateT.run, Reader.cursor]
    cases checkedAdd reader.pos n with
    | none => rfl
    | some stop =>
        rw [orStop_some_bind, Option.bind_some]
        cases getRange reader.buf reader.pos stop <;> rfl
  rw [hrun, checkedAdd]
  simp only [Reader.take, StateT.run]
  by_cases hstop : reader.pos + n ≤ reader.buf.length
  · rw [if_pos (Nat.lt_of_le_of_lt hstop hheld), dif_pos hstop]
    refine ⟨?_, ?_⟩
    · rw [Option.bind_some, getRange, if_pos ⟨Nat.le_add_right _ _, hstop⟩]
      rfl
    · intro result hresult
      cases hresult
      exact hheld
  · rw [dif_neg hstop]
    refine ⟨?_, fun result hresult => ?_⟩
    · split
      · rw [Option.bind_some, getRange_eq_none (Nat.not_le.mp hstop)]
        rfl
      · rfl
    · cases hresult

theorem take_length {n : Nat} {reader : Reader} {result : List UInt8 × Reader}
    (hrun : (Reader.take n).run reader = some result) : result.1.length = n := by
  simp only [Reader.take, StateT.run] at hrun
  split at hrun
  next hstop =>
    cases hrun
    simp only [List.length_drop, List.length_take]
    omega
  next => cases hrun

/-- One byte is taken, so there is one. -/
theorem u8_safe : ReadsSafely u8 Reader.u8 := by
  apply (take_safe 1).bind_where (fun bytes => bytes.length = 1) (fun _ _ hrun => take_length hrun)
  intro bytes hlength
  obtain ⟨byte, rfl⟩ := List.length_eq_one_iff.mp hlength
  exact Safe.pure byte

/-- As many bytes are taken as the number has. -/
theorem number_safe (width : Nat) {α : Type} (convert : Nat → α) :
    ReadsSafely (do return convert (← number width))
      (do return convert (ofLeBytes (← Reader.take width))) := by
  simp only [number, bind_assoc, pure_bind]
  apply (take_safe width).bind_where (fun bytes => bytes.length = width)
    (fun _ _ hrun => take_length hrun)
  intro bytes hlength
  rw [toArray, if_pos hlength]
  exact Safe.pure _

theorem u16_safe : ReadsSafely u16 Reader.u16 := number_safe 2 UInt16.ofNat
theorem u32_safe : ReadsSafely u32 Reader.u32 := number_safe 4 UInt32.ofNat
theorem u64_safe : ReadsSafely u64 Reader.u64 := number_safe 8 UInt64.ofNat
theorem arr32_safe : ReadsSafely arr32 Reader.arr32 := (take_safe 32).bind fun _ => Safe.lift _
theorem bytes_safe : ReadsSafely bytes Reader.bytes := u32_safe.bind fun n => take_safe n.toNat
theorem string_safe : ReadsSafely string Reader.string := bytes_safe.bind fun _ => Safe.lift _

theorem headers_safe (count : Nat) (collected : HeaderMap) :
    ReadsSafely (headers count collected) (Reader.headers count collected) := by
  induction count generalizing collected with
  | zero => exact Safe.pure collected
  | succ count ih => exact string_safe.bind fun name => string_safe.bind fun value => ih _

theorem entry_safe : ReadsSafely entry Reader.entry := by
  refine string_safe.bind fun key => u8_safe.bind fun tag => ?_
  split
  next =>
    refine u64_safe.bind fun fence => arr32_safe.bind fun fingerprint => ?_
    exact u64_safe.bind fun leaseExpiresAtMs => Safe.pure _
  next =>
    split
    next =>
      refine arr32_safe.bind fun fingerprint => u64_safe.bind fun completedAtMs => ?_
      refine u16_safe.bind fun status => u32_safe.bind fun headerCount => ?_
      exact (headers_safe _ _).bind fun headers => bytes_safe.bind fun body => Safe.pure _
    next => exact Safe.failure

end Cursor

theorem slice_eq {buf : List UInt8} {start stop : Nat} (hstart : start ≤ stop)
    (hstop : stop ≤ buf.length) : slice buf start stop = .ok ((buf.take stop).drop start) :=
  if_pos ⟨hstart, hstop⟩

theorem toArray_slice {buf : List UInt8} {start width : Nat} (hstop : start + width ≤ buf.length) :
    toArray width ((buf.take (start + width)).drop start) =
      some ((buf.take (start + width)).drop start) := by
  apply if_pos
  rw [List.length_drop, List.length_take]
  omega

theorem getRange_length {buf bytes : List UInt8} {start stop : Nat}
    (hbytes : getRange buf start stop = some bytes) : bytes.length = stop - start := by
  unfold getRange at hbytes
  split at hbytes
  next hbounds =>
    cases hbytes
    rw [List.length_drop, List.length_take, Nat.min_eq_left hbounds.2]
  next => cases hbytes

section Header

variable {header : List UInt8} (hlength : header.length = headerLen)

include hlength

theorem lengthField_lt : ofLeBytes ((header.take 4).drop 0) < 2 ^ 32 := by
  have hlt := ofLeBytes_lt ((header.take 4).drop 0)
  have hfour : ((header.take 4).drop 0).length = 4 := by
    rw [List.length_drop, List.length_take, hlength]
    rfl
  rwa [hfour] at hlt

/-- The length of a frame does not overflow. -/
theorem checkedAdd_lengthField :
    checkedAdd headerLen (ofLeBytes ((header.take 4).drop 0)) =
      some (headerLen + ofLeBytes ((header.take 4).drop 0)) := by
  have hlt := lengthField_lt hlength
  apply if_pos
  simp only [headerLen]
  omega

/-- Every field of a header is inside of it. -/
theorem slice_header {start stop : Nat} (hstart : start ≤ stop) (hstop : stop ≤ 40) :
    slice header start stop = .ok ((header.take stop).drop start) :=
  slice_eq hstart (hlength ▸ hstop)

theorem toArray_header (start : Nat) (hstop : start + 4 ≤ 40) :
    toArray 4 ((header.take (start + 4)).drop start) =
      some ((header.take (start + 4)).drop start) :=
  toArray_slice (hlength ▸ hstop)

end Header

/-- A record is longer than its header: an empty payload has no key. -/
theorem headerLen_lt_consumed {buf : List UInt8} {decoded : Decoded}
    (hdecoded : decodeRecord buf = some decoded) : headerLen < decoded.consumed := by
  obtain ⟨lenBytes, crcBytes, rest, -, -, -, hconsumed, -, -, hentry⟩ :=
    decodeRecord_eq_some hdecoded
  rw [hconsumed]
  apply Nat.lt_add_of_pos_right
  apply Nat.pos_of_ne_zero
  intro hzero
  rw [hzero] at hentry
  cases hentry

namespace Checked

theorem decodeRecord_safe (buf : List UInt8) :
    (decodeRecord buf).run = .ok (Wal.decodeRecord buf) := by
  unfold decodeRecord Wal.decodeRecord
  cases hheader : getRange buf 0 headerLen with
  | none => rfl
  | some header =>
      have hlength : header.length = headerLen := getRange_length hheader
      rw [orStop_some_bind, slice_header hlength (by decide) (by decide), orPanic_ok_bind,
        toArray_header hlength 0 (by decide), orStop_some_bind,
        slice_header hlength (by decide) (by decide), orPanic_ok_bind,
        toArray_header hlength 4 (by decide), orStop_some_bind,
        slice_header hlength (by decide) (by decide), orPanic_ok_bind,
        checkedAdd_lengthField hlength]
      simp only [Option.bind_eq_bind, Option.bind_some]
      cases toBytes32 ((header.take 40).drop 8) with
      | none => rfl
      | some chain =>
          rw [orStop_some_bind, orStop_some_bind, Option.bind_some]
          cases hpayload : getRange buf headerLen
            (headerLen + ofLeBytes ((header.take 4).drop 0)) with
          | none => rfl
          | some payload =>
              rw [orStop_some_bind, Option.bind_some]
              have hheld : (Reader.new payload).Held := by
                have hlt := lengthField_lt hlength
                have hsize := getRange_length hpayload
                change payload.length < 2 ^ 64
                omega
              have hentry : (Cursor.entry.run (Cursor.new payload)).run =
                  .ok ((Reader.entry.run (Reader.new payload)).map fun result =>
                    (result.1, result.2.cursor)) := (Cursor.entry_safe (Reader.new payload) hheld).1
              split
              · rfl
              · rw [OptionT.run_bind, hentry]
                cases Reader.entry.run (Reader.new payload) <;> rfl

theorem isCompleteFrame_safe (buf : List UInt8) :
    isCompleteFrame buf = .ok (Wal.isCompleteFrame buf) := by
  unfold isCompleteFrame Wal.isCompleteFrame
  cases hheader : getRange buf 0 headerLen with
  | none => rfl
  | some header =>
      have hlength : header.length = headerLen := getRange_length hheader
      have hlen := toArray_header hlength 0 (by decide)
      simp only [slice_header hlength (show 0 ≤ 4 by decide) (show 4 ≤ 40 by decide), bind,
        Except.bind, hlen, unwrap, checkedAdd_lengthField hlength]
      rfl

theorem sliceFrom_eq {buf : List UInt8} {start : Nat} (hstart : start ≤ buf.length) :
    sliceFrom buf start = .ok (buf.drop start) := by
  rw [sliceFrom, slice_eq hstart (le_refl _), List.take_length]

/-- Enough rounds for records of more than a header each end the loop. -/
theorem replay_safe {buf : List UInt8} {state : Replay} (hoffset : state.offset ≤ buf.length)
    {rounds : Nat} (hrounds : (buf.length - state.offset) / (headerLen + 1) < rounds) :
    replay rounds buf state = .ok (some (Wal.replay buf state)) := by
  induction rounds generalizing state with
  | zero => exact absurd hrounds (Nat.not_lt_zero _)
  | succ rounds ih =>
      rw [replay, sliceFrom_eq hoffset]
      simp only [bind, Except.bind, decodeRecord_safe]
      cases hdecoded : Wal.decodeRecord (buf.drop state.offset) with
      | none =>
          rw [replay_stop hdecoded]
          rfl
      | some decoded =>
          have hlong := headerLen_lt_consumed hdecoded
          have hinside := (decodeRecord_consumed hdecoded).2
          simp only [headerLen, List.length_drop] at hlong hinside hrounds
          have hcrc : slice buf (state.offset + 4) (state.offset + 8) =
              .ok ((buf.take (state.offset + 8)).drop (state.offset + 4)) :=
            slice_eq (by omega) (by omega)
          have harray : toArray 4 ((buf.take (state.offset + 8)).drop (state.offset + 4)) =
              some ((buf.take (state.offset + 8)).drop (state.offset + 4)) :=
            toArray_slice (show state.offset + 4 + 4 ≤ buf.length by omega)
          have hpayload : slice buf (state.offset + headerLen) (state.offset + decoded.consumed) =
              .ok ((buf.take (state.offset + decoded.consumed)).drop (state.offset + headerLen)) :=
            slice_eq (by simp only [headerLen]; omega) (by omega)
          rw [replay_turn hdecoded]
          simp only [hcrc, harray, unwrap, hpayload]
          change (if expectedChain buf state decoded ≠ decoded.chain then _ else _) = _
          split
          next => rfl
          next =>
            apply ih
            · change state.offset + decoded.consumed ≤ buf.length
              omega
            · change (buf.length - (state.offset + decoded.consumed)) / 41 < rounds
              omega

theorem completeTail_safe {buf : List UInt8} {offset : Nat} (hoffset : offset ≤ buf.length) :
    completeTail buf offset = .ok (Wal.isCompleteFrame (buf.drop offset)) := by
  rw [completeTail, sliceFrom_eq hoffset]
  change (if (buf.drop offset).isEmpty then pure false else isCompleteFrame (buf.drop offset)) = _
  cases buf.drop offset with
  | nil =>
      have hnone : Wal.isCompleteFrame [] = false := isCompleteFrame_short (by decide)
      rw [hnone]
      rfl
  | cons byte rest => exact isCompleteFrame_safe _

theorem openWith_safe {disk : List UInt8} {rounds : Nat}
    (hrounds : disk.length / (headerLen + 1) < rounds) (syncEach : Bool) :
    openWith rounds disk syncEach = .ok (some (WalStore.openWith disk syncEach)) := by
  rw [openWith, replay_safe (Nat.zero_le _) hrounds, openWith_eq]
  simp only [bind, Except.bind]
  cases hreplay : Wal.replay disk ⟨∅, 0, genesis⟩ with
  | error failure => rfl
  | ok last =>
      have hinside := (replay_offset hreplay (Nat.zero_le _)).2
      simp only [completeTail_safe hinside]
      split <;> rfl

end Checked

/-! ## Locality -/

/-- What follows a record does not matter. -/
theorem decodeRecord_local {buf : List UInt8} {decoded : Decoded}
    (hdecoded : decodeRecord buf = some decoded) (other : List UInt8) :
    decodeRecord (buf.take decoded.consumed ++ other) = some decoded := by
  obtain ⟨lenBytes, crcBytes, rest, hlen, hcrc, rfl, hconsumed, hcomplete, -, -⟩ :=
    decodeRecord_eq_some hdecoded
  have hchain := decoded.chain.toList_length
  have hheader : (lenBytes ++ (crcBytes ++ decoded.chain.toList)).length = headerLen := by
    simp [headerLen, hlen, hcrc]
  have htaken : (lenBytes ++ (crcBytes ++ (decoded.chain.toList ++ rest))).take
      decoded.consumed ++ other = lenBytes ++ (crcBytes ++ (decoded.chain.toList ++
        (rest.take (ofLeBytes lenBytes) ++ other))) := by
    rw [hconsumed, ← hheader]
    simp only [← List.append_assoc, List.take_length_add_append]
  have hlength : (rest.take (ofLeBytes lenBytes)).length = ofLeBytes lenBytes := by
    rw [List.length_take, Nat.min_eq_left hcomplete]
  have hroom : ofLeBytes lenBytes ≤ (rest.take (ofLeBytes lenBytes) ++ other).length := by
    rw [List.length_append, hlength]
    exact Nat.le_add_right _ _
  -- both inputs are read through the header, and the payload is the same
  rw [decodeRecord_header _ hlen hcrc hchain] at hdecoded
  rw [htaken, decodeRecord_header _ hlen hcrc hchain, List.take_left' hlength, ← hdecoded]
  simp only [hcomplete, hroom]

namespace Reader

/-- The header loop with the number of its rounds. -/
def headersCounted : Nat → HeaderMap → Reader → Nat × Option (HeaderMap × Reader)
  | 0, collected, reader => (0, some (collected, reader))
  | count + 1, collected, reader =>
      match string.run reader with
      | none => (1, none)
      | some (name, middle) =>
          match string.run middle with
          | none => (1, none)
          | some (value, next) =>
              let (rounds, result) := headersCounted count (collected.insert name value) next
              (rounds + 1, result)

theorem headersCounted_snd (count : Nat) (collected : HeaderMap) (reader : Reader) :
    (headersCounted count collected reader).2 = (headers count collected).run reader := by
  induction count generalizing collected reader with
  | zero => rfl
  | succ count ih =>
      simp only [headersCounted, headers, StateT.run_bind]
      cases string.run reader with
      | none => rfl
      | some first =>
          simp only [Option.bind_eq_bind, Option.bind_some]
          cases string.run first.2 with
          | none => rfl
          | some second => exact ih _ _

theorem take_spends (n : Nat) : Spends remaining (take n) n := by
  intro reader value next hrun
  simp only [take, StateT.run] at hrun
  split at hrun
  next hstop =>
    cases hrun
    simp only [remaining, List.length_drop]
    omega
  next => cases hrun

/-- A string takes the four bytes of its length at least. -/
theorem string_spends : Spends remaining string 4 := by
  have hlength : Spends remaining u32 4 := (take_spends 4).bind fun _ => Spends.pure _
  have hbytes : Spends remaining bytes 4 :=
    hlength.bind fun n => (take_spends n.toNat).mono (Nat.zero_le _)
  exact hbytes.bind fun _ => Spends.lift _

/-- Each round but the last reads two strings. -/
theorem headersCounted_le (count : Nat) (collected : HeaderMap) (reader : Reader) :
    (headersCounted count collected reader).1 ≤ reader.remaining.length / 8 + 1 := by
  induction count generalizing collected reader with
  | zero => exact Nat.zero_le _
  | succ count ih =>
      unfold headersCounted
      cases hname : string.run reader with
      | none => exact Nat.le_add_left 1 _
      | some first =>
          cases hvalue : string.run first.2 with
          | none =>
              simp only [hvalue]
              exact Nat.le_add_left 1 _
          | some second =>
              have hfirst := string_spends reader first.1 first.2 hname
              have hsecond := string_spends first.2 second.1 second.2 hvalue
              have hrest := ih (collected.insert first.1 second.1) second.2
              simp only [hvalue]
              omega

end Reader

/-- On every input the decoder and the replay loop reach no panic, a record that decodes
lies inside of the input and does not depend on what follows it, the header loop ends with
the payload, and the replay loop ends. -/
theorem untrusted_input_safe (buf : List UInt8) :
    (Checked.decodeRecord buf).run = .ok (decodeRecord buf) ∧
    (∀ decoded, decodeRecord buf = some decoded →
      40 < decoded.consumed ∧ decoded.consumed ≤ buf.length ∧
      ∀ other, decodeRecord (buf.take decoded.consumed ++ other) = some decoded) ∧
    (∀ (reader : Reader) count collected,
      (reader.headersCounted count collected).2 = (Reader.headers count collected).run reader ∧
      (reader.headersCounted count collected).1 ≤ reader.buf.length / 8 + 1) ∧
    ∀ rounds syncEach, buf.length / 41 < rounds →
      Checked.openWith rounds buf syncEach = .ok (some (WalStore.openWith buf syncEach)) := by
  refine ⟨Checked.decodeRecord_safe buf, ?_, ?_, ?_⟩
  · intro decoded hdecoded
    exact ⟨headerLen_lt_consumed hdecoded, (decodeRecord_consumed hdecoded).2,
      decodeRecord_local hdecoded⟩
  · intro reader count collected
    refine ⟨Reader.headersCounted_snd count collected reader, ?_⟩
    refine (Reader.headersCounted_le count collected reader).trans ?_
    apply Nat.add_le_add_right
    apply Nat.div_le_div_right
    rw [Reader.remaining, List.length_drop]
    exact Nat.sub_le _ _
  · intro rounds syncEach hrounds
    exact Checked.openWith_safe hrounds syncEach

theorem untrusted_input_safe_record :
    ∃ decoded, (Checked.decodeRecord (encodeRecord ⟨"k"⟩ (.inProgress ⟨1⟩ ⟨genesis⟩ 5) genesis ++
      [9])).run = .ok (some decoded) ∧ 40 < decoded.consumed := by
  have hdecoded := decodeRecord_encodeRecord_append
    (show Fits (⟨"k"⟩, .inProgress ⟨1⟩ ⟨genesis⟩ 5) by decide +kernel) genesis [9]
  obtain ⟨hchecked, hinside, _⟩ := untrusted_input_safe
    (encodeRecord ⟨"k"⟩ (.inProgress ⟨1⟩ ⟨genesis⟩ 5) genesis ++ [9])
  exact ⟨_, hchecked.trans (congrArg Except.ok hdecoded), (hinside _ hdecoded).1⟩

end Onced.Wal
