import Onced.Core.Hash

/-! # The on-disk record codec

One record is framed as `[payload_len: u32][crc32: u32][chain: 32][payload]`.
The encoder appends fields to a growing buffer; the decoder reads them through
a bounds-checked cursor that fails past the end. Decoding parses untrusted
bytes and does not verify the chain, which the replay loop accumulates itself.
-/

namespace Onced.Wal

open Foundation

def tagInProgress : UInt8 := 0
def tagCompleted : UInt8 := 1

/-- The chain value before the very first record. -/
def genesis : Bytes32 := List.Vector.replicate 32 0

/-- Bytes in the record header: length, checksum and chain. -/
def headerLen : Nat := 4 + 4 + 32

/-- One bit of the reflected CRC-32 loop. -/
def crcBit (crc : UInt32) : UInt32 :=
  let mask := 0 - (crc &&& 1)
  (crc >>> 1) ^^^ (0xEDB88320 &&& mask)

/-- Absorb one byte: eight bit steps after xoring it in. -/
def crcByte (crc : UInt32) (byte : UInt8) : UInt32 :=
  Nat.repeat crcBit 8 (crc ^^^ byte.toUInt32)

/-- CRC32 (IEEE 802.3, reflected). -/
def crc32 (data : List UInt8) : UInt32 := ~~~(data.foldl crcByte 0xFFFFFFFF)

/-- The bytes hashed for one record: previous chain, checksum and payload. -/
def chainInput (prevChain : Bytes32) (crc : UInt32) (payload : List UInt8) : List UInt8 :=
  prevChain.toList ++ leBytes 4 crc.toNat ++ payload

def computeChain (prevChain : Bytes32) (crc : UInt32) (payload : List UInt8) : Bytes32 :=
  sha256 (chainInput prevChain crc payload)

/-! ## Writing -/

def putU16 (buf : List UInt8) (x : UInt16) : List UInt8 := buf ++ leBytes 2 x.toNat
def putU32 (buf : List UInt8) (x : UInt32) : List UInt8 := buf ++ leBytes 4 x.toNat
def putU64 (buf : List UInt8) (x : UInt64) : List UInt8 := buf ++ leBytes 8 x.toNat

/-- The length is cast to 32 bits, so a longer string loses its high bits. -/
def putBytes (buf bytes : List UInt8) : List UInt8 :=
  putU32 buf (UInt32.ofNat bytes.length) ++ bytes

def putStr (buf : List UInt8) (s : String) : List UInt8 := putBytes buf (utf8 s)

/-- The header loop: each name and value in map order. -/
def putHeaders (buf : List UInt8) (headers : List (String × String)) : List UInt8 :=
  headers.foldl (fun buf header => putStr (putStr buf header.1) header.2) buf

/-- The record payload. -/
def encodePayload (key : IdempotencyKey) (state : KeyState) : List UInt8 :=
  let payload := putStr [] key.val
  match state with
  | .inProgress fence fingerprint leaseExpiresAtMs =>
      let payload := payload ++ [tagInProgress]
      let payload := putU64 payload fence.val
      let payload := payload ++ fingerprint.bytes.toList
      putU64 payload leaseExpiresAtMs
  | .completed fingerprint outcome completedAtMs =>
      let payload := payload ++ [tagCompleted]
      let payload := payload ++ fingerprint.bytes.toList
      let payload := putU64 payload completedAtMs
      let payload := putU16 payload outcome.status
      let payload := putU32 payload (UInt32.ofNat outcome.headers.size)
      let payload := putHeaders payload outcome.headers.toList
      putBytes payload outcome.body

/-- Serialize one entry into a length-framed, checksummed, chained record. -/
def encodeRecord (key : IdempotencyKey) (state : KeyState) (prevChain : Bytes32) : List UInt8 :=
  let payload := encodePayload key state
  let crc := crc32 payload
  let chain := computeChain prevChain crc payload
  let framed := putU32 [] (UInt32.ofNat payload.length)
  let framed := putU32 framed crc
  framed ++ chain.toList ++ payload

/-! ## Reading -/

/-- `slice::get(start..stop)`. -/
def getRange (buf : List UInt8) (start stop : Nat) : Option (List UInt8) :=
  if start ≤ stop ∧ stop ≤ buf.length then some ((buf.take stop).drop start) else none

/-- `<[u8; 32]>::try_from(slice).ok()`. -/
def toBytes32 (bytes : List UInt8) : Option Bytes32 :=
  if h : bytes.length = 32 then some ⟨bytes, h⟩ else none

/-- A bounds-checked cursor over a record payload. -/
structure Reader where
  buf : List UInt8
  pos : Nat
  pos_le : pos ≤ buf.length

abbrev ReadM := StateT Reader Option

namespace Reader

def new (buf : List UInt8) : Reader := ⟨buf, 0, Nat.zero_le _⟩

/-- The bytes still to be read. -/
def remaining (reader : Reader) : List UInt8 := reader.buf.drop reader.pos

/-- The next `n` bytes, or nothing past the end of the buffer. -/
def take (n : Nat) : ReadM (List UInt8) := fun reader =>
  let stop := reader.pos + n
  if hstop : stop ≤ reader.buf.length then
    some ((reader.buf.take stop).drop reader.pos, ⟨reader.buf, stop, hstop⟩)
  else none

def u8 : ReadM UInt8 := do return (← take 1)[0]!
def u16 : ReadM UInt16 := do return UInt16.ofNat (ofLeBytes (← take 2))
def u32 : ReadM UInt32 := do return UInt32.ofNat (ofLeBytes (← take 4))
def u64 : ReadM UInt64 := do return UInt64.ofNat (ofLeBytes (← take 8))

def arr32 : ReadM Bytes32 := do StateT.lift (toBytes32 (← take 32))

def bytes : ReadM (List UInt8) := do
  let n ← u32
  take n.toNat

def string : ReadM String := do
  StateT.lift (String.fromUTF8? (← bytes).toByteArray)

/-- Read `count` headers into the map, in the order they are stored. -/
def headers : Nat → HeaderMap → ReadM HeaderMap
  | 0, collected => return collected
  | count + 1, collected => do
      let name ← string
      let value ← string
      headers count (collected.insert name value)

/-- The key and state a payload carries; bytes after them are ignored. -/
def entry : ReadM Entry := do
  let key ← string
  let tag ← u8
  if tag = tagInProgress then
    let fence ← u64
    let fingerprint ← arr32
    let leaseExpiresAtMs ← u64
    return (⟨key⟩, .inProgress ⟨fence⟩ ⟨fingerprint⟩ leaseExpiresAtMs)
  else if tag = tagCompleted then
    let fingerprint ← arr32
    let completedAtMs ← u64
    let status ← u16
    let headerCount ← u32
    let headers ← headers headerCount.toNat ∅
    let body ← bytes
    return (⟨key⟩, .completed ⟨fingerprint⟩ ⟨status, headers, body⟩ completedAtMs)
  else failure

end Reader

/-- What one decoded frame yields: bytes consumed, the entry and its stored chain. -/
structure Decoded where
  consumed : Nat
  entry : Entry
  chain : Bytes32

/-- Decode one record from the front of `buf`. -/
def decodeRecord (buf : List UInt8) : Option Decoded := do
  let header ← getRange buf 0 headerLen
  let len := ofLeBytes ((header.take 4).drop 0)
  let crc := UInt32.ofNat (ofLeBytes ((header.take 8).drop 4))
  let chain ← toBytes32 ((header.take 40).drop 8)
  let total := headerLen + len
  let payload ← getRange buf headerLen total
  if crc32 payload ≠ crc then none
  else
    let (entry, _) ← Reader.entry.run (Reader.new payload)
    return ⟨total, entry, chain⟩

/-- Whether `buf` begins with a complete record frame, valid or not. -/
def isCompleteFrame (buf : List UInt8) : Bool :=
  match getRange buf 0 headerLen with
  | none => false
  | some header =>
      let len := ofLeBytes ((header.take 4).drop 0)
      headerLen + len ≤ buf.length

end Onced.Wal
