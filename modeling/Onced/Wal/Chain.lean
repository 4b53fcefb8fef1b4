import Onced.Foundation.HashChain
import Onced.Wal.Corruption

/-! # What the chain of a log proves

Every record stores the digest of its payload joined to the digest before it, and
opening recomputes all of them. So the root commits to the payloads, and a log
put together from frames with chain values of another log opens only if it is the
beginning of that log. Both hold up to a collision or a preimage of the genesis
value among the inputs that the two logs hash.
-/

namespace Onced.Wal

open Foundation

/-- The chain of a log over the payloads of its records. -/
def chaining : HashChain Bytes32 (List UInt8) (List UInt8) where
  hash := sha256
  input before payload := chainInput before (crc32 payload) payload
  input_injective := by
    intro before other payload otherPayload hinput
    unfold chainInput at hinput
    obtain ⟨hhead, hpayload⟩ := List.append_inj hinput (by simp)
    exact ⟨List.Vector.toList_injective (List.append_inj hhead (by simp)).1, hpayload⟩

/-! ## The payloads of a log -/

/-- The payloads of the records that decode, up to the first that does not. -/
def payloads (buf : List UInt8) : List (List UInt8) :=
  match _ : decodeRecord buf with
  | none => []
  | some decoded =>
      (buf.take decoded.consumed).drop headerLen :: payloads (buf.drop decoded.consumed)
termination_by buf.length
decreasing_by
  have hconsumed := decodeRecord_consumed ‹_›
  simp only [headerLen, List.length_drop] at hconsumed ⊢
  omega

/-- The entry a payload carries. -/
def entryOf (payload : List UInt8) : Option Entry :=
  (Reader.entry.run (Reader.new payload)).map Prod.fst

/-- The entries of the payloads are inserted one after the other. -/
def recoveredFrom (index : Index) (read : List (List UInt8)) : Index :=
  insertAll (read.filterMap entryOf) index

theorem payloads_stop {buf : List UInt8} (hstop : decodeRecord buf = none) : payloads buf = [] := by
  rw [payloads]
  split
  next => rfl
  next hdecoded => rw [hstop] at hdecoded; contradiction

theorem payloads_decoded {buf : List UInt8} {decoded : Decoded}
    (hdecoded : decodeRecord buf = some decoded) :
    payloads buf = (buf.take decoded.consumed).drop headerLen ::
      payloads (buf.drop decoded.consumed) := by
  rw [payloads]
  split
  next hnone => rw [hdecoded] at hnone; contradiction
  next found hfound =>
    obtain rfl := Option.some.inj (hdecoded.symm.trans hfound)
    rfl

/-- What decodes carries its entry in its payload, and the replay loop hashes
that payload. -/
theorem decodeRecord_payload {buf : List UInt8} {decoded : Decoded}
    (hdecoded : decodeRecord buf = some decoded) (before : Bytes32) :
    entryOf ((buf.take decoded.consumed).drop headerLen) = some decoded.entry ∧
      frameInput before buf =
        chaining.input before ((buf.take decoded.consumed).drop headerLen) := by
  obtain ⟨lenBytes, crcBytes, rest, hlen, hcrc, rfl, hconsumed, hcomplete, hchecksum, hentry⟩ :=
    decodeRecord_eq_some hdecoded
  have hpayload : ((lenBytes ++ (crcBytes ++ (decoded.chain.toList ++ rest))).take
      decoded.consumed).drop headerLen = rest.take (ofLeBytes lenBytes) := by
    have hrange := getRange_payload rest hlen hcrc decoded.chain.toList_length (ofLeBytes lenBytes)
    rw [if_pos hcomplete, getRange, ← hconsumed] at hrange
    split at hrange
    next => exact Option.some.inj hrange
    next => contradiction
  rw [hpayload]
  refine ⟨hentry, ?_⟩
  rw [frameInput_header rest hlen hcrc decoded.chain.toList_length, ← hchecksum]
  rfl

/-- The loop ends with the root and the entries of the payloads it has read. -/
theorem replay_reads {before buf : List UInt8} {index : Index} {chain : Bytes32} {last : Replay}
    (hreplay : replay (before ++ buf) ⟨index, before.length, chain⟩ = .ok last) :
    last.chainRoot = chaining.root chain (payloads buf) ∧
      last.index = recoveredFrom index (payloads buf) := by
  induction buf using payloads.induct generalizing before index chain with
  | case1 buf hstop =>
      have hdrop : decodeRecord ((before ++ buf).drop before.length) = none := by
        rwa [List.drop_left]
      rw [replay_stop hdrop] at hreplay
      rw [payloads_stop hstop]
      cases hreplay
      exact ⟨rfl, rfl⟩
  | case2 buf decoded hdecoded ih =>
      obtain ⟨hentry, hinput⟩ := decodeRecord_payload hdecoded chain
      have hwithin := (decodeRecord_consumed hdecoded).2
      rw [replay_decoded hdecoded, hinput] at hreplay
      split at hreplay
      next => contradiction
      next hmatch =>
        have hnext : chaining.next chain ((buf.take decoded.consumed).drop headerLen) =
            decoded.chain := not_not.mp hmatch
        have hsplit : before ++ buf =
            (before ++ buf.take decoded.consumed) ++ buf.drop decoded.consumed := by
          rw [List.append_assoc, List.take_append_drop]
        have hoffset : before.length + decoded.consumed =
            (before ++ buf.take decoded.consumed).length := by
          rw [List.length_append, List.length_take, Nat.min_eq_left hwithin]
        rw [hsplit, hoffset] at hreplay
        obtain ⟨hroot, hindex⟩ := ih hreplay
        rw [payloads_decoded hdecoded]
        refine ⟨?_, ?_⟩
        · rw [hroot, HashChain.root_cons, hnext]
        · rw [hindex, recoveredFrom, recoveredFrom, List.filterMap_cons_some hentry]
          rfl

/-- An open store has the root and the index of the payloads in its file. -/
theorem openWith_reads {disk : List UInt8} {syncEach : Bool} {store : WalStore}
    (hopen : WalStore.openWith disk syncEach = .ok store) :
    store.root = chaining.root genesis (payloads disk) ∧
      store.index = recoveredFrom ∅ (payloads disk) := by
  rw [openWith_eq] at hopen
  split at hopen
  next => contradiction
  next last hreplay =>
    split at hopen
    next => contradiction
    next =>
      cases hopen
      exact @replay_reads [] disk ∅ genesis last hreplay

/-! ## The root commits to the log -/

/-- Two logs that open with one root hold the same payloads and give the same
index, or the inputs they hash exhibit a collision or a preimage of genesis. -/
theorem root_commits {one other : List UInt8} {oneMode otherMode : Bool}
    {oneStore otherStore : WalStore} (hone : WalStore.openWith one oneMode = .ok oneStore)
    (hother : WalStore.openWith other otherMode = .ok otherStore)
    (hroot : oneStore.root = otherStore.root) :
    payloads one = payloads other ∧ oneStore.index = otherStore.index ∨
      chaining.Broken genesis (chaining.inputs genesis (payloads one))
        (chaining.inputs genesis (payloads other)) := by
  obtain ⟨honeRoot, honeIndex⟩ := openWith_reads hone
  obtain ⟨hotherRoot, hotherIndex⟩ := openWith_reads hother
  rw [honeRoot, hotherRoot] at hroot
  rcases HashChain.root_injective hroot with hpayloads | hbroken
  · exact Or.inl ⟨hpayloads, by rw [honeIndex, hotherIndex, hpayloads]⟩
  · exact Or.inr hbroken

/-- One log opened in both modes. -/
theorem root_commits_charged :
    ∃ one other, WalStore.openWith (framing.log genesis charged) true = .ok one ∧
      WalStore.openWith (framing.log genesis charged) false = .ok other ∧
      (one.index = other.index ∨ chaining.Broken genesis
        (chaining.inputs genesis (payloads (framing.log genesis charged)))
        (chaining.inputs genesis (payloads (framing.log genesis charged)))) := by
  obtain ⟨one, hone, -, honeRep⟩ := opensTo_log charged_fits true
  obtain ⟨other, hother, -, hotherRep⟩ := opensTo_log charged_fits false
  have hroot : one.root = other.root := honeRep.chainRoot.trans hotherRep.chainRoot.symm
  exact ⟨one, other, hone, hother, (root_commits hone hother hroot).imp And.right id⟩

/-! ## Logs made of frames of another log -/

/-- A record frame whose length and checksum match its payload, with any chain. -/
structure Frame where
  chain : Bytes32
  payload : List UInt8

namespace Frame

def bytes (frame : Frame) : List UInt8 :=
  leBytes 4 (UInt32.ofNat frame.payload.length).toNat ++ (leBytes 4 (crc32 frame.payload).toNat ++
    (frame.chain.toList ++ frame.payload))

/-- The payload fits the length field. -/
def Fits (frame : Frame) : Prop := frame.payload.length < 2 ^ 32

/-- The bytes of a sequence of frames. -/
def log (frames : List Frame) : List UInt8 := frames.flatMap bytes

/-- The frames of these payloads, chained from `start`. -/
def chained : Bytes32 → List (List UInt8) → List Frame
  | _, [] => []
  | start, payload :: rest =>
      ⟨chaining.next start payload, payload⟩ :: chained (chaining.next start payload) rest

/-- The frames that writing these records from genesis leaves in the log. -/
def written (records : List Entry) : List Frame :=
  chained genesis (records.map fun entry => encodePayload entry.1 entry.2)

@[simp] theorem log_nil : log [] = [] := rfl

@[simp] theorem log_cons (frame : Frame) (frames : List Frame) :
    log (frame :: frames) = frame.bytes ++ log frames := rfl

theorem map_payload_chained (start : Bytes32) (rest : List (List UInt8)) :
    (chained start rest).map payload = rest := by
  induction rest generalizing start with
  | nil => rfl
  | cons payload rest ih => simp [chained, ih]

theorem chained_append (start : Bytes32) (first second : List (List UInt8)) :
    chained start (first ++ second) =
      chained start first ++ chained (chaining.root start first) second := by
  induction first generalizing start with
  | nil => rfl
  | cons payload first ih => simp [chained, ih]

/-- A frame carries the root of the payloads up to its own. -/
theorem chain_of_mem_chained {start : Bytes32} {rest : List (List UInt8)} {frame : Frame}
    (hframe : frame ∈ chained start rest) :
    ∃ first, first <+: rest ∧ frame.chain = chaining.root start first := by
  induction rest generalizing start with
  | nil => exact absurd hframe List.not_mem_nil
  | cons payload rest ih =>
      rcases List.mem_cons.mp hframe with rfl | hframe
      · exact ⟨[payload], by simp, rfl⟩
      · obtain ⟨first, hfirst, hchain⟩ := ih hframe
        exact ⟨payload :: first, (List.prefix_cons_inj payload).mpr hfirst, hchain⟩

/-- The written frames are the log of the records. -/
theorem log_written (records : List Entry) :
    log (written records) = framing.log genesis records := by
  unfold written
  generalize genesis = start
  induction records generalizing start with
  | nil => rfl
  | cons entry records ih =>
      have hrecord := encodeRecord_append entry start []
      simp only [List.append_nil] at hrecord
      rw [List.map_cons, chained, log_cons, Framing.log_cons, framing_encode, framing_next, hrecord]
      exact congrArg (_ ++ ·) (ih (recordChain start entry))

theorem bytes_append (frame : Frame) (after : List UInt8) :
    frame.bytes ++ after = leBytes 4 (UInt32.ofNat frame.payload.length).toNat ++
      (leBytes 4 (crc32 frame.payload).toNat ++
        (frame.chain.toList ++ (frame.payload ++ after))) := by
  simp [bytes]

/-- The frame at the front of a file decodes if its payload does, and it counts as
complete in any case. -/
theorem reads_frame {frame : Frame} (hfits : frame.Fits) (after : List UInt8) (before : Bytes32) :
    decodeRecord (frame.bytes ++ after) = (entryOf frame.payload).map (fun entry =>
        ⟨frame.bytes.length, entry, frame.chain⟩) ∧
      isCompleteFrame (frame.bytes ++ after) = true ∧
      frameInput before (frame.bytes ++ after) = chaining.input before frame.payload := by
  have hlength := ofLeBytes_length_field hfits
  have hbytes : frame.bytes.length = headerLen + frame.payload.length := by
    simp only [bytes, List.length_append, leBytes_length, List.Vector.toList_length, headerLen]
    omega
  rw [bytes_append]
  refine ⟨?_, ?_, ?_⟩
  · rw [decodeRecord_header _ (leBytes_length _ _) (leBytes_length _ _)
      (List.Vector.toList_length _), hlength, List.take_left' rfl, ofLeBytes_crc_field,
      if_pos ⟨by simp, rfl⟩, entryOf, Option.map_map, hbytes]
    rfl
  · rw [isCompleteFrame_header _ (leBytes_length _ _) (leBytes_length _ _)
      (List.Vector.toList_length _), hlength, decide_eq_true_eq, List.length_append]
    exact Nat.le_add_right _ _
  · rw [frameInput_header _ (leBytes_length _ _) (leBytes_length _ _)
      (List.Vector.toList_length _), hlength, List.take_left' rfl, ofLeBytes_crc_field]
    rfl

/-- Frames that the loop gets through are chained from where it started. -/
theorem chained_of_replay {frames : List Frame} (hfits : ∀ frame ∈ frames, frame.Fits)
    {before : List UInt8} {index : Index} {chain : Bytes32} {last : Replay}
    (hreplay : replay (before ++ log frames) ⟨index, before.length, chain⟩ = .ok last)
    (hend : isCompleteFrame ((before ++ log frames).drop last.offset) = false) :
    frames = chained chain (frames.map payload) := by
  induction frames generalizing before index chain with
  | nil => rfl
  | cons frame frames ih =>
      obtain ⟨hdecoded, hcomplete, hinput⟩ :=
        reads_frame (hfits frame List.mem_cons_self) (log frames) chain
      rw [log_cons] at hreplay hend
      cases hentry : entryOf frame.payload with
      | none =>
          -- the loop stops here, at a frame that counts as complete
          rw [hentry, Option.map_none] at hdecoded
          have hdrop : decodeRecord ((before ++ (frame.bytes ++ log frames)).drop before.length) =
              none := by rwa [List.drop_left]
          rw [replay_stop hdrop] at hreplay
          cases hreplay
          rw [List.drop_left, hcomplete] at hend
          contradiction
      | some entry =>
          rw [hentry, Option.map_some] at hdecoded
          rw [replay_decoded hdecoded, hinput] at hreplay
          split at hreplay
          next => contradiction
          next hmatch =>
            have hchain : chaining.next chain frame.payload = frame.chain := not_not.mp hmatch
            have hrest := @ih (fun other hother => hfits other (List.mem_cons_of_mem _ hother))
              (before ++ frame.bytes) (index.insert entry.1 entry.2) frame.chain
            simp only [List.append_assoc, List.length_append] at hrest
            rw [List.map_cons, chained, hchain, ← hrest hreplay hend]

/-- Frames that open are chained from genesis. -/
theorem chained_of_open {frames : List Frame} (hfits : ∀ frame ∈ frames, frame.Fits)
    {syncEach : Bool} {store : WalStore}
    (hopen : WalStore.openWith (log frames) syncEach = .ok store) :
    frames = chained genesis (frames.map payload) := by
  rw [openWith_eq] at hopen
  split at hopen
  next => contradiction
  next last hreplay =>
    split at hopen
    next => contradiction
    next hend =>
      exact @chained_of_replay frames hfits [] ∅ genesis last hreplay (by simpa using hend)

/-- The last frame of a chained sequence carries the root of all payloads. -/
theorem chain_of_getLast {start : Bytes32} {rest : List (List UInt8)} {frame : Frame}
    (hlast : (chained start rest).getLast? = some frame) :
    frame.chain = chaining.root start rest := by
  cases rest using List.reverseRecOn with
  | nil => contradiction
  | append_singleton rest payload =>
      rw [chained_append, chained, chained, List.getLast?_concat] at hlast
      cases hlast
      rw [HashChain.root_concat]

theorem take_chained (start : Bytes32) (rest : List (List UInt8)) (count : Nat) :
    (chained start rest).take count = chained start (rest.take count) := by
  induction rest generalizing start count with
  | nil => simp [chained]
  | cons payload rest ih =>
      cases count with
      | zero => rfl
      | succ count => simp [chained, ih]

theorem opens_of_prefix {records : List Entry} (hrecords : ∀ entry ∈ records, Wal.Fits entry)
    {frames : List Frame} (hinitial : frames <+: written records) (syncEach : Bool) :
    ∃ store, WalStore.openWith (log frames) syncEach = .ok store ∧
      store.file.bytes = log frames := by
  have hframes : frames = written (records.take frames.length) := by
    rw [written, List.map_take, ← take_chained]
    exact List.prefix_iff_eq_take.mp hinitial
  have hfits : ∀ entry ∈ records.take frames.length, Wal.Fits entry := fun entry hentry =>
    hrecords entry (List.mem_of_mem_take hentry)
  have hlog : log frames = framing.log genesis (records.take frames.length) := by
    rw [← log_written, ← hframes]
  obtain ⟨store, hopen, -, hrep⟩ := opensTo_log hfits syncEach
  rw [hlog]
  exact ⟨store, hopen, congrArg LogFile.bytes hrep.file⟩

theorem prefix_of_open {records : List Entry} {frames : List Frame}
    (hfits : ∀ frame ∈ frames, frame.Fits)
    (horigin : ∀ frame ∈ frames, ∃ origin ∈ written records, frame.chain = origin.chain)
    {syncEach : Bool} {store : WalStore}
    (hopen : WalStore.openWith (log frames) syncEach = .ok store) :
    frames <+: written records ∨ chaining.Broken genesis
      (chaining.inputs genesis (frames.map payload))
      (chaining.inputs genesis ((written records).map payload)) := by
  have hchained := chained_of_open hfits hopen
  cases hlast : frames.getLast? with
  | none =>
      rw [List.getLast?_eq_none_iff.mp hlast]
      exact Or.inl List.nil_prefix
  | some last =>
      -- the last chain value is the root of the frames and of a beginning of the log
      obtain ⟨origin, horigin, hchain⟩ := horigin last (List.mem_of_getLast? hlast)
      obtain ⟨first, hfirst, hroot⟩ := chain_of_mem_chained horigin
      have hlastChain : last.chain = chaining.root genesis (frames.map payload) :=
        chain_of_getLast (hchained ▸ hlast)
      obtain ⟨rest, hrest⟩ := hfirst
      rcases HashChain.root_injective (hlastChain.symm.trans (hchain.trans hroot)) with
        rfl | hbroken
      · left
        rw [hchained, written, ← hrest, chained_append]
        exact List.prefix_append _ _
      · right
        refine hbroken.mono (List.Subset.refl _) ?_
        rw [written, map_payload_chained, ← hrest, HashChain.inputs_append]
        exact List.subset_append_left _ _

end Frame

/-- Frames that carry chain values of a written log, in any order and number and
with any payloads, open if they are the beginning of that log, and only then, or
the inputs hashed exhibit a collision or a preimage of genesis. -/
theorem rearranged_frames_refused (syncEach reopenMode : Bool) (calls : List StoreCall)
    (hcalls : ∀ storeCall ∈ calls, storeCall.Fits) :
    ∃ records, Life.run [] ⟨syncEach, calls, none⟩ = .ok (Frame.log (Frame.written records)) ∧
      (∀ frame ∈ Frame.written records, frame.Fits) ∧
      ∀ frames : List Frame, (∀ frame ∈ frames, frame.Fits) →
        (∀ frame ∈ frames, ∃ origin ∈ Frame.written records, frame.chain = origin.chain) →
        (frames <+: Frame.written records → ∃ store,
          WalStore.openWith (Frame.log frames) reopenMode = .ok store ∧
            store.file.bytes = Frame.log frames) ∧
        ((∃ store, WalStore.openWith (Frame.log frames) reopenMode = .ok store ∧
            store.file.bytes = Frame.log frames) →
          frames <+: Frame.written records ∨ chaining.Broken genesis
            (chaining.inputs genesis (frames.map Frame.payload))
            (chaining.inputs genesis ((Frame.written records).map Frame.payload))) := by
  obtain ⟨opened, hopen, hmode, hrep⟩ := opensTo_empty syncEach
  obtain ⟨store, hrun, -, hstore⟩ := hrep.runAll hcalls
  generalize (Ledger.settled []).after opened.syncEach calls = ledger at hstore
  have hrecords : ∀ entry ∈ ledger.durable, Fits entry := fun entry hentry =>
    hstore.fits entry (List.mem_append_left _ hentry)
  refine ⟨ledger.durable, ?_, ?_, fun frames hfits horigin => ⟨fun hinitial => ?_, ?_⟩⟩
  · rw [Frame.log_written, ← hstore.disk_eq]
    simp only [Life.run, Life.leaves, Life.live, bind, Except.bind, EStateM.bind, hopen, hrun,
      pure, Except.pure, EStateM.pure]
  · intro frame hframe
    have hpayload := List.mem_map_of_mem (f := Frame.payload) hframe
    rw [Frame.written, Frame.map_payload_chained] at hpayload
    obtain ⟨entry, hentry, hsame⟩ := List.mem_map.mp hpayload
    rw [Frame.Fits, ← hsame]
    exact hrecords entry hentry
  · exact Frame.opens_of_prefix hrecords hinitial reopenMode
  · rintro ⟨_, hopens, -⟩
    exact Frame.prefix_of_open hfits horigin hopens

/-- The first frame alone of a log of two opens; the log with every frame twice
opens only where the hash is broken. -/
theorem rearranged_frames_refused_charged :
    ∃ records store, Life.run [] (writing true charged) = .ok (Frame.log (Frame.written records)) ∧
      WalStore.openWith (Frame.log ((Frame.written records).take 1)) true = .ok store ∧
      ((∃ twice, WalStore.openWith (Frame.log (Frame.written records ++ Frame.written records))
            true = .ok twice ∧
          twice.file.bytes = Frame.log (Frame.written records ++ Frame.written records)) →
        chaining.Broken genesis
          (chaining.inputs genesis
            ((Frame.written records ++ Frame.written records).map Frame.payload))
          (chaining.inputs genesis ((Frame.written records).map Frame.payload))) := by
  obtain ⟨records, hrun, hfits, hframes⟩ :=
    rearranged_frames_refused true true (writing true charged).calls (by decide)
  have hwritten : Frame.written records ≠ [] := by
    intro hnone
    have hlog : framing.log genesis charged = [] := by
      have hdisk := (run_writing true charged_fits).symm.trans hrun
      rw [hnone] at hdisk
      exact Except.ok.inj hdisk
    have hlength := congrArg List.length hlog
    rw [charged, Framing.log_cons, framing_encode, List.length_append, encodeRecord_length,
      headerLen] at hlength
    simp at hlength
  obtain ⟨hopens, -⟩ := hframes ((Frame.written records).take 1)
    (fun frame hframe => hfits frame (List.mem_of_mem_take hframe))
    (fun frame hframe => ⟨frame, List.mem_of_mem_take hframe, rfl⟩)
  have htwice : ∀ frame ∈ Frame.written records ++ Frame.written records,
      frame ∈ Frame.written records := by simp
  obtain ⟨-, honly⟩ := hframes (Frame.written records ++ Frame.written records)
    (fun frame hframe => hfits frame (htwice frame hframe))
    (fun frame hframe => ⟨frame, htwice frame hframe, rfl⟩)
  obtain ⟨store, hopen, -⟩ := hopens (List.take_prefix 1 _)
  refine ⟨records, store, hrun, hopen, fun hopened => (honly hopened).resolve_left ?_⟩
  intro hinitial
  have hlength := hinitial.length_le
  have hpositive := List.length_pos_of_ne_nil hwritten
  rw [List.length_append] at hlength
  omega

end Onced.Wal
