import Onced.Gateway.Transport
import Onced.Uring.Segments

/-! # The io_uring transport and the blocking one

The io_uring transport shares the router with the blocking transport, but reads its
connections in pieces: a request until its bytes parse, and the answer of a backend until
the backend closes. It may so take the first part of a request for the whole. As long as
no read ends at such a place, it does what the blocking transport does, byte for byte and
in whatever order the connections are served.
-/

namespace Onced.Uring

open Foundation Http Abuse

/-! ## Connections -/

/-- What becomes of a connection, given its reads. A peer that closes, or sends what is not a
request, gets no answer. -/
def serveConnection (reads : List Read) (nowMs : UInt64) : Except Panic (Option Pool.Event) :=
  match readRequest reads with
  | .ok (some request) => .ok (some (.arrive request nowMs))
  | .ok none => .ok none
  | .error .io => .ok none
  | .error .panicked => .error "capacity overflow"

/-- Read until the peer closes, with the bytes received so far. -/
def receive (acc : List UInt8) : List Read → Except Fault (List UInt8)
  | [] => .ok acc
  | .failed :: _ => .error .io
  | .bytes chunk :: reads =>
      if chunk.val = [] then .ok acc else receive (acc ++ chunk.val) reads

/-- What the backend is read to have answered, once it has closed. Nothing is read from one that
cannot be reached; a read that fails does so with this text. -/
def forward (failure : String) (answer : Except String (List Read)) :
    Except Panic (Except String Response) :=
  match answer with
  | .error unreached => .ok (.error unreached)
  | .ok reads =>
      match receive [] reads with
      | .error _ => .ok (.error failure)
      | .ok bytes =>
          match parseResponse bytes with
          | .ok (response, _) => .ok (.ok response)
          | .error (.failed error) => .ok (.error error.message)
          | .error .panicked => .error "capacity overflow"

/-- What happens next to the process. It has no pruner. -/
inductive Event where
  | connection (reads : List Read) (nowMs : UInt64)
  /-- The next section of a request. -/
  | proceed (id : Nat)
  /-- The reads of the backend's connection, and the text of one that fails. -/
  | backend (id : Nat) (failure : String) (answer : Except String (List Read))

def read {σ : Type} (_pool : Pool σ) : Event → Except Panic (Option Pool.Event)
  | .connection reads nowMs => serveConnection reads nowMs
  | .proceed id => .ok (some (.proceed id))
  | .backend id failure answer =>
      (forward failure answer).map fun forwarded => some (.returned id forwarded)

def step {σ : Type} [Store σ] (hash : String → UInt64) (pool : Pool σ) (event : Event) :
    Except Panic (Option Output × Pool σ) :=
  pool.feed hash .closed Output.of (read pool event)

/-! ## The reads and the bytes they deliver -/

/-- The parser fails on what has been received, and there is room for more. -/
def Incomplete (received : List UInt8) : Prop :=
  (∃ error, parseRequest received = .error (.failed error)) ∧ received.length < maxRequest

/-- Where a read may end: the parser fails on the part before it, which is not too long yet, or
reads it as it reads the whole. -/
def Steady (whole part : List UInt8) : Prop :=
  Incomplete part ∨ (parseRequest part).map Prod.fst = (parseRequest whole).map Prod.fst

/-- The reads of a connection from which the blocking transport can read this much: they deliver
the same bytes, and end where they may; or one fails, and none before it has delivered a
request. -/
inductive Carries : List Read → Option (List UInt8) → Prop where
  | delivers {chunks : List Chunk} (hnonempty : ∀ chunk ∈ chunks, chunk.val ≠ [])
      (hsteady : ∀ first rest, chunks = first ++ rest → first ≠ [] → rest ≠ [] →
        Steady (chunks.flatMap Subtype.val) (first.flatMap Subtype.val)) :
      Carries (chunks.map .bytes) (some (chunks.flatMap Subtype.val))
  | fails {chunks : List Chunk} (hnonempty : ∀ chunk ∈ chunks, chunk.val ≠ [])
      (hfails : ∀ first rest, chunks = first ++ rest → first ≠ [] →
        ∃ error, parseRequest (first.flatMap Subtype.val) = .error (.failed error)) :
      Carries (chunks.map .bytes ++ [.failed]) none

/-- The reads of a backend's connection from which the blocking transport can read this much. -/
inductive Delivers (failure : String) :
    Except String (List Read) → Except String (List UInt8) → Prop where
  | unreached (text : String) : Delivers failure (.error text) (.error text)
  | closes {chunks : List Chunk} (hnonempty : ∀ chunk ∈ chunks, chunk.val ≠ []) :
      Delivers failure (.ok (chunks.map .bytes)) (.ok (chunks.flatMap Subtype.val))
  | fails {chunks : List Chunk} (hnonempty : ∀ chunk ∈ chunks, chunk.val ≠ []) :
      Delivers failure (.ok (chunks.map .bytes ++ [.failed])) (.error failure)

section Loops

variable {chunks : List Chunk}

/-- What the loop makes of the whole, at the end of its reads. -/
def settled (bytes : List UInt8) : Except Fault (Option Request) :=
  match parseRequest bytes with
  | .ok (request, _) => .ok request
  | .error (.failed _) => .ok none
  | .error .panicked => .error .panicked

/-- A part that is read as the whole settles the matter. -/
theorem settled_of_same {whole part : List UInt8}
    (hsame : (parseRequest part).map Prod.fst = (parseRequest whole).map Prod.fst) :
    settled part = settled whole := by
  unfold settled
  cases hpart : parseRequest part with
  | ok parsed =>
      rw [hpart] at hsame
      cases hwhole : parseRequest whole with
      | ok other =>
          rw [hwhole] at hsame
          exact congrArg Except.ok (Except.ok.inj hsame)
      | error fault =>
          rw [hwhole] at hsame
          cases hsame
  | error fault =>
      rw [hpart] at hsame
      cases hwhole : parseRequest whole with
      | ok other =>
          rw [hwhole] at hsame
          cases hsame
      | error other =>
          rw [hwhole] at hsame
          cases hsame
          rfl

theorem readLoop_incomplete {acc : List UInt8} {chunk : Chunk} (hchunk : chunk.val ≠ [])
    (hincomplete : Incomplete (acc ++ chunk.val)) (reads : List Read) :
    readLoop acc (.bytes chunk :: reads) = readLoop (acc ++ chunk.val) reads := by
  obtain ⟨⟨error, hfailed⟩, hshort⟩ := hincomplete
  rw [readLoop, if_neg hchunk, hfailed]
  exact if_pos hshort

theorem readLoop_complete {acc : List UInt8} {chunk : Chunk} (hchunk : chunk.val ≠ [])
    (hcomplete : ¬ Incomplete (acc ++ chunk.val)) (reads : List Read) :
    readLoop acc (.bytes chunk :: reads) = settled (acc ++ chunk.val) := by
  rw [readLoop, if_neg hchunk, settled]
  cases hparse : parseRequest (acc ++ chunk.val) with
  | ok parsed => rfl
  | error fault =>
      cases fault with
      | failed error => exact if_neg fun hshort => hcomplete ⟨⟨error, hparse⟩, hshort⟩
      | panicked => rfl

theorem readLoop_delivers {acc : List UInt8} (hnonempty : ∀ chunk ∈ chunks, chunk.val ≠ [])
    (hsteady : ∀ first rest, chunks = first ++ rest → first ≠ [] → rest ≠ [] →
      Steady (acc ++ chunks.flatMap Subtype.val) (acc ++ first.flatMap Subtype.val))
    (hmore : chunks ≠ []) :
    readLoop acc (chunks.map .bytes) = settled (acc ++ chunks.flatMap Subtype.val) := by
  induction chunks generalizing acc with
  | nil => contradiction
  | cons chunk chunks ih =>
      rw [List.forall_mem_cons] at hnonempty
      rw [List.map_cons, List.flatMap_cons, ← List.append_assoc]
      by_cases hincomplete : Incomplete (acc ++ chunk.val)
      · rw [readLoop_incomplete hnonempty.1 hincomplete]
        by_cases hlast : chunks = []
        · subst hlast
          obtain ⟨⟨error, hfailed⟩, -⟩ := hincomplete
          rw [List.flatMap_nil, List.append_nil, settled, hfailed]
          rfl
        · apply ih hnonempty.2 ?_ hlast
          intro first rest hsplit hfirst hrest
          have hlater := hsteady (chunk :: first) rest (by rw [hsplit]; rfl)
            (List.cons_ne_nil _ _) hrest
          simpa only [List.flatMap_cons, List.append_assoc] using hlater
      · rw [readLoop_complete hnonempty.1 hincomplete]
        by_cases hlast : chunks = []
        · rw [hlast, List.flatMap_nil, List.append_nil]
        · have hcut := hsteady [chunk] chunks rfl (List.cons_ne_nil _ _) hlast
          simp only [List.flatMap_cons, List.flatMap_nil, List.append_nil, ← List.append_assoc]
            at hcut
          exact settled_of_same (hcut.resolve_left hincomplete)

/-- A read that fails before there is a request. -/
theorem readLoop_fails {acc : List UInt8} (hnonempty : ∀ chunk ∈ chunks, chunk.val ≠ [])
    (hfails : ∀ first rest, chunks = first ++ rest → first ≠ [] →
      ∃ error, parseRequest (acc ++ first.flatMap Subtype.val) = .error (.failed error)) :
    readLoop acc (chunks.map .bytes ++ [.failed]) = .error .io ∨
      readLoop acc (chunks.map .bytes ++ [.failed]) = .ok none := by
  induction chunks generalizing acc with
  | nil => exact Or.inl rfl
  | cons chunk chunks ih =>
      rw [List.forall_mem_cons] at hnonempty
      rw [List.map_cons, List.cons_append]
      by_cases hincomplete : Incomplete (acc ++ chunk.val)
      · rw [readLoop_incomplete hnonempty.1 hincomplete]
        apply ih hnonempty.2
        intro first rest hsplit hfirst
        have hlater := hfails (chunk :: first) rest (by rw [hsplit]; rfl) (List.cons_ne_nil _ _)
        rwa [List.flatMap_cons, ← List.append_assoc] at hlater
      · obtain ⟨error, hfailed⟩ := hfails [chunk] chunks rfl (List.cons_ne_nil _ _)
        rw [List.flatMap_cons, List.flatMap_nil, List.append_nil] at hfailed
        rw [readLoop_complete hnonempty.1 hincomplete, settled, hfailed]
        exact Or.inr rfl

/-- Until the peer closes, everything is received. -/
theorem receive_chunks (hnonempty : ∀ chunk ∈ chunks, chunk.val ≠ []) (acc : List UInt8)
    (reads : List Read) :
    receive acc (chunks.map .bytes ++ reads) =
      receive (acc ++ chunks.flatMap Subtype.val) reads := by
  induction chunks generalizing acc with
  | nil => rw [List.flatMap_nil, List.append_nil]; rfl
  | cons chunk chunks ih =>
      rw [List.forall_mem_cons] at hnonempty
      rw [List.map_cons, List.cons_append, receive, if_neg hnonempty.1, ih hnonempty.2,
        List.flatMap_cons, List.append_assoc]

end Loops

/-! ## Both transports -/

/-- A connection is served as the blocking transport serves it. -/
theorem serveConnection_eq {reads : List Read} {input : Option (List UInt8)}
    (hcarries : Carries reads input) (nowMs : UInt64) :
    serveConnection reads nowMs = handleConnection input nowMs := by
  cases hcarries with
  | @delivers chunks hnonempty hsteady =>
      rw [serveConnection, readRequest, handleConnection]
      by_cases hmore : chunks = []
      · subst hmore
        rw [List.flatMap_nil, parseRequest_closed readLine_nil]
        rfl
      · rw [readLoop_delivers hnonempty (by simpa using hsteady) hmore, List.nil_append, settled]
        cases hparse : parseRequest (chunks.flatMap Subtype.val) with
        | ok parsed => obtain ⟨_ | request, left⟩ := parsed <;> rfl
        | error fault => cases fault <;> rfl
  | @fails chunks hnonempty hfails =>
      rw [serveConnection, readRequest, handleConnection]
      obtain hread | hread := @readLoop_fails chunks [] hnonempty
        (by simpa only [List.nil_append] using hfails)
      · rw [hread]
      · rw [hread]

/-- However its answer is split up, a backend is heard as over a blocking connection. -/
theorem forward_eq {failure : String} {answer : Except String (List Read)}
    {blocking : Except String (List UInt8)} (hdelivers : Delivers failure answer blocking) :
    forward failure answer = HttpUpstream.forward blocking := by
  cases hdelivers with
  | unreached => rfl
  | @closes chunks hnonempty =>
      have hreceive := receive_chunks hnonempty [] []
      rw [List.append_nil, List.nil_append] at hreceive
      cases hparse : parseResponse (chunks.flatMap Subtype.val) with
      | ok parsed => simp only [forward, HttpUpstream.forward, hreceive, receive, hparse]
      | error fault =>
          cases fault <;> simp only [forward, HttpUpstream.forward, hreceive, receive, hparse]
  | @fails chunks hnonempty =>
      simp only [forward, HttpUpstream.forward, receive_chunks hnonempty, receive]

/-- The same thing happens to both processes. -/
inductive Corresponds : Event → Server.Event → Prop where
  | connection {reads : List Read} {input : Option (List UInt8)} (hcarries : Carries reads input)
      (nowMs : UInt64) : Corresponds (.connection reads nowMs) (.connection input nowMs)
  | proceed (id : Nat) : Corresponds (.proceed id) (.proceed id)
  | backend (id : Nat) {failure : String} {answer : Except String (List Read)}
      {blocking : Except String (List UInt8)} (hdelivers : Delivers failure answer blocking) :
      Corresponds (.backend id failure answer) (.backend id blocking)

theorem step_eq {σ : Type} [Store σ] {event : Event} {blocking : Server.Event}
    (hcorresponds : Corresponds event blocking) (hash : String → UInt64) (pool : Pool σ) :
    step hash pool event = Server.step hash pool blocking := by
  unfold step Server.step
  cases hcorresponds with
  | connection hcarries nowMs => rw [read, Server.read, serveConnection_eq hcarries]
  | proceed id => rfl
  | backend id hdelivers => rw [read, Server.read, forward_eq hdelivers]

end Onced.Uring
