import Onced.Gateway.Truncation

/-! # Requests that arrive in pieces

The io_uring transport parses what it has received after every read, and reads on as
long as that fails. The first part of a request that the parser accepts is taken for the
request, so the request is read as it was sent if and only if no read ends where the
parser misreads it.
-/

namespace Onced.Uring

open Http

def maxRequest : Nat := 256 * 1024

/-- What a read into the buffer delivers. -/
abbrev Chunk := {bytes : List UInt8 // bytes.length ≤ 8192}

inductive Read where
  | bytes (chunk : Chunk)
  | failed

inductive Fault where
  /-- A read failed. -/
  | io
  | panicked
  deriving DecidableEq

/-- The loop, with the bytes received so far. The peer closes the connection after the
last read. -/
def readLoop (acc : List UInt8) : List Read → Except Fault (Option Request)
  | [] => .ok none
  | .failed :: _ => .error .io
  | .bytes chunk :: reads =>
      if chunk.val = [] then .ok none
      else
        match parseRequest (acc ++ chunk.val) with
        | .ok (request, _) => .ok request
        | .error (.failed _) =>
            if (acc ++ chunk.val).length < maxRequest then readLoop (acc ++ chunk.val) reads
            else .ok none
        | .error .panicked => .error .panicked

def readRequest (reads : List Read) : Except Fault (Option Request) := readLoop [] reads

section Segments

variable {request : Request} {received : List UInt8} {chunks : List Chunk}

theorem received_append {chunk : Chunk}
    (hchunks : received ++ (chunk :: chunks).flatMap Subtype.val = writeRequest request) :
    received ++ chunk.val ++ chunks.flatMap Subtype.val = writeRequest request := by
  rw [← hchunks, List.flatMap_cons, List.append_assoc]

/-- What has been received is a first part of the request, and more is to come. -/
theorem received_length_lt {chunk : Chunk}
    (hchunks : received ++ (chunk :: chunks).flatMap Subtype.val = writeRequest request)
    (hnonempty : ∀ chunk ∈ chunks, chunk.val ≠ []) (hmore : chunks ≠ []) :
    (received ++ chunk.val).length < (writeRequest request).length := by
  obtain ⟨next, later, rfl⟩ := List.exists_cons_of_ne_nil hmore
  have hnext := List.length_pos_iff.mpr (hnonempty next List.mem_cons_self)
  rw [← hchunks]
  simp only [List.flatMap_cons, List.length_append]
  omega

/-- The loop reads on until the request is complete, if no read ends where it is misread. -/
theorem readLoop_reads (hparsed : IsParsed request)
    (hsize : (writeRequest request).length < maxRequest)
    (hchunks : received ++ chunks.flatMap Subtype.val = writeRequest request)
    (hnonempty : ∀ chunk ∈ chunks, chunk.val ≠ [])
    (hcuts : ∀ first rest, chunks = first ++ rest →
      ¬ Misread request (received ++ first.flatMap Subtype.val)) (hmore : chunks ≠ []) :
    readLoop received (chunks.map .bytes) = .ok (some (forwarded request)) := by
  induction chunks generalizing received with
  | nil => contradiction
  | cons chunk chunks ih =>
      rw [List.forall_mem_cons] at hnonempty
      rw [List.map_cons, readLoop, if_neg hnonempty.1]
      have hsplit := received_append hchunks
      by_cases hlast : chunks = []
      · subst hlast
        rw [List.flatMap_nil, List.append_nil] at hsplit
        have hwhole := parseRequest_writeRequest hparsed []
        rw [List.append_nil, ← hsplit] at hwhole
        rw [hwhole]
      · have hshort := received_length_lt hchunks hnonempty.2 hlast
        rcases reads_of_not_misread hparsed (by simp [hnonempty.1]) ⟨_, hsplit⟩ hshort
          (by simpa using hcuts [chunk] chunks rfl) with ⟨error, hfailed⟩ | ⟨hread, -⟩
        · rw [hfailed]
          simp only
          rw [if_pos (hshort.trans hsize)]
          apply ih hsplit hnonempty.2 ?_ hlast
          intro first rest hrest
          have hcut := hcuts (chunk :: first) rest (by rw [hrest]; rfl)
          rwa [List.flatMap_cons, ← List.append_assoc] at hcut
        · rw [hread]

/-- The loop stops where the request is misread. -/
theorem readLoop_misreads (hparsed : IsParsed request)
    (hchunks : received ++ chunks.flatMap Subtype.val = writeRequest request)
    (hnonempty : ∀ chunk ∈ chunks, chunk.val ≠ []) {first rest : List Chunk}
    (hfirst : chunks = first ++ rest) (hreceived : ¬ Misread request received)
    (hmisread : Misread request (received ++ first.flatMap Subtype.val)) :
    readLoop received (chunks.map .bytes) ≠ .ok (some (forwarded request)) := by
  induction chunks generalizing received first with
  | nil =>
      obtain rfl : first = [] := (List.append_eq_nil_iff.mp hfirst.symm).1
      rw [List.flatMap_nil, List.append_nil] at hmisread
      contradiction
  | cons chunk chunks ih =>
      rw [List.forall_mem_cons] at hnonempty
      rw [List.map_cons, readLoop, if_neg hnonempty.1]
      have hsplit := received_append hchunks
      rcases first with _ | ⟨one, first⟩
      · rw [List.flatMap_nil, List.append_nil] at hmisread
        contradiction
      obtain ⟨rfl, hlater⟩ := List.cons.inj hfirst
      rw [List.flatMap_cons, ← List.append_assoc] at hmisread
      by_cases hhere : Misread request (received ++ chunk.val)
      · obtain ⟨other, hother, hne⟩ := hhere.accepted hparsed
        rw [hother]
        intro hsame
        exact hne (Option.some.inj (Except.ok.inj hsame))
      have hlast : chunks ≠ [] := by
        rintro rfl
        obtain rfl : first = [] := (List.append_eq_nil_iff.mp hlater.symm).1
        rw [List.flatMap_nil, List.append_nil] at hmisread
        contradiction
      rcases reads_of_not_misread hparsed (by simp [hnonempty.1]) ⟨_, hsplit⟩
        (received_length_lt hchunks hnonempty.2 hlast) hhere with ⟨error, hfailed⟩ | ⟨-, hend⟩
      · rw [hfailed]
        simp only
        split
        · exact ih hsplit hnonempty.2 hlater hhere hmisread
        · exact fun hnone => nomatch hnone
      · -- the headers are complete, and what is misread comes before
        have hlt := hmisread.lt_headersEnd
        rw [List.length_append] at hlt
        omega

end Segments

/-- However a request is split up, it is read as if it had arrived at once, if and only
if no read ends where it is misread. -/
theorem segmentation_independent_iff {source rest : List UInt8} {request : Request}
    (hparse : parseRequest source = .ok (some request, rest))
    (hsize : (writeRequest request).length < maxRequest) {chunks : List Chunk}
    (hchunks : chunks.flatMap Subtype.val = writeRequest request)
    (hnonempty : ∀ chunk ∈ chunks, chunk.val ≠ []) :
    (∃ parsed, parseRequest (writeRequest request) = .ok (some parsed, []) ∧
        readRequest (chunks.map .bytes) = .ok (some parsed)) ↔
      ∀ first rest, chunks = first ++ rest →
        ¬ Misread request (first.flatMap Subtype.val) := by
  have hparsed := parseRequest_isParsed hparse
  have hwhole := parseRequest_writeRequest hparsed []
  rw [List.append_nil] at hwhole
  have hstart : ¬ Misread request [] := by
    intro hmisread
    obtain ⟨other, hother, -⟩ := hmisread.accepted hparsed
    cases hother.symm.trans (parseRequest_closed readLine_nil)
  constructor
  · rintro ⟨parsed, hsame, hread⟩ first later hfirst hmisread
    cases hwhole.symm.trans hsame
    exact readLoop_misreads hparsed hchunks hnonempty hfirst hstart hmisread hread
  · intro hcuts
    refine ⟨forwarded request, hwhole, readLoop_reads hparsed hsize hchunks hnonempty hcuts ?_⟩
    rintro rfl
    rw [← hchunks] at hwhole
    cases hwhole.symm.trans (parseRequest_closed readLine_nil)

def order : Request :=
  ⟨"POST", "/charge", [("Idempotency-Key", "k"), ("Content-Length", "1"), ("Connection", "close")],
    [7]⟩

theorem order_parsed : IsParsed order := by
  refine ⟨by constructor <;> decide, by constructor <;> decide, ?_, by decide⟩
  intro header hheader
  simp only [order, List.mem_cons, List.not_mem_nil, or_false] at hheader
  rcases hheader with rfl | rfl | rfl <;> constructor <;> decide

theorem parseRequest_order : parseRequest (writeRequest order) = .ok (some order, []) := by
  have hwhole := parseRequest_writeRequest order_parsed []
  rwa [List.append_nil, show forwarded order = order by decide] at hwhole

def orderHead : Chunk := ⟨writeHead order, by decide⟩

def orderBody : Chunk := ⟨order.body, by decide⟩

/-- The head of the order comes in one read, and its body in another. -/
theorem segmentation_independent_iff_order :
    ∃ parsed, parseRequest (writeRequest order) = .ok (some parsed, []) ∧
      readRequest [.bytes orderHead, .bytes orderBody] = .ok (some parsed) := by
  refine (@segmentation_independent_iff _ _ _ parseRequest_order (by decide) [orderHead, orderBody]
    rfl (by decide)).mpr fun first rest hsplit hmisread => ?_
  have hlt := hmisread.lt_headersEnd
  have hend : headersEnd order ≤ (writeHead order).length := by decide
  rcases first with _ | ⟨one, first⟩
  · obtain ⟨other, hother, -⟩ := hmisread.accepted order_parsed
    cases hother.symm.trans (parseRequest_closed readLine_nil)
  · obtain ⟨rfl, -⟩ := List.cons.inj hsplit
    rw [List.flatMap_cons, List.length_append] at hlt
    exact absurd hlt (Nat.not_lt.mpr (hend.trans (Nat.le_add_right _ _)))

/-- The first read ends with the request line, and the order goes on without its key and
without its body. -/
theorem order_cut_short :
    parseRequest (writeRequest order) = .ok (some order, []) ∧
      (writeRequest order).length < maxRequest ∧
      ∃ first second : Chunk, first.val ≠ [] ∧ second.val ≠ [] ∧
        first.val ++ second.val = writeRequest order ∧
        readRequest [.bytes first, .bytes second] = .ok (some ⟨"POST", "/charge", [], []⟩) := by
  have hcut := @parseRequest_cut _ order_parsed [] [] (readHeaders_blank readLine_nil rfl) rfl
  refine ⟨parseRequest_order, by decide, ⟨utf8 (requestLine order ++ "\r\n"), by decide⟩,
    ⟨(forwarded order).headers.flatMap writeHeader ++ (utf8 "\r\n" ++ order.body), by decide⟩,
    by decide, by decide, ?_, ?_⟩
  · simp [writeRequest, writeHead_eq]
  · rw [readRequest, readLoop, if_neg (by decide), List.nil_append]
    rw [List.append_nil] at hcut
    rw [hcut]
    rfl

end Onced.Uring
