import Onced.Gateway.WireLaws

/-! # Messages that pass through

A request the gateway has parsed is written to the backend, and a response it has parsed
is written to the client. Whoever reads what was written gets the same message, with the
writer's own headers in place of the sender's, and nothing of what follows it.
-/

namespace Onced.Http

open Foundation

/-! ## Requests -/

section Requests

variable {request : Request}

/-- What was written once has nothing left for the writer to replace. -/
theorem kept_forwarded (request : Request) : kept (forwarded request) = kept request := by
  have howned : ownedByWriter "Content-Length" = true ∧
      ownedByWriter "Connection" = true := by decide
  simp [kept, forwarded, lengthHeader, List.filter_append, List.filter_filter, howned.1, howned.2]

theorem writeRequest_forwarded (request : Request) :
    writeRequest (forwarded request) = writeRequest request := by
  have hagain : forwarded (forwarded request) = forwarded request := by
    rw [forwarded, kept_forwarded]
    rfl
  rw [writeRequest, writeRequest, writeHead_eq, writeHead_eq, hagain]
  rfl

/-- A request that was parsed is read back from what the forwarder writes, with the
forwarder's own headers last; written again it is the same bytes. -/
theorem request_round_trip {source left : List UInt8}
    (hparse : parseRequest source = .ok (some request, left)) :
    ∃ again : Request, again.method = request.method ∧ again.target = request.target ∧
      again.body = request.body ∧
      again.headers = request.headers.filter (fun header =>
          !(eqIgnoreAsciiCase header.1 "content-length" ||
            eqIgnoreAsciiCase header.1 "connection")) ++
        [("Content-Length", toString request.body.length), ("Connection", "close")] ∧
      (∀ rest, parseRequest (writeRequest request ++ rest) = .ok (some again, rest)) ∧
      writeRequest again = writeRequest request := by
  refine ⟨forwarded request, rfl, rfl, rfl, rfl, ?_, writeRequest_forwarded request⟩
  intro rest
  exact parseRequest_writeRequest (parseRequest_isParsed hparse) rest

/-- A request with a header that the forwarder replaces. -/
def lookup : Request := ⟨"GET", "/health", [("connection", "keep-alive"), ("Host", "example")], []⟩

theorem parseRequest_lookup :
    parseRequest (utf8 "GET /health HTTP/1.1\r\nconnection: keep-alive\r\nHost: example\r\n\r\n") =
      .ok (some lookup, []) := by
  have hparsed : IsParsed lookup := by
    constructor
    case method => constructor <;> decide
    case target => constructor <;> decide
    case headers =>
      intro header hheader
      simp only [lookup, List.mem_cons, List.not_mem_nil, or_false] at hheader
      rcases hheader with rfl | rfl <;> constructor <;> decide
    case body => decide
  have hread := parseRequest_requestLine hparsed (lookup.headers.flatMap writeHeader ++
    (utf8 "\r\n" ++ []))
  rw [readHeaders_written hparsed.headers] at hread
  exact hread

theorem request_round_trip_lookup :
    ∃ again : Request,
      again.headers = [("Host", "example"), ("Content-Length", "0"), ("Connection", "close")] ∧
      parseRequest (writeRequest lookup ++ [7]) = .ok (some again, [7]) := by
  obtain ⟨again, -, -, -, hheaders, hread, -⟩ := request_round_trip parseRequest_lookup
  exact ⟨again, hheaders, hread [7]⟩

end Requests

/-! ## Responses -/

/-- What the parser of responses can produce. -/
structure IsAnswer (response : Response) : Prop where
  headers : ∀ header ∈ response.headers, IsHeader header
  body : response.body.length ≤ isizeMax

/-- The response as the client reads it. -/
def delivered (response : Response) : Response :=
  { response with headers := ("Content-Length", toString response.body.length) ::
      response.headers.filter fun header => !eqIgnoreAsciiCase header.1 "content-length" }

section Responses

variable {input rest : List UInt8} {response : Response}

theorem readResponseBody_length_le {headers : List (String × String)} {body : List UInt8}
    (hbody : readResponseBody headers input = .ok (body, rest)) : body.length ≤ isizeMax := by
  cases hlength : declaredLength headers with
  | some length =>
      simp only [readResponseBody, hlength] at hbody
      exact readBody_length_le hbody
  | none =>
      -- without a usable length the body is all that is left
      simp only [readResponseBody, hlength, readToEnd] at hbody
      split at hbody
      next => cases hbody
      next hfits =>
        cases hbody
        exact Nat.le_of_not_lt hfits

theorem parseResponse_isAnswer (hparse : parseResponse input = .ok (response, rest)) :
    IsAnswer response := by
  obtain ⟨text, after, left, -, -, hheaders, hbody⟩ := parseResponse_eq_ok hparse
  exact ⟨readHeaders_isHeader hheaders fun _ hmem => absurd hmem List.not_mem_nil,
    readResponseBody_length_le hbody⟩

/-- A reason phrase is text that ends the status line. -/
theorem reasonPhrase_visible (status : UInt16) :
    '\n' ∉ (reasonPhrase status).toList ∧
      (reasonPhrase status).toList.rdropWhile isLineEnd = (reasonPhrase status).toList := by
  unfold reasonPhrase
  split <;> decide

theorem statusLine_toList (response : Response) :
    (statusLine response).toList = "HTTP/1.1".toList ++
      ' ' :: ((toString response.status.toNat).toList ++
        ' ' :: (reasonPhrase response.status).toList) := by
  simp [statusLine]

theorem newline_not_mem_statusLine (response : Response) :
    '\n' ∉ (statusLine response).toList := by
  have hdigits : '\n' ∉ (toString response.status.toNat).toList :=
    fun hmem => absurd (isDigit_of_mem_toString hmem) (by decide)
  rw [statusLine_toList, List.mem_append, List.mem_cons, List.mem_append, List.mem_cons]
  simp only [hdigits, (reasonPhrase_visible response.status).1]
  decide

/-- The status is read back from the status line. -/
theorem parseStatus_statusLine (response : Response) :
    parseStatus (statusLine response ++ "\r\n") = some response.status := by
  have htrim : trimLineEnd (statusLine response) = statusLine response := by
    have hfront : "HTTP/1.1".toList ++ ' ' :: ((toString response.status.toNat).toList ++
        ' ' :: (reasonPhrase response.status).toList) =
        ("HTTP/1.1".toList ++ ' ' :: (toString response.status.toNat).toList) ++
          ' ' :: (reasonPhrase response.status).toList := by simp
    rw [trimLineEnd, statusLine_toList, hfront, rdropWhile_append_cons (by decide),
      (reasonPhrase_visible response.status).2, ← hfront, ← statusLine_toList, String.ofList_toList]
  have hspace : ' ' ∉ (toString response.status.toNat).toList :=
    fun hmem => absurd (isDigit_of_mem_toString hmem) (by decide)
  rw [parseStatus, trimLineEnd_crlf, htrim, statusLine_toList,
    List.splitOn_append_cons_self_of_not_mem (by decide),
    List.splitOn_append_cons_self_of_not_mem hspace]
  simp only [List.getElem?_cons_succ, List.getElem?_cons_zero, Option.bind_some,
    String.ofList_toList]
  rw [parseU16, parseUnsigned_toString response.status.toNat_lt, Option.map_some,
    UInt16.ofNat_toNat]

theorem isHeader_delivered (hanswer : IsAnswer response) :
    ∀ header ∈ (delivered response).headers, IsHeader header := by
  intro header hheader
  rcases List.mem_cons.mp hheader with rfl | hkept
  · exact isHeader_contentLength response.body.length
  · exact hanswer.headers header (List.mem_filter.mp hkept).1

theorem writeResponse_eq (response : Response) :
    writeResponse response = utf8 (statusLine response ++ "\r\n") ++
      ((delivered response).headers.flatMap writeHeader ++ (utf8 "\r\n" ++ response.body)) := by
  rw [writeResponse,
    flatMap_skip (fun header => eqIgnoreAsciiCase header.1 "content-length") writeHeader]
  simp [delivered]

theorem declaredLength_delivered (hanswer : IsAnswer response) :
    declaredLength (delivered response).headers = some response.body.length := by
  have hname : eqIgnoreAsciiCase "Content-Length" "content-length" = true := by decide
  rw [declaredLength, delivered, List.find?_cons, hname, Option.bind_some, parseUsize,
    parseUnsigned_toString (Nat.lt_of_le_of_lt hanswer.body (by decide))]

/-- A response is read back with the writer's own length in front, up to its last byte. -/
theorem parseResponse_writeResponse (hanswer : IsAnswer response) (rest : List UInt8) :
    parseResponse (writeResponse response ++ rest) = .ok (delivered response, rest) := by
  have hnonempty : statusLine response ++ "\r\n" ≠ "" := by
    intro hempty
    have hlength := congrArg (fun text => text.toList.length) hempty
    simp at hlength
  rw [writeResponse_eq, List.append_assoc, List.append_assoc, List.append_assoc,
    parseResponse_eq (readLine_crlf (newline_not_mem_statusLine response) _) hnonempty
      (parseStatus_statusLine response),
    readHeaders_written (isHeader_delivered hanswer)]
  simp only [Except.bind, List.nil_append, readResponseBody, declaredLength_delivered hanswer]
  rw [readBody_written hanswer.body]
  rfl

/-- A response that was parsed, whatever told the length of its body, is read back from
what the gateway writes to its client, with the gateway's own length first. -/
theorem response_round_trip {source left : List UInt8}
    (hparse : parseResponse source = .ok (response, left)) (rest : List UInt8) :
    parseResponse (writeResponse response ++ rest) =
      .ok (⟨response.status, ("Content-Length", toString response.body.length) ::
        response.headers.filter (fun header => !eqIgnoreAsciiCase header.1 "content-length"),
        response.body⟩, rest) :=
  parseResponse_writeResponse (parseResponse_isAnswer hparse) rest

/-- A response whose body extends to the end of the input. -/
theorem response_round_trip_closing :
    parseResponse (utf8 "HTTP/1.0 204\r\n\r\nhello") = .ok (⟨204, [], utf8 "hello"⟩, []) ∧
      parseResponse (writeResponse ⟨204, [], utf8 "hello"⟩ ++ [7]) =
        .ok (⟨204, [("Content-Length", "5")], utf8 "hello"⟩, [7]) := by
  have hblank : readLine (utf8 ("" ++ "\r\n") ++ utf8 "hello") = .ok ("" ++ "\r\n", utf8 "hello") :=
    readLine_crlf (by simp) _
  have hparse : parseResponse (utf8 ("HTTP/1.0 204" ++ "\r\n") ++ (utf8 ("" ++ "\r\n") ++
      utf8 "hello")) = .ok (⟨204, [], utf8 "hello"⟩, []) := by
    rw [@parseResponse_eq _ _ _ 204 (readLine_crlf (by decide) _) (by decide) (by decide),
      readHeaders_blank hblank (by decide)]
    rfl
  exact ⟨hparse, response_round_trip hparse [7]⟩

end Responses

end Onced.Http
