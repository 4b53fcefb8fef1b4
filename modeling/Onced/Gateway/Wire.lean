import Onced.Foundation.Lines
import Onced.Gateway.Http

/-! # Messages on the wire

The parser reads a request or status line, header lines up to a blank one, and a body of
as many bytes as the first `Content-Length` header says. Input that ends before the blank
line counts as the end of the headers. A response without a usable length extends to the
end of the input. The writer of requests sets `Content-Length` and `Connection` itself,
after the other headers; the writer of responses puts its `Content-Length` first.
-/

namespace Onced.Http

open Foundation

inductive Error where
  /-- `read_line` met bytes that are not UTF-8. -/
  | invalidUtf8
  /-- Malformed data, as `invalid` reports it. -/
  | invalid (message : String)
  /-- `read_exact` met the end of the input. -/
  | unexpectedEof
  deriving DecidableEq

inductive Fault where
  | failed (error : Error)
  /-- The capacity of a buffer overflows. -/
  | panicked
  deriving DecidableEq

/-- A reader of the bytes that are left. -/
abbrev ReadM := StateT (List UInt8) (Except Fault)

/-! ## Text -/

section Bytes

variable {text : String} {bytes : List UInt8}

theorem utf8_append (one other : String) : utf8 (one ++ other) = utf8 one ++ utf8 other := by
  simp [utf8]

theorem utf8_eq_flatMap (text : String) :
    utf8 text = text.toList.flatMap String.utf8EncodeChar := by
  rw [utf8, ← String.utf8Encode_toList, List.utf8Encode, List.toList_data_toByteArray]

theorem utf8_eq_nil_iff : utf8 text = [] ↔ text = "" := by
  rw [← String.toByteArray_inj, ByteArray.ext_iff, ← Array.toList_inj]
  rfl

theorem fromUTF8?_eq_some_iff :
    String.fromUTF8? bytes.toByteArray = some text ↔ utf8 text = bytes := by
  constructor
  · intro hdecode
    rw [String.fromUTF8?] at hdecode
    split at hdecode
    next =>
      obtain rfl := Option.some.inj hdecode
      exact List.toList_data_toByteArray
    next => contradiction
  · rintro rfl
    have hbytes : (utf8 text).toByteArray = text.toByteArray := by
      ext1
      simp [utf8]
    rw [hbytes, String.fromUTF8?, dif_pos text.isValidUTF8]
    rfl

/-- Only the character itself has an ASCII byte in its encoding. -/
theorem ascii_mem_utf8EncodeChar {c ascii : Char} (hascii : ascii.toNat < 128) :
    UInt8.ofNat ascii.toNat ∈ String.utf8EncodeChar c ↔ c = ascii := by
  have hbyte : ∀ {n : Nat}, n < 256 →
      (UInt8.ofNat ascii.toNat = UInt8.ofNat n ↔ ascii.toNat = n) := by
    intro n hn
    rw [← UInt8.toNat_inj, UInt8.toNat_ofNat_of_lt' (Nat.lt_trans hascii (by decide)),
      UInt8.toNat_ofNat_of_lt' hn]
  have hchar : c = ascii ↔ ascii.toNat = c.val.toNat := by
    rw [Char.ext_iff, ← UInt32.toNat_inj, eq_comm]
    rfl
  rw [hchar, String.utf8EncodeChar]
  -- every byte of a longer encoding has its high bit set
  split
  · rw [List.mem_singleton, hbyte (by omega)]
  · split
    · simp only [List.mem_cons, List.not_mem_nil, or_false]
      rw [hbyte (by omega), hbyte (by omega)]
      omega
    · split
      · simp only [List.mem_cons, List.not_mem_nil, or_false]
        rw [hbyte (by omega), hbyte (by omega), hbyte (by omega)]
        omega
      · simp only [List.mem_cons, List.not_mem_nil, or_false]
        rw [hbyte (by omega), hbyte (by omega), hbyte (by omega), hbyte (by omega)]
        omega

theorem ascii_mem_utf8 {ascii : Char} (hascii : ascii.toNat < 128) :
    UInt8.ofNat ascii.toNat ∈ utf8 text ↔ ascii ∈ text.toList := by
  rw [utf8_eq_flatMap, List.mem_flatMap]
  simp [ascii_mem_utf8EncodeChar hascii]

/-- A string that is cut between two characters begins with the characters before the cut. -/
theorem toList_of_utf8_append {whole : String} (happend : utf8 text ++ bytes = utf8 whole) :
    text.toList <+: whole.toList := by
  apply List.isPrefix_of_utf8Encode_append_eq_utf8Encode bytes.toByteArray
  rw [String.utf8Encode_toList, String.utf8Encode_toList, ByteArray.ext_iff, ByteArray.data_append,
    ← Array.toList_inj, Array.toList_append, List.toList_data_toByteArray]
  exact happend

end Bytes

def isLineEnd (c : Char) : Bool := c == '\r' || c == '\n'

/-- `str::trim_end_matches(['\r', '\n'])`. -/
def trimLineEnd (line : String) : String := String.ofList (line.toList.rdropWhile isLineEnd)

/-- `char::is_whitespace`. -/
def isWhitespace (c : Char) : Bool :=
  (9 ≤ c.toNat && c.toNat ≤ 13) || (0x2000 ≤ c.toNat && c.toNat ≤ 0x200A) ||
    [0x20, 0x85, 0xA0, 0x1680, 0x2028, 0x2029, 0x202F, 0x205F, 0x3000].contains c.toNat

/-- `str::trim`. -/
def trim (text : String) : String := String.ofList (strip isWhitespace text.toList)

/-- A number may have a plus in front. -/
def dropPlus : List Char → List Char
  | '+' :: digits => digits
  | digits => digits

/-- `str::parse` for unsigned numbers of that many bits. -/
def parseUnsigned (bits : Nat) (text : String) : Option Nat :=
  let digits := dropPlus text.toList
  let value := Nat.ofDigitChars 10 digits 0
  if digits ≠ [] ∧ digits.all Char.isDigit ∧ value < 2 ^ bits then some value else none

/-- `str::parse::<usize>` on a 64-bit machine. -/
def parseUsize (text : String) : Option Nat := parseUnsigned 64 text

/-- `str::parse::<u16>`. -/
def parseU16 (text : String) : Option UInt16 := (parseUnsigned 16 text).map UInt16.ofNat

/-! ## Reading -/

/-- `BufRead::read_line`: the empty string at the end of the input, and only there. -/
def readLine : ReadM String := fun input =>
  let (line, rest) := cutLine (UInt8.ofNat '\n'.toNat) input
  match String.fromUTF8? line.toByteArray with
  | some text => .ok (text, rest)
  | none => .error (.failed .invalidUtf8)

section Lines

variable {input rest : List UInt8} {text : String}

theorem readLine_eq_ok_iff :
    readLine input = .ok (text, rest) ↔
      cutLine (UInt8.ofNat '\n'.toNat) input = (utf8 text, rest) := by
  have hself : String.fromUTF8? (utf8 text).toByteArray = some text := fromUTF8?_eq_some_iff.mpr rfl
  simp only [readLine]
  cases hdecode : String.fromUTF8? (cutLine (UInt8.ofNat '\n'.toNat) input).1.toByteArray with
  | none =>
      refine ⟨fun herror => (nomatch herror), fun hcut => ?_⟩
      rw [hcut, hself] at hdecode
      contradiction
  | some decoded =>
      constructor
      · intro hok
        cases hok
        exact Prod.ext (fromUTF8?_eq_some_iff.mp hdecode).symm rfl
      · intro hcut
        rw [hcut, hself] at hdecode
        obtain rfl := Option.some.inj hdecode
        rw [hcut]

theorem readLine_nil : readLine [] = .ok ("", []) := readLine_eq_ok_iff.mpr rfl

theorem readLine_eq_error {fault : Fault} (hread : readLine input = .error fault) :
    fault = .failed .invalidUtf8 := by
  simp only [readLine] at hread
  split at hread
  next => cases hread
  next => exact (Except.error.inj hread).symm

theorem readLine_rest_length (hread : readLine input = .ok (text, rest)) (htext : text ≠ "") :
    rest.length < input.length := by
  have happend : utf8 text ++ rest = input := by
    have hcut := @cutLine_append _ _ (UInt8.ofNat '\n'.toNat) input
    rwa [readLine_eq_ok_iff.mp hread] at hcut
  have hpos : 0 < (utf8 text).length := List.length_pos_iff.mpr (mt utf8_eq_nil_iff.mp htext)
  rw [← happend, List.length_append]
  omega

end Lines

/-- The header loop; a line without a colon is refused with the message. -/
def readHeaders (malformed : String) (headers : List (String × String)) (input : List UInt8) :
    Except Fault (List (String × String) × List UInt8) :=
  match hread : readLine input with
  | .error fault => .error fault
  | .ok (text, rest) =>
      -- the end of the input before the blank line is tolerated
      if htext : text = "" then .ok (headers, rest)
      else if (trimLineEnd text) = "" then .ok (headers, rest)
      else
        match splitOnce ':' (trimLineEnd text).toList with
        | some (name, value) =>
            have := readLine_rest_length hread htext
            readHeaders malformed
              (headers ++ [(trim (String.ofList name), trim (String.ofList value))]) rest
        | none => .error (.failed (.invalid malformed))
termination_by input.length

section Headers

variable {malformed : String} {input rest : List UInt8} {text : String}
variable {headers : List (String × String)}

/-- The headers end with a blank line, or with the input. -/
theorem readHeaders_blank (hline : readLine input = .ok (text, rest))
    (htrim : trimLineEnd text = "") :
    readHeaders malformed headers input = .ok (headers, rest) := by
  rw [readHeaders]
  split
  next hread => cases hline.symm.trans hread
  next hread =>
    cases hline.symm.trans hread
    split <;> rfl

theorem readHeaders_field (hline : readLine input = .ok (text, rest))
    (htrim : trimLineEnd text ≠ "") {name value : List Char}
    (hsplit : splitOnce ':' (trimLineEnd text).toList = some (name, value)) :
    readHeaders malformed headers input = readHeaders malformed
      (headers ++ [(trim (String.ofList name), trim (String.ofList value))]) rest := by
  have htext : text ≠ "" := by
    rintro rfl
    exact htrim rfl
  rw [readHeaders]
  split
  next hread => cases hline.symm.trans hread
  next hread =>
    cases hline.symm.trans hread
    rw [dif_neg htext, if_neg htrim, hsplit]

theorem readHeaders_invalid {fault : Fault} (hline : readLine input = .error fault) :
    readHeaders malformed headers input = .error fault := by
  rw [readHeaders]
  split
  next hread =>
    cases hline.symm.trans hread
    rfl
  next hread => cases hline.symm.trans hread

theorem readHeaders_malformed (hline : readLine input = .ok (text, rest))
    (htrim : trimLineEnd text ≠ "") (hsplit : splitOnce ':' (trimLineEnd text).toList = none) :
    readHeaders malformed headers input = .error (.failed (.invalid malformed)) := by
  have htext : text ≠ "" := by
    rintro rfl
    exact htrim rfl
  rw [readHeaders]
  split
  next hread => cases hline.symm.trans hread
  next hread =>
    cases hline.symm.trans hread
    rw [dif_neg htext, if_neg htrim, hsplit]

end Headers

/-- The length in the first `Content-Length` header, if it is a number. -/
def declaredLength (headers : List (String × String)) : Option Nat :=
  (headers.find? fun header => eqIgnoreAsciiCase header.1 "content-length").bind fun header =>
    parseUsize header.2

def contentLength (headers : List (String × String)) : Nat := (declaredLength headers).getD 0

/-- The largest capacity of a buffer, on a 64-bit machine. -/
def isizeMax : Nat := 2 ^ 63 - 1

/-- `vec![0u8; length]`, filled by `read_exact`. -/
def readBody (length : Nat) : ReadM (List UInt8) := fun input =>
  if length > isizeMax then .error .panicked
  else if length ≤ input.length then .ok (input.take length, input.drop length)
  else .error (.failed .unexpectedEof)

theorem readBody_short {length : Nat} {input : List UInt8} (hfits : length ≤ isizeMax)
    (hshort : input.length < length) : readBody length input = .error (.failed .unexpectedEof) := by
  rw [readBody, if_neg (Nat.not_lt.mpr hfits), if_neg (Nat.not_le.mpr hshort)]

/-- `read_to_end`. -/
def readToEnd : ReadM (List UInt8) := fun input =>
  if input.length > isizeMax then .error .panicked else .ok (input, [])

/-- The first two words of the request line. -/
def splitRequestLine (requestLine : String) : String × String :=
  let parts := (trimLineEnd requestLine).toList.splitOn ' '
  (String.ofList (parts[0]?.getD []), String.ofList (parts[1]?.getD []))

/-- What a request header without a colon is refused with. -/
def malformedHeader : String := "malformed header line"

/-- Nothing for an input that is empty. -/
def parseRequest : ReadM (Option Request) := do
  let requestLine ← readLine
  if requestLine = "" then return none
  else
    let (method, target) := splitRequestLine requestLine
    if method = "" ∨ target = "" then throw (.failed (.invalid "malformed request line"))
    else
      let headers ← readHeaders malformedHeader []
      let body ← readBody (contentLength headers)
      return some ⟨method, target, headers, body⟩

section Parsing

variable {input after rest : List UInt8} {text method target : String} {request : Request}

theorem parseRequest_invalid {fault : Fault} (hline : readLine input = .error fault) :
    parseRequest input = .error fault := by
  simp only [parseRequest, bind, StateT.bind, Except.bind, hline]

theorem parseRequest_closed (hline : readLine input = .ok ("", after)) :
    parseRequest input = .ok (none, after) := by
  simp only [parseRequest, bind, StateT.bind, Except.bind, hline, if_true]
  rfl

theorem parseRequest_malformed (hline : readLine input = .ok (text, after)) (htext : text ≠ "")
    (hparts : (splitRequestLine text).1 = "" ∨ (splitRequestLine text).2 = "") :
    parseRequest input = .error (.failed (.invalid "malformed request line")) := by
  simp only [parseRequest, bind, StateT.bind, Except.bind, hline, htext, if_false, hparts, if_true]
  rfl

theorem parseRequest_eq (hline : readLine input = .ok (text, after)) (htext : text ≠ "")
    (hparts : ¬ ((splitRequestLine text).1 = "" ∨ (splitRequestLine text).2 = "")) :
    parseRequest input = (readHeaders malformedHeader [] after).bind fun result =>
      (readBody (contentLength result.1) result.2).map fun last =>
        (some ⟨(splitRequestLine text).1, (splitRequestLine text).2, result.1, last.1⟩,
          last.2) := by
  simp only [parseRequest, bind, StateT.bind, Except.bind, hline, htext, if_false, hparts]
  cases readHeaders malformedHeader [] after with
  | error fault => rfl
  | ok result =>
      simp only [Except.map]
      cases readBody (contentLength result.1) result.2 <;> rfl

/-- What two reads in a row come to, when both succeed. -/
theorem bind_map_eq_ok {α β γ : Type} {first : Except Fault (α × List UInt8)}
    (second : α → ReadM β) (combine : α → β → γ) {value : γ} {rest : List UInt8}
    (hreads : (first.bind fun result =>
      (second result.1 result.2).map fun last => (combine result.1 last.1, last.2)) =
        .ok (value, rest)) :
    ∃ one left other, first = .ok (one, left) ∧ second one left = .ok (other, rest) ∧
      value = combine one other := by
  cases first with
  | error fault => cases hreads
  | ok result =>
      obtain ⟨one, left⟩ := result
      change (second one left).map _ = _ at hreads
      cases hsecond : second one left with
      | error fault =>
          rw [hsecond] at hreads
          cases hreads
      | ok last =>
          rw [hsecond] at hreads
          simp only [Except.map, Except.ok.injEq, Prod.mk.injEq] at hreads
          obtain ⟨rfl, rfl⟩ := hreads
          exact ⟨one, left, last.1, rfl, hsecond, rfl⟩

theorem parseRequest_eq_some (hparse : parseRequest input = .ok (some request, rest)) :
    ∃ text after left, readLine input = .ok (text, after) ∧
      splitRequestLine text = (request.method, request.target) ∧ request.method ≠ "" ∧
      request.target ≠ "" ∧ readHeaders malformedHeader [] after = .ok (request.headers, left) ∧
      readBody (contentLength request.headers) left = .ok (request.body, rest) := by
  cases hline : readLine input with
  | error fault => cases hparse.symm.trans (parseRequest_invalid hline)
  | ok first =>
      obtain ⟨text, after⟩ := first
      by_cases htext : text = ""
      · subst htext
        cases hparse.symm.trans (parseRequest_closed hline)
      by_cases hparts : (splitRequestLine text).1 = "" ∨ (splitRequestLine text).2 = ""
      · cases hparse.symm.trans (parseRequest_malformed hline htext hparts)
      rw [parseRequest_eq hline htext hparts] at hparse
      obtain ⟨headers, left, body, hheaders, hbody, hrequest⟩ := bind_map_eq_ok
        (fun headers => readBody (contentLength headers)) (fun headers body => some
          (Request.mk (splitRequestLine text).1 (splitRequestLine text).2 headers body)) hparse
      obtain rfl := Option.some.inj hrequest
      rw [not_or] at hparts
      exact ⟨text, after, left, rfl, rfl, hparts.1, hparts.2, hheaders, hbody⟩

end Parsing

/-- What a response header without a colon is refused with. -/
def malformedResponseHeader : String := "malformed response header"

/-- The second word of the status line, if it is a number. -/
def parseStatus (statusLine : String) : Option UInt16 :=
  ((trimLineEnd statusLine).toList.splitOn ' ')[1]?.bind fun code => parseU16 (String.ofList code)

/-- The body that follows these headers. -/
def readResponseBody (headers : List (String × String)) : ReadM (List UInt8) :=
  match declaredLength headers with
  | some length => readBody length
  | none => readToEnd

def parseResponse : ReadM Response := do
  let statusLine ← readLine
  if statusLine = "" then throw (.failed (.invalid "empty response"))
  else
    match parseStatus statusLine with
    | none => throw (.failed (.invalid "bad status line"))
    | some status =>
        let headers ← readHeaders malformedResponseHeader []
        let body ← readResponseBody headers
        return ⟨status, headers, body⟩

section Responses

variable {input after rest : List UInt8} {text : String} {status : UInt16} {response : Response}

theorem parseResponse_invalid {fault : Fault} (hline : readLine input = .error fault) :
    parseResponse input = .error fault := by
  simp only [parseResponse, bind, StateT.bind, Except.bind, hline]

theorem parseResponse_empty (hline : readLine input = .ok ("", after)) :
    parseResponse input = .error (.failed (.invalid "empty response")) := by
  simp only [parseResponse, bind, StateT.bind, Except.bind, hline, if_true]
  rfl

theorem parseResponse_malformed (hline : readLine input = .ok (text, after)) (htext : text ≠ "")
    (hstatus : parseStatus text = none) :
    parseResponse input = .error (.failed (.invalid "bad status line")) := by
  simp only [parseResponse, bind, StateT.bind, Except.bind, hline, htext, if_false, hstatus]
  rfl

theorem parseResponse_eq (hline : readLine input = .ok (text, after)) (htext : text ≠ "")
    (hstatus : parseStatus text = some status) :
    parseResponse input = (readHeaders malformedResponseHeader [] after).bind fun result =>
      (readResponseBody result.1 result.2).map fun last =>
        (⟨status, result.1, last.1⟩, last.2) := by
  simp only [parseResponse, bind, StateT.bind, Except.bind, hline, htext, if_false, hstatus]
  cases readHeaders malformedResponseHeader [] after with
  | error fault => rfl
  | ok result =>
      simp only [Except.map]
      cases readResponseBody result.1 result.2 <;> rfl

theorem parseResponse_eq_ok (hparse : parseResponse input = .ok (response, rest)) :
    ∃ text after left, readLine input = .ok (text, after) ∧
      parseStatus text = some response.status ∧
      readHeaders malformedResponseHeader [] after = .ok (response.headers, left) ∧
      readResponseBody response.headers left = .ok (response.body, rest) := by
  cases hline : readLine input with
  | error fault => cases hparse.symm.trans (parseResponse_invalid hline)
  | ok first =>
      obtain ⟨text, after⟩ := first
      by_cases htext : text = ""
      · subst htext
        cases hparse.symm.trans (parseResponse_empty hline)
      cases hstatus : parseStatus text with
      | none => cases hparse.symm.trans (parseResponse_malformed hline htext hstatus)
      | some status =>
          rw [parseResponse_eq hline htext hstatus] at hparse
          obtain ⟨headers, left, body, hheaders, hbody, rfl⟩ := bind_map_eq_ok readResponseBody
            (fun headers body => Response.mk status headers body) hparse
          exact ⟨text, after, left, rfl, hstatus, hheaders, hbody⟩

end Responses

/-! ## Writing -/

/-- The headers the writer leaves to itself. -/
def ownedByWriter (name : String) : Bool :=
  eqIgnoreAsciiCase name "content-length" || eqIgnoreAsciiCase name "connection"

def requestLine (request : Request) : String :=
  request.method ++ " " ++ request.target ++ " HTTP/1.1"

def headerLine (header : String × String) : String := header.1 ++ ": " ++ header.2

def writeHeader (header : String × String) : List UInt8 := utf8 (headerLine header ++ "\r\n")

/-- Everything up to the blank line. -/
def writeHead (request : Request) : List UInt8 :=
  utf8 (requestLine request ++ "\r\n") ++
    request.headers.flatMap (fun header =>
      if ownedByWriter header.1 then [] else writeHeader header) ++
    writeHeader ("Content-Length", toString request.body.length) ++
    writeHeader ("Connection", "close") ++
    utf8 "\r\n"

def writeRequest (request : Request) : List UInt8 := writeHead request ++ request.body

def reasonPhrase (status : UInt16) : String :=
  match status with
  | 200 => "OK"
  | 201 => "Created"
  | 400 => "Bad Request"
  | 409 => "Conflict"
  | 422 => "Unprocessable Entity"
  | 429 => "Too Many Requests"
  | 500 => "Internal Server Error"
  | 502 => "Bad Gateway"
  | _ => "Status"

def statusLine (response : Response) : String :=
  "HTTP/1.1 " ++ toString response.status.toNat ++ " " ++ reasonPhrase response.status

def writeResponse (response : Response) : List UInt8 :=
  utf8 (statusLine response ++ "\r\n") ++
    writeHeader ("Content-Length", toString response.body.length) ++
    response.headers.flatMap (fun header =>
      if eqIgnoreAsciiCase header.1 "content-length" then [] else writeHeader header) ++
    utf8 "\r\n" ++ response.body

end Onced.Http
