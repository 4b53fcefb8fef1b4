import Onced.Gateway.Wire

/-! # What the parser accepts, and what the writer puts on the wire

A request the parser has produced has words for its method and target, and headers
whose names and values are trimmed. Such a request is written so that the parser reads
it back, with the writer's own headers in place of the client's.
-/

namespace Onced.Http

open Foundation

/-! ## Lines -/

section Lines

variable {input rest : List UInt8} {text : String}

theorem utf8_crlf (text : String) :
    utf8 (text ++ "\r\n") = utf8 (text ++ "\r") ++ [UInt8.ofNat '\n'.toNat] := by
  rw [show text ++ "\r\n" = (text ++ "\r") ++ "\n" by rw [String.append_assoc]; rfl, utf8_append]
  rfl

theorem newline_not_mem_utf8 (htext : '\n' ∉ text.toList) :
    UInt8.ofNat '\n'.toNat ∉ utf8 (text ++ "\r") := by
  rw [ascii_mem_utf8 (by decide), String.toList_append, List.mem_append]
  rintro (hmem | hmem)
  · exact htext hmem
  · exact absurd hmem (by decide)

theorem readLine_crlf (htext : '\n' ∉ text.toList) (rest : List UInt8) :
    readLine (utf8 (text ++ "\r\n") ++ rest) = .ok (text ++ "\r\n", rest) := by
  rw [readLine_eq_ok_iff, utf8_crlf, List.append_assoc]
  exact cutLine_terminated (newline_not_mem_utf8 htext) rest

theorem readLine_open (htext : '\n' ∉ text.toList) : readLine (utf8 text) = .ok (text, []) := by
  rw [readLine_eq_ok_iff]
  apply cutLine_of_not_mem
  rwa [ascii_mem_utf8 (by decide)]

/-- A line has no newline but for the one at its end. -/
theorem readLine_content (hread : readLine input = .ok (text, rest)) :
    ∃ content, '\n' ∉ content ∧ (text.toList = content ∨ text.toList = content ++ ['\n']) := by
  by_cases hmem : '\n' ∈ text.toList
  · obtain ⟨content, after, htext, hcontent⟩ := List.eq_append_cons_of_mem hmem
    refine ⟨content, hcontent, Or.inr ?_⟩
    have hutf8 : utf8 text = utf8 (String.ofList content) ++
        UInt8.ofNat '\n'.toNat :: utf8 (String.ofList after) := by
      simp only [utf8_eq_flatMap, htext, String.toList_ofList, List.flatMap_append,
        List.flatMap_cons]
      rfl
    have hclean : UInt8.ofNat '\n'.toNat ∉ utf8 (String.ofList content) := by
      rwa [ascii_mem_utf8 (by decide), String.toList_ofList]
    -- the line ends with its first newline, so nothing comes after it
    have hcut := cutLine_terminated hclean (utf8 (String.ofList after))
    have hends := @cutLine_content _ _ (UInt8.ofNat '\n'.toNat) input
    rw [readLine_eq_ok_iff.mp hread] at hends
    obtain ⟨bytes, hbytes, (hline : utf8 text = _) | (hline : utf8 text = _)⟩ := hends
    · rw [← ascii_mem_utf8 (by decide), hline] at hmem
      exact absurd hmem hbytes
    · rw [← hutf8, hline, cutLine_terminated hbytes []] at hcut
      have hafter : String.ofList after = "" := utf8_eq_nil_iff.mp (congrArg Prod.snd hcut).symm
      rw [htext, ← String.toList_ofList (l := after), hafter]
      rfl
  · exact ⟨text.toList, hmem, Or.inl rfl⟩

theorem newline_not_mem_trimLineEnd (hread : readLine input = .ok (text, rest)) :
    '\n' ∉ (trimLineEnd text).toList := by
  obtain ⟨content, hcontent, htext | htext⟩ := readLine_content hread
  · rw [trimLineEnd, String.toList_ofList, htext]
    exact fun hmem => hcontent (mem_of_mem_rdropWhile hmem)
  · rw [trimLineEnd, String.toList_ofList, htext, rdropWhile_append_of_forall (by simp [isLineEnd])]
    exact fun hmem => hcontent (mem_of_mem_rdropWhile hmem)

theorem trimLineEnd_crlf (text : String) : trimLineEnd (text ++ "\r\n") = trimLineEnd text := by
  rw [trimLineEnd, String.toList_append, rdropWhile_append_of_forall (by simp [isLineEnd]),
    trimLineEnd]

end Lines

/-! ## Requests the parser produces -/

/-- What can stand in a request line. -/
structure IsWord (text : String) : Prop where
  nonempty : text ≠ ""
  noSpace : ' ' ∉ text.toList
  noNewline : '\n' ∉ text.toList

/-- What can stand in a header line. -/
structure IsHeader (header : String × String) : Prop where
  noColon : ':' ∉ header.1.toList
  nameNoNewline : '\n' ∉ header.1.toList
  valueNoNewline : '\n' ∉ header.2.toList
  nameTrimmed : trim header.1 = header.1
  valueTrimmed : trim header.2 = header.2

structure IsParsed (request : Request) : Prop where
  method : IsWord request.method
  target : IsWord request.target
  headers : ∀ header ∈ request.headers, IsHeader header
  body : request.body.length ≤ isizeMax

section Parsed

variable {malformed : String} {input rest : List UInt8} {request : Request}

theorem strip_of_trim {text : String} (htrim : trim text = text) :
    strip isWhitespace text.toList = text.toList := by
  conv_rhs => rw [← htrim, trim, String.toList_ofList]

theorem isWhitespace_of_lineEnd (c : Char) (hend : isLineEnd c = true) : isWhitespace c = true := by
  rw [isLineEnd, Bool.or_eq_true, beq_iff_eq, beq_iff_eq] at hend
  rcases hend with rfl | rfl <;> decide

theorem trim_trim (text : String) : trim (trim text) = trim text := by
  rw [trim, trim, String.toList_ofList, strip_strip]

theorem mem_of_mem_trim {c : Char} {text : String} (hmem : c ∈ (trim text).toList) :
    c ∈ text.toList := by
  rw [trim, String.toList_ofList] at hmem
  exact mem_of_mem_strip hmem

theorem isHeader_of_splitOnce {line name value : List Char} (hline : '\n' ∉ line)
    (hsplit : splitOnce ':' line = some (name, value)) :
    IsHeader (trim (String.ofList name), trim (String.ofList value)) := by
  obtain ⟨rfl, hcolon⟩ := splitOnce_eq_some_iff.mp hsplit
  rw [List.mem_append, List.mem_cons, not_or, not_or] at hline
  constructor
  case noColon => exact fun hmem => hcolon (by simpa using mem_of_mem_trim hmem)
  case nameNoNewline => exact fun hmem => hline.1 (by simpa using mem_of_mem_trim hmem)
  case valueNoNewline => exact fun hmem => hline.2.2 (by simpa using mem_of_mem_trim hmem)
  case nameTrimmed => exact trim_trim _
  case valueTrimmed => exact trim_trim _

theorem readHeaders_isHeader {headers read : List (String × String)}
    (hread : readHeaders malformed headers input = .ok (read, rest))
    (hheaders : ∀ header ∈ headers, IsHeader header) : ∀ header ∈ read, IsHeader header := by
  fun_induction readHeaders malformed headers input with
  | case1 => cases hread
  | case2 => cases hread; exact hheaders
  | case3 => cases hread; exact hheaders
  | case4 headers _ _ _ hline _ _ name value hsplit _ ih =>
      apply ih hread
      intro header hheader
      rcases List.mem_append.mp hheader with hold | hnew
      · exact hheaders header hold
      · rw [List.mem_singleton.mp hnew]
        exact isHeader_of_splitOnce (newline_not_mem_trimLineEnd hline) hsplit
  | case5 => cases hread

theorem isWord_of_part {line : List Char} (hline : '\n' ∉ line) {index : Nat}
    (hpart : String.ofList ((line.splitOn ' ')[index]?.getD []) ≠ "") :
    IsWord (String.ofList ((line.splitOn ' ')[index]?.getD [])) := by
  obtain ⟨hfree, hsubset⟩ := @getD_splitOn _ _ ' ' line index
  refine ⟨hpart, ?_, ?_⟩
  · rwa [String.toList_ofList]
  · rw [String.toList_ofList]
    exact fun hmem => hline (hsubset hmem)

/-- No body is longer than a buffer can be. -/
theorem readBody_length_le {length : Nat} {body : List UInt8}
    (hbody : readBody length input = .ok (body, rest)) : body.length ≤ isizeMax := by
  simp only [readBody] at hbody
  split at hbody
  next => cases hbody
  next hfits =>
    split at hbody
    next hlength =>
      obtain ⟨htake, -⟩ := Prod.mk.inj (Except.ok.inj hbody)
      rw [← htake, List.length_take]
      omega
    next => cases hbody

theorem parseRequest_isParsed (hparse : parseRequest input = .ok (some request, rest)) :
    IsParsed request := by
  obtain ⟨text, after, left, hline, hparts, hmethod, htarget, hheaders, hbody⟩ :=
    parseRequest_eq_some hparse
  have hclean := newline_not_mem_trimLineEnd hline
  obtain ⟨hfirst, hsecond⟩ := Prod.mk.inj hparts
  constructor
  case method =>
    rw [← hfirst] at hmethod ⊢
    exact isWord_of_part hclean hmethod
  case target =>
    rw [← hsecond] at htarget ⊢
    exact isWord_of_part hclean htarget
  case headers => exact readHeaders_isHeader hheaders fun _ hmem => absurd hmem List.not_mem_nil
  case body => exact readBody_length_le hbody

end Parsed

/-! ## Reading back what was written -/

section Written

variable {malformed : String} {request : Request}

theorem splitRequestLine_requestLine (hmethod : IsWord request.method)
    (htarget : IsWord request.target) :
    splitRequestLine (requestLine request ++ "\r\n") = (request.method, request.target) := by
  have hline : (requestLine request).toList = request.method.toList ++
      ' ' :: (request.target.toList ++ ' ' :: "HTTP/1.1".toList) := by
    simp [requestLine]
  have htrim : trimLineEnd (requestLine request) = requestLine request := by
    rw [trimLineEnd, List.rdropWhile_eq_self_iff.mpr, String.ofList_toList]
    simp [hline, isLineEnd]
  rw [splitRequestLine, trimLineEnd_crlf, htrim, hline,
    List.splitOn_append_cons_self_of_not_mem hmethod.noSpace,
    List.splitOn_append_cons_self_of_not_mem htarget.noSpace]
  simp

/-- Headers are read back one line at a time. -/
theorem readHeaders_writeHeader {header : String × String} (hheader : IsHeader header)
    (headers : List (String × String)) (rest : List UInt8) :
    readHeaders malformed headers (writeHeader header ++ rest) =
      readHeaders malformed (headers ++ [header]) rest := by
  obtain ⟨name, value⟩ := header
  have hline : (headerLine (name, value)).toList =
      name.toList ++ ':' :: ' ' :: value.toList := by
    simp [headerLine]
  have htrim : trimLineEnd (headerLine (name, value)) = headerLine (name, value) := by
    have hfront : name.toList ++ ':' :: ' ' :: value.toList =
        (name.toList ++ [':']) ++ ' ' :: value.toList := by simp
    rw [trimLineEnd, hline, hfront, rdropWhile_append_cons (by decide),
      rdropWhile_of_stripped (strip_of_trim hheader.valueTrimmed) isWhitespace_of_lineEnd, ← hfront,
      ← hline, String.ofList_toList]
  have hnewline : '\n' ∉ (headerLine (name, value)).toList := by
    simp [hline, hheader.nameNoNewline, hheader.valueNoNewline]
  have hsplit : splitOnce ':' (trimLineEnd (headerLine (name, value) ++ "\r\n")).toList =
      some (name.toList, ' ' :: value.toList) := by
    rw [trimLineEnd_crlf, htrim, splitOnce_eq_some_iff]
    exact ⟨hline, hheader.noColon⟩
  have hvalue : trim (String.ofList (' ' :: value.toList)) = value := by
    rw [trim, String.toList_ofList, strip_cons_of_pos (by decide)]
    exact hheader.valueTrimmed
  rw [writeHeader, readHeaders_field (readLine_crlf hnewline rest) ?_ hsplit, hvalue,
    String.ofList_toList, hheader.nameTrimmed]
  rw [trimLineEnd_crlf, htrim]
  intro hempty
  simp [hempty] at hline

theorem readHeaders_flatMap {written : List (String × String)}
    (hwritten : ∀ header ∈ written, IsHeader header) (headers : List (String × String))
    (rest : List UInt8) :
    readHeaders malformed headers (written.flatMap writeHeader ++ rest) =
      readHeaders malformed (headers ++ written) rest := by
  induction written generalizing headers with
  | nil => rw [List.append_nil]; rfl
  | cons header written ih =>
      rw [List.forall_mem_cons] at hwritten
      rw [List.flatMap_cons, List.append_assoc, readHeaders_writeHeader hwritten.1,
        ih hwritten.2, List.append_assoc]
      rfl

theorem readHeaders_written {written : List (String × String)}
    (hwritten : ∀ header ∈ written, IsHeader header) (headers : List (String × String))
    (rest : List UInt8) :
    readHeaders malformed headers (written.flatMap writeHeader ++ (utf8 "\r\n" ++ rest)) =
      .ok (headers ++ written, rest) := by
  have hblank : readLine (utf8 ("" ++ "\r\n") ++ rest) = .ok ("" ++ "\r\n", rest) :=
    readLine_crlf (by simp) rest
  rw [readHeaders_flatMap hwritten]
  exact readHeaders_blank hblank (by decide)

/-- The headers the writer passes on. -/
def kept (request : Request) : List (String × String) :=
  request.headers.filter fun header => !ownedByWriter header.1

def lengthHeader (request : Request) : String × String :=
  ("Content-Length", toString request.body.length)

/-- The request as the parser reads it back. -/
def forwarded (request : Request) : Request :=
  { request with headers := kept request ++ [lengthHeader request, ("Connection", "close")] }

theorem writeHead_eq (request : Request) :
    writeHead request = utf8 (requestLine request ++ "\r\n") ++
      ((forwarded request).headers.flatMap writeHeader ++ utf8 "\r\n") := by
  rw [writeHead, flatMap_skip (fun header => ownedByWriter header.1) writeHeader]
  simp [forwarded, kept, lengthHeader]

theorem isDigit_of_mem_toString {value : Nat} {c : Char} (hmem : c ∈ (toString value).toList) :
    c.isDigit = true := by
  rw [Nat.toString_eq_ofList_toDigits, String.toList_ofList] at hmem
  exact Nat.isDigit_of_mem_toDigits (by decide) (by decide) hmem

theorem isWhitespace_of_isDigit {c : Char} (hdigit : c.isDigit = true) :
    isWhitespace c = false := by
  have hrange : 48 ≤ c.toNat ∧ c.toNat ≤ 57 := by
    simp only [Char.isDigit, Bool.and_eq_true, decide_eq_true_eq] at hdigit
    exact hdigit
  simp [isWhitespace]
  omega

theorem parseUnsigned_of_digits {bits : Nat} {digits : List Char} (hne : digits ≠ [])
    (hdigits : ∀ c ∈ digits, c.isDigit = true)
    (hvalue : Nat.ofDigitChars 10 digits 0 < 2 ^ bits) :
    parseUnsigned bits (String.ofList digits) = some (Nat.ofDigitChars 10 digits 0) := by
  have hsign : dropPlus digits = digits := by
    unfold dropPlus
    split
    next => exact absurd (hdigits '+' List.mem_cons_self) (by decide)
    next => rfl
  simp only [parseUnsigned]
  rw [String.toList_ofList, hsign, if_pos ⟨hne, List.all_eq_true.mpr hdigits, hvalue⟩]

theorem parseUnsigned_toString {bits value : Nat} (hvalue : value < 2 ^ bits) :
    parseUnsigned bits (toString value) = some value := by
  rw [Nat.toString_eq_ofList_toDigits, parseUnsigned_of_digits Nat.toDigits_ne_nil]
  · rw [Nat.ofDigitChars_ten_toDigits]
  · exact fun c hmem => Nat.isDigit_of_mem_toDigits (by decide) (by decide) hmem
  · rwa [Nat.ofDigitChars_ten_toDigits]

/-- The headers that are left to the writer are not among the others. -/
theorem find?_contentLength {headers : List (String × String)}
    (hheaders : ∀ header ∈ headers, ownedByWriter header.1 = false) :
    headers.find? (fun header => eqIgnoreAsciiCase header.1 "content-length") = none := by
  rw [List.find?_eq_none]
  intro header hheader howned
  have hfree := hheaders header hheader
  simp [ownedByWriter, howned] at hfree

theorem mem_kept {header : String × String} (hheader : header ∈ kept request) :
    header ∈ request.headers ∧ ownedByWriter header.1 = false := by
  simpa using List.mem_filter.mp hheader

theorem contentLength_append (value : String) (more : List (String × String)) :
    contentLength (kept request ++ ("Content-Length", value) :: more) =
      (parseUsize value).getD 0 := by
  have hkept := @find?_contentLength (kept request) fun header hheader => (mem_kept hheader).2
  have hname : eqIgnoreAsciiCase "Content-Length" "content-length" = true := by decide
  rw [contentLength, declaredLength, List.find?_append, hkept, Option.none_or, List.find?_cons,
    hname]
  rfl

theorem contentLength_lengthHeader (hparsed : IsParsed request) (more : List (String × String)) :
    contentLength (kept request ++ lengthHeader request :: more) = request.body.length := by
  rw [lengthHeader, contentLength_append, parseUsize,
    parseUnsigned_toString (Nat.lt_of_le_of_lt hparsed.body (by decide)), Option.getD_some]

theorem isHeader_contentLength (length : Nat) :
    IsHeader ("Content-Length", toString length) := by
  constructor
  case noColon => exact show ':' ∉ "Content-Length".toList by decide
  case nameNoNewline => exact show '\n' ∉ "Content-Length".toList by decide
  case valueNoNewline => exact fun hmem => absurd (isDigit_of_mem_toString hmem) (by decide)
  case nameTrimmed => exact show trim "Content-Length" = "Content-Length" by decide
  case valueTrimmed =>
    rw [trim, strip_of_forall, String.ofList_toList]
    exact fun c hmem => isWhitespace_of_isDigit (isDigit_of_mem_toString hmem)

theorem isHeader_forwarded (hparsed : IsParsed request) :
    ∀ header ∈ (forwarded request).headers, IsHeader header := by
  intro header hheader
  simp only [forwarded, List.mem_append, List.mem_cons, List.not_mem_nil, or_false] at hheader
  rcases hheader with hkept | rfl | rfl
  · exact hparsed.headers header (mem_kept hkept).1
  · exact isHeader_contentLength request.body.length
  · constructor <;> decide

/-- The parser takes in the request line as it was written, and goes on with the headers. -/
theorem parseRequest_requestLine (hparsed : IsParsed request) (input : List UInt8) :
    parseRequest (utf8 (requestLine request ++ "\r\n") ++ input) =
      (readHeaders malformedHeader [] input).bind fun result =>
        (readBody (contentLength result.1) result.2).map fun last =>
          (some ⟨request.method, request.target, result.1, last.1⟩, last.2) := by
  have hline : '\n' ∉ (requestLine request).toList := by
    simp [requestLine, hparsed.method.noNewline, hparsed.target.noNewline]
  have hnonempty : requestLine request ++ "\r\n" ≠ "" := by
    intro hempty
    have hlength := congrArg (fun text => text.toList.length) hempty
    simp at hlength
  have hparts := splitRequestLine_requestLine hparsed.method hparsed.target
  rw [parseRequest_eq (readLine_crlf hline input) hnonempty
    (by simp [hparts, hparsed.method.nonempty, hparsed.target.nonempty]), hparts]

/-- The parser takes in the head as it was written, and goes on with the body. -/
theorem parseRequest_writeHead (hparsed : IsParsed request) (input : List UInt8) :
    parseRequest (writeHead request ++ input) =
      (readBody request.body.length input).map fun last =>
        (some { forwarded request with body := last.1 }, last.2) := by
  rw [writeHead_eq, List.append_assoc, List.append_assoc, parseRequest_requestLine hparsed,
    readHeaders_written (isHeader_forwarded hparsed)]
  simp only [Except.bind, List.nil_append, forwarded]
  rw [contentLength_lengthHeader hparsed]

theorem readBody_written {body : List UInt8} (hbody : body.length ≤ isizeMax) (rest : List UInt8) :
    readBody body.length (body ++ rest) = .ok (body, rest) := by
  rw [readBody, if_neg (Nat.not_lt.mpr hbody), if_pos (by simp), List.take_left, List.drop_left]

/-- A request is read back with the writer's own headers, up to its last byte. -/
theorem parseRequest_writeRequest (hparsed : IsParsed request) (rest : List UInt8) :
    parseRequest (writeRequest request ++ rest) = .ok (some (forwarded request), rest) := by
  rw [writeRequest, List.append_assoc, parseRequest_writeHead hparsed,
    readBody_written hparsed.body]
  rfl

end Written

end Onced.Http
