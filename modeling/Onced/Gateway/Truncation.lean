import Onced.Gateway.WireLaws

/-! # Requests that are cut short

What the parser makes of the first part of a written request. A line that is cut short
is read as if it ended there, so the parser fails only where the cut leaves no target, a
header without its colon, half a character, or a body with bytes missing. Everywhere
else it takes what is there for a whole request.
-/

namespace Onced.Http

open Foundation

/-- Everything before the writer's own headers. -/
def opening (request : Request) : List UInt8 :=
  utf8 (requestLine request ++ "\r\n") ++ (kept request).flatMap writeHeader

/-- The cuts at which something else than the request is read: in the target or after
it, at the end of a header line or after the colon in one, up to where the length of a
body begins, or, if there is no body, up to the end of the last header. -/
inductive Misread (request : Request) : List UInt8 → Prop where
  | target {part : String} (hpart : part.toList <+: (request.target ++ " HTTP/1.1\r").toList)
      (hvisible : ∃ c ∈ part.toList, c ≠ '\r') :
      Misread request (utf8 (request.method ++ " " ++ part))
  | header {first later : List (String × String)} (hkept : kept request = first ++ later) :
      Misread request (utf8 (requestLine request ++ "\r\n") ++ first.flatMap writeHeader)
  | value {first later : List (String × String)} {name value part : String}
      (hkept : kept request = first ++ (name, value) :: later)
      (hpart : part.toList <+: (" " ++ value ++ "\r").toList) :
      Misread request (utf8 (requestLine request ++ "\r\n") ++ first.flatMap writeHeader ++
        utf8 (name ++ ":" ++ part))
  | length {part : String} (hpart : part.toList <+:
      (" " ++ (lengthHeader request).2 ++ "\r").toList)
      (hdigits : request.body = [] ∨ part.toList.length < 2) :
      Misread request (opening request ++ utf8 ("Content-Length" ++ ":" ++ part))
  | lengthEnd (hbody : request.body = []) :
      Misread request (opening request ++ writeHeader (lengthHeader request))
  | connection {part : String} (hpart : part.toList <+: " close\r".toList)
      (hbody : request.body = []) (hclose : part.toList.length < 6) :
      Misread request (opening request ++ writeHeader (lengthHeader request) ++
        utf8 ("Connection" ++ ":" ++ part))

/-! ## Lines that are cut short -/

section Lines

variable {line : String} {part : List UInt8}

theorem readLine_partial (hline : '\n' ∉ line.toList) (hpart : part <+: utf8 (line ++ "\r\n"))
    (hproper : part ≠ utf8 (line ++ "\r\n")) :
    readLine part = .error (.failed .invalidUtf8) ∨
      ∃ text : String, utf8 text = part ∧ text.toList <+: line.toList ++ ['\r'] ∧
        '\n' ∉ text.toList := by
  rw [utf8_crlf] at hpart hproper
  have hinside : part <+: utf8 (line ++ "\r") :=
    (List.prefix_concat_iff.mp hpart).resolve_left hproper
  have hnewline : UInt8.ofNat '\n'.toNat ∉ part :=
    fun hmem => newline_not_mem_utf8 hline (hinside.subset hmem)
  cases hread : readLine part with
  | error fault =>
      obtain rfl := readLine_eq_error hread
      exact Or.inl rfl
  | ok first =>
      obtain ⟨text, after⟩ := first
      have hcut := readLine_eq_ok_iff.mp hread
      rw [cutLine_of_not_mem hnewline] at hcut
      obtain ⟨rfl, rfl⟩ := Prod.mk.inj hcut
      obtain ⟨rest, hrest⟩ := hinside
      have hchars := toList_of_utf8_append hrest
      rw [String.toList_append] at hchars
      exact Or.inr ⟨text, rfl, hchars, by rwa [ascii_mem_utf8 (by decide)] at hnewline⟩

theorem trimLineEnd_append_cons {c : Char} (hc : isLineEnd c = false)
    {text front part : String} (htext : text.toList = front.toList ++ c :: part.toList) :
    (trimLineEnd text).toList = front.toList ++ c :: (trimLineEnd part).toList := by
  simp only [trimLineEnd, String.toList_ofList, htext]
  exact rdropWhile_append_cons hc _ _

end Lines

/-! ## The request line -/

section RequestLine

variable {request : Request} {taken : List UInt8} {text part : String}

theorem splitRequestLine_method (hmethod : IsWord request.method)
    (htext : text.toList <+: request.method.toList ++ [' ']) : (splitRequestLine text).2 = "" := by
  have htrim : text.toList.rdropWhile isLineEnd <+: request.method.toList ++ [' '] :=
    (List.rdropWhile_prefix _ _).trans htext
  rw [splitRequestLine, trimLineEnd, String.toList_ofList]
  rcases List.prefix_concat_iff.mp htrim with hall | hword
  · rw [hall, List.splitOn_append_cons_self_of_not_mem hmethod.noSpace]
    rfl
  · rw [List.splitOn_eq_singleton fun hmem => hmethod.noSpace (hword.subset hmem)]
    rfl

theorem splitRequestLine_target (hmethod : IsWord request.method)
    (htext : text.toList = request.method.toList ++ ' ' :: part.toList) :
    splitRequestLine text = (request.method,
      String.ofList (((trimLineEnd part).toList.splitOn ' ')[0]?.getD [])) := by
  rw [splitRequestLine, trimLineEnd_append_cons (by decide) htext,
    List.splitOn_append_cons_self_of_not_mem hmethod.noSpace]
  simp

/-- One character of the target is enough, unless it is trimmed off. -/
theorem splitRequestLine_visible (htarget : IsWord request.target)
    (hpart : part.toList <+: (request.target ++ " HTTP/1.1\r").toList)
    (hvisible : ∃ c ∈ part.toList, c ≠ '\r') :
    String.ofList (((trimLineEnd part).toList.splitOn ' ')[0]?.getD []) ≠ "" := by
  obtain ⟨first, target, hfirst⟩ : ∃ first target, request.target.toList = first :: target :=
    List.exists_cons_of_ne_nil (by simpa using htarget.nonempty)
  have hspace : first ≠ ' ' := by
    rintro rfl
    exact htarget.noSpace (by simp [hfirst])
  have hnewline : '\n' ∉ part.toList := by
    intro hmem
    have hwhole := hpart.subset hmem
    simp [htarget.noNewline] at hwhole
  rw [trimLineEnd, String.toList_ofList]
  have hnonempty : part.toList.rdropWhile isLineEnd ≠ [] := by
    obtain ⟨c, hc, hvisible⟩ := hvisible
    rw [Ne, List.rdropWhile_eq_nil_iff]
    intro hall
    have hend := hall c hc
    simp only [isLineEnd, Bool.or_eq_true, beq_iff_eq] at hend
    rcases hend with rfl | rfl <;> contradiction
  obtain ⟨c, rest, hrest⟩ := List.exists_cons_of_ne_nil hnonempty
  -- what is left begins as the target does
  obtain rfl : c = first := by
    have hbegins := (List.rdropWhile_prefix isLineEnd part.toList).trans hpart
    rw [hrest, String.toList_append, hfirst, List.cons_append, List.cons_prefix_cons] at hbegins
    exact hbegins.1
  obtain ⟨word, words, hwords⟩ := List.exists_cons_of_ne_nil (List.splitOn_ne_nil ' ' rest)
  rw [hrest, List.splitOn_cons_eq_if_modifyHead, if_neg (by simpa using hspace), hwords]
  intro hempty
  have hchars := congrArg String.toList hempty
  simp at hchars

theorem parseRequest_open (hnewline : '\n' ∉ text.toList)
    (hparts : ¬ ((splitRequestLine text).1 = "" ∨ (splitRequestLine text).2 = "")) :
    parseRequest (utf8 text) =
      .ok (some ⟨(splitRequestLine text).1, (splitRequestLine text).2, [], []⟩, []) := by
  have htext : text ≠ "" := by
    rintro rfl
    exact hparts (Or.inl rfl)
  rw [parseRequest_eq (readLine_open hnewline) htext hparts, readHeaders_blank readLine_nil rfl]
  rfl

theorem parseRequest_requestLine_partial (hparsed : IsParsed request) (hne : taken ≠ [])
    (htaken : taken <+: utf8 (requestLine request ++ "\r\n"))
    (hproper : taken ≠ utf8 (requestLine request ++ "\r\n")) :
    (∃ error, parseRequest taken = .error (.failed error)) ∨ Misread request taken := by
  have hline : '\n' ∉ (requestLine request).toList := by
    simp [requestLine, hparsed.method.noNewline, hparsed.target.noNewline]
  have hchars : (requestLine request).toList ++ ['\r'] =
      (request.method.toList ++ [' ']) ++ (request.target ++ " HTTP/1.1\r").toList := by
    simp [requestLine]
  rcases readLine_partial hline htaken hproper with hread | ⟨text, rfl, htext, hnewline⟩
  · exact Or.inl ⟨_, parseRequest_invalid hread⟩
  have hnonempty : text ≠ "" := mt utf8_eq_nil_iff.mpr hne
  rw [hchars] at htext
  by_cases hlong : request.method.toList ++ [' '] <+: text.toList
  · obtain ⟨chars, hcut⟩ := hlong
    rw [← hcut, List.prefix_append_right_inj] at htext
    have hwhole : text.toList = request.method.toList ++ ' ' :: (String.ofList chars).toList := by
      simp [← hcut]
    by_cases hvisible : ∃ c ∈ chars, c ≠ '\r'
    · right
      have hsame : text = request.method ++ " " ++ String.ofList chars := by
        rw [← String.toList_inj, hwhole]
        simp
      rw [hsame]
      exact .target (by rwa [String.toList_ofList]) (by rwa [String.toList_ofList])
    · left
      refine ⟨_, parseRequest_malformed (readLine_open hnewline) hnonempty (Or.inr ?_)⟩
      rw [splitRequestLine_target hparsed.method hwhole, trimLineEnd, String.toList_ofList,
        String.toList_ofList, List.rdropWhile_eq_nil_iff.mpr]
      · rfl
      · intro c hc
        have hend : c = '\r' := by
          by_contra hother
          exact hvisible ⟨c, hc, hother⟩
        rw [hend]
        rfl
  · left
    refine ⟨_, parseRequest_malformed (readLine_open hnewline) hnonempty (Or.inr ?_)⟩
    apply splitRequestLine_method hparsed.method
    exact (List.prefix_or_prefix_of_prefix htext (List.prefix_append _ _)).resolve_right hlong

end RequestLine

/-! ## Header lines -/

section HeaderLines

variable {malformed name value : String}

/-- A header line that is cut after its colon. -/
theorem readHeaders_value (hheader : IsHeader (name, value)) {part : String}
    (hpart : part.toList <+: (" " ++ value ++ "\r").toList) (headers : List (String × String)) :
    readHeaders malformed headers (utf8 (name ++ ":" ++ part)) =
      .ok (headers ++ [(name, trim (trimLineEnd part))], []) := by
  have hnewline : '\n' ∉ (name ++ ":" ++ part).toList := by
    have hvalue : '\n' ∉ part.toList := by
      intro hmem
      have hwhole := hpart.subset hmem
      simp [hheader.valueNoNewline] at hwhole
    simp [hheader.nameNoNewline, hvalue]
  have htrim : (trimLineEnd (name ++ ":" ++ part)).toList =
      name.toList ++ ':' :: (trimLineEnd part).toList :=
    trimLineEnd_append_cons (by decide) (by simp)
  have hsplit : splitOnce ':' (trimLineEnd (name ++ ":" ++ part)).toList =
      some (name.toList, (trimLineEnd part).toList) :=
    splitOnce_eq_some_iff.mpr ⟨htrim, hheader.noColon⟩
  rw [readHeaders_field (readLine_open hnewline) ?_ hsplit, readHeaders_blank readLine_nil rfl,
    String.ofList_toList, String.ofList_toList, hheader.nameTrimmed]
  intro hempty
  simp [hempty] at htrim

/-- The first character of a name is not trimmed off. -/
theorem trimLineEnd_name (hheader : IsHeader (name, value)) {text : String} (htext : text ≠ "")
    (hname : text.toList <+: name.toList) : trimLineEnd text ≠ "" := by
  obtain ⟨first, rest, hfirst⟩ : ∃ first rest, text.toList = first :: rest :=
    List.exists_cons_of_ne_nil (by simpa using htext)
  obtain ⟨tail, htail⟩ := hname
  have hstrip := strip_of_trim hheader.nameTrimmed
  have hdrop := @dropWhile_strip _ isWhitespace name.toList
  rw [hstrip, ← htail, hfirst, List.cons_append, List.dropWhile_cons] at hdrop
  split at hdrop
  next =>
    -- a shorter list cannot be the whole of it
    have hlength := (List.dropWhile_suffix isWhitespace (l := rest ++ tail)).length_le
    rw [hdrop, List.length_cons] at hlength
    omega
  next hvisible =>
    intro hempty
    have hall := congrArg String.toList hempty
    rw [trimLineEnd, String.toList_ofList, String.toList_empty, List.rdropWhile_eq_nil_iff] at hall
    exact hvisible (isWhitespace_of_lineEnd first (hall first (by simp [hfirst])))

theorem readHeaders_partial (hheader : IsHeader (name, value)) {part : List UInt8}
    (hpart : part <+: writeHeader (name, value)) (hproper : part ≠ writeHeader (name, value))
    (headers : List (String × String)) :
    (∃ error, readHeaders malformed headers part = .error (.failed error)) ∨ part = [] ∨
      ∃ text : String, text.toList <+: (" " ++ value ++ "\r").toList ∧
        part = utf8 (name ++ ":" ++ text) := by
  have hline : '\n' ∉ (headerLine (name, value)).toList := by
    simp [headerLine, hheader.nameNoNewline, hheader.valueNoNewline]
  have hchars : (headerLine (name, value)).toList ++ ['\r'] =
      (name.toList ++ [':']) ++ (" " ++ value ++ "\r").toList := by
    simp [headerLine]
  rcases readLine_partial hline hpart hproper with hread | ⟨text, rfl, htext, hnewline⟩
  · exact Or.inl ⟨_, readHeaders_invalid hread⟩
  by_cases hempty : text = ""
  · exact Or.inr (Or.inl (utf8_eq_nil_iff.mpr hempty))
  rw [hchars] at htext
  by_cases hlong : name.toList ++ [':'] <+: text.toList
  · obtain ⟨chars, hcut⟩ := hlong
    rw [← hcut, List.prefix_append_right_inj] at htext
    refine Or.inr (Or.inr ⟨String.ofList chars, by rwa [String.toList_ofList], ?_⟩)
    congr 1
    rw [← String.toList_inj, ← hcut]
    simp
  · have hshort : text.toList <+: name.toList := by
      have hbefore : text.toList <+: name.toList ++ [':'] :=
        (List.prefix_or_prefix_of_prefix htext (List.prefix_append _ _)).resolve_right hlong
      refine (List.prefix_concat_iff.mp hbefore).resolve_left fun hwhole => hlong ?_
      rw [hwhole]
    left
    refine ⟨_, readHeaders_malformed (readLine_open hnewline)
      (trimLineEnd_name hheader hempty hshort)
      ?_⟩
    rw [Option.eq_none_iff_forall_ne_some]
    rintro ⟨before, after⟩ hsplit
    have hcolon := (splitOnce_eq_some_iff.mp hsplit).1
    have hmem : ':' ∈ (trimLineEnd text).toList := by simp [hcolon]
    rw [trimLineEnd, String.toList_ofList] at hmem
    exact hheader.noColon (hshort.subset (mem_of_mem_rdropWhile hmem))

end HeaderLines

/-! ## The length of the body -/

section BodyLength

variable {request : Request}

theorem contentLength_of_kept {headers : List (String × String)}
    (hheaders : ∀ header ∈ headers, ownedByWriter header.1 = false) :
    contentLength headers = 0 := by
  rw [contentLength, declaredLength, find?_contentLength hheaders]
  rfl

theorem le_ofDigitChars (digits : List Char) (value : Nat) :
    value ≤ Nat.ofDigitChars 10 digits value := by
  induction digits generalizing value with
  | nil => exact Nat.le_refl value
  | cons digit digits ih =>
      refine Nat.le_trans ?_ (ih (10 * value + (digit.toNat - '0'.toNat)))
      omega

theorem toDigits_eq_cons {value : Nat} (hpos : 0 < value) :
    ∃ digit digits, Nat.toDigits 10 value = digit :: digits ∧ '0'.toNat < digit.toNat := by
  induction value using Nat.strongRecOn with
  | ind value ih =>
      rw [Nat.toDigits_eq_if (by decide)]
      split
      next hsmall =>
        refine ⟨_, [], rfl, ?_⟩
        interval_cases value <;> decide
      next hlarge =>
        obtain ⟨digit, digits, hdigits, hdigit⟩ := ih (value / 10) (by omega) (by omega)
        exact ⟨digit, _, by rw [hdigits]; rfl, hdigit⟩

/-- The first digits of a number that is not zero are a number that is not zero. -/
theorem parseUsize_digits {value : Nat} (hpos : 0 < value) (hvalue : value < 2 ^ 64)
    {digits : List Char} (hdigits : digits <+: (toString value).toList) (hne : digits ≠ []) :
    ∃ first, parseUsize (String.ofList digits) = some first ∧ 0 < first ∧ first ≤ value := by
  rw [Nat.toString_eq_ofList_toDigits, String.toList_ofList] at hdigits
  obtain ⟨more, hmore⟩ := hdigits
  have hle : Nat.ofDigitChars 10 digits 0 ≤ value := by
    have hwhole := @Nat.ofDigitChars_ten_toDigits value
    rw [← hmore, Nat.ofDigitChars, List.foldl_append] at hwhole
    conv_rhs => rw [← hwhole]
    exact le_ofDigitChars more _
  have hfirst : 0 < Nat.ofDigitChars 10 digits 0 := by
    obtain ⟨digit, rest, rfl⟩ := List.exists_cons_of_ne_nil hne
    obtain ⟨_, _, hcons, hdigit⟩ := toDigits_eq_cons hpos
    rw [← hmore] at hcons
    obtain ⟨rfl, -⟩ := List.cons.inj hcons
    refine Nat.lt_of_lt_of_le ?_ (le_ofDigitChars rest (10 * 0 + (digit.toNat - '0'.toNat)))
    omega
  refine ⟨_, parseUnsigned_of_digits hne (fun c hmem => ?_) (Nat.lt_of_le_of_lt hle hvalue), hfirst,
    hle⟩
  have hall : c ∈ Nat.toDigits 10 value := by
    rw [← hmore]
    exact List.mem_append_left more hmem
  exact Nat.isDigit_of_mem_toDigits (by decide) (by decide) hall

/-- The headers are all there is. -/
theorem parseRequest_cut (hparsed : IsParsed request) {input : List UInt8}
    {headers : List (String × String)}
    (hread : readHeaders malformedHeader [] input = .ok (headers, []))
    (hlength : contentLength headers = 0) :
    parseRequest (utf8 (requestLine request ++ "\r\n") ++ input) =
      .ok (some ⟨request.method, request.target, headers, []⟩, []) := by
  rw [parseRequest_requestLine hparsed, hread]
  simp only [Except.bind, hlength]
  rfl

theorem parseRequest_cut_body (hparsed : IsParsed request) {input : List UInt8}
    {headers : List (String × String)}
    (hread : readHeaders malformedHeader [] input = .ok (headers, []))
    (hpos : 0 < contentLength headers) (hfits : contentLength headers ≤ isizeMax) :
    parseRequest (utf8 (requestLine request ++ "\r\n") ++ input) =
      .error (.failed .unexpectedEof) := by
  rw [parseRequest_requestLine hparsed, hread]
  simp only [Except.bind]
  rw [readBody_short hfits (show ([] : List UInt8).length < _ from hpos)]
  rfl

end BodyLength

/-! ## Misread requests -/

section Cuts

variable {request : Request} {taken : List UInt8}

theorem ne_forwarded {other : Request}
    (hheaders : other.headers.length ≠ (kept request).length + 2) :
    other ≠ forwarded request := by
  rintro rfl
  simp [forwarded] at hheaders

theorem kept_isHeader (hparsed : IsParsed request) : ∀ header ∈ kept request, IsHeader header :=
  fun header hheader => hparsed.headers header (mem_kept hheader).1

theorem lengthHeader_isHeader (hparsed : IsParsed request) : IsHeader (lengthHeader request) :=
  isHeader_forwarded hparsed _ (by simp [forwarded])

theorem connection_isHeader (hparsed : IsParsed request) : IsHeader ("Connection", "close") :=
  isHeader_forwarded hparsed _ (by simp [forwarded])

theorem kept_length_isHeader (hparsed : IsParsed request) :
    ∀ header ∈ kept request ++ [lengthHeader request], IsHeader header := by
  simpa [or_imp, forall_and, lengthHeader_isHeader hparsed] using kept_isHeader hparsed

theorem opening_length (request : Request) :
    opening request ++ writeHeader (lengthHeader request) =
      utf8 (requestLine request ++ "\r\n") ++
        (kept request ++ [lengthHeader request]).flatMap writeHeader := by
  simp [opening]

theorem readHeaders_first {first : List (String × String)}
    (hfirst : ∀ header ∈ first, IsHeader header) :
    readHeaders malformedHeader [] (first.flatMap writeHeader) = .ok (first, []) := by
  have hread := @readHeaders_flatMap malformedHeader _ hfirst [] []
  rw [List.append_nil] at hread
  rw [hread, List.nil_append]
  exact readHeaders_blank readLine_nil rfl

theorem readHeaders_first_value {first : List (String × String)} {name value part : String}
    (hfirst : ∀ header ∈ first, IsHeader header) (hheader : IsHeader (name, value))
    (hpart : part.toList <+: (" " ++ value ++ "\r").toList) :
    readHeaders malformedHeader [] (first.flatMap writeHeader ++ utf8 (name ++ ":" ++ part)) =
      .ok (first ++ [(name, trim (trimLineEnd part))], []) := by
  rw [readHeaders_flatMap hfirst, List.nil_append, readHeaders_value hheader hpart]

/-- Nothing of the length has arrived, or it is zero. -/
theorem parseUsize_length {part : String}
    (hpart : part.toList <+: (" " ++ (lengthHeader request).2 ++ "\r").toList)
    (hdigits : request.body = [] ∨ part.toList.length < 2) :
    (parseUsize (trim (trimLineEnd part))).getD 0 = 0 := by
  rw [← @String.ofList_toList part]
  rcases hdigits with hbody | hshort
  · have hzero : ∀ chars ∈ (" 0\r".toList).inits,
        (parseUsize (trim (trimLineEnd (String.ofList chars)))).getD 0 = 0 := by decide
    apply hzero
    rw [List.mem_inits]
    simpa [lengthHeader, hbody] using hpart
  · have hspace : ∀ chars ∈ (" ".toList).inits,
        (parseUsize (trim (trimLineEnd (String.ofList chars)))).getD 0 = 0 := by decide
    apply hspace
    rw [List.mem_inits]
    have hfront : " ".toList <+: (" " ++ (lengthHeader request).2 ++ "\r").toList := by
      rw [String.append_assoc, String.toList_append]
      exact List.prefix_append _ _
    exact List.prefix_of_prefix_length_le hpart hfront (Nat.le_of_lt_succ hshort)

theorem trim_close {part : String} (hpart : part.toList <+: " close\r".toList) :
    trim (trimLineEnd part) = "close" ↔ 6 ≤ part.toList.length := by
  have hclose : ∀ chars ∈ (" close\r".toList).inits,
      (trim (trimLineEnd (String.ofList chars)) = "close" ↔ 6 ≤ chars.length) := by decide
  have hpart := hclose part.toList ((List.mem_inits _ _).mpr hpart)
  rwa [String.ofList_toList] at hpart

/-- A misread request is accepted, and it is not the one that was sent. -/
theorem Misread.accepted (hparsed : IsParsed request) (hmisread : Misread request taken) :
    ∃ other, parseRequest taken = .ok (some other, []) ∧ other ≠ forwarded request := by
  have hkept := kept_isHeader hparsed
  have hlength := lengthHeader_isHeader hparsed
  have hboth := kept_length_isHeader hparsed
  cases hmisread with
  | @target part hpart hvisible =>
      have hnewline : '\n' ∉ (request.method ++ " " ++ part).toList := by
        have htarget : '\n' ∉ part.toList := by
          intro hmem
          have hwhole := hpart.subset hmem
          simp [hparsed.target.noNewline] at hwhole
        simp [hparsed.method.noNewline, htarget]
      have hwords := @splitRequestLine_target request (request.method ++ " " ++ part) part
        hparsed.method (by simp)
      refine ⟨_, parseRequest_open hnewline ?_, ne_forwarded (by simp)⟩
      rw [hwords, not_or]
      exact ⟨hparsed.method.nonempty, splitRequestLine_visible hparsed.target hpart hvisible⟩
  | @header first later hsplit =>
      have hfirst : ∀ header ∈ first, header ∈ kept request :=
        fun header hheader => hsplit ▸ List.mem_append_left later hheader
      refine ⟨_, parseRequest_cut hparsed
        (readHeaders_first fun header hheader => hkept header (hfirst header hheader))
        (contentLength_of_kept fun header hheader => (mem_kept (hfirst header hheader)).2),
        ne_forwarded ?_⟩
      simp only [hsplit, List.length_append]
      omega
  | @value first later name value part hsplit hpart =>
      have hfirst : ∀ header ∈ first, header ∈ kept request :=
        fun header hheader => hsplit ▸ List.mem_append_left _ hheader
      have hname : (name, value) ∈ kept request := by simp [hsplit]
      rw [List.append_assoc]
      refine ⟨_, parseRequest_cut hparsed (readHeaders_first_value
        (fun header hheader => hkept header (hfirst header hheader)) (hkept _ hname) hpart)
        (contentLength_of_kept fun header hheader => ?_), ne_forwarded ?_⟩
      · rcases List.mem_append.mp hheader with hold | hnew
        · exact (mem_kept (hfirst header hold)).2
        · rw [List.mem_singleton.mp hnew]
          exact (mem_kept hname).2
      · simp only [hsplit, List.length_append, List.length_cons, List.length_nil]
        omega
  | @length part hpart hdigits =>
      rw [opening, List.append_assoc]
      refine ⟨_, parseRequest_cut hparsed (readHeaders_first_value hkept hlength hpart) ?_,
        ne_forwarded (by simp)⟩
      rw [contentLength_append, parseUsize_length hpart hdigits]
  | lengthEnd hbody =>
      rw [opening_length]
      refine ⟨_, parseRequest_cut hparsed (readHeaders_first hboth) ?_, ne_forwarded (by simp)⟩
      rw [contentLength_lengthHeader hparsed, hbody, List.length_nil]
  | @connection part hpart hbody hclose =>
      rw [opening_length, List.append_assoc]
      refine ⟨_, parseRequest_cut hparsed
        (readHeaders_first_value hboth (connection_isHeader hparsed) hpart) ?_, ?_⟩
      · rw [List.append_assoc, List.singleton_append, contentLength_lengthHeader hparsed, hbody,
          List.length_nil]
      · intro hsame
        have hheaders := congrArg Request.headers hsame
        rw [forwarded, List.append_assoc] at hheaders
        have hvalue : trim (trimLineEnd part) = "close" := by
          simpa using List.append_cancel_left hheaders
        exact absurd ((trim_close hpart).mp hvalue) (Nat.not_le.mpr hclose)

/-- Where a header is cut, it is one that was passed on or one of the writer's own. -/
theorem forwarded_headers_eq {first later : List (String × String)} {header : String × String}
    (hheaders : (forwarded request).headers = first ++ header :: later) :
    (∃ rest, kept request = first ++ header :: rest) ∨
      (first = kept request ∧ header = lengthHeader request) ∨
      (first = kept request ++ [lengthHeader request] ∧ header = ("Connection", "close")) := by
  rw [forwarded, List.append_eq_append_iff] at hheaders
  rcases hheaders with ⟨more, rfl, hmore⟩ | ⟨rest, hkept, hrest⟩
  · rcases more with _ | ⟨one, _ | ⟨two, more⟩⟩
    · obtain ⟨rfl, -⟩ := List.cons.inj hmore
      exact Or.inr (Or.inl ⟨List.append_nil _, rfl⟩)
    · obtain ⟨rfl, hlast⟩ := List.cons.inj hmore
      obtain ⟨rfl, -⟩ := List.cons.inj hlast
      exact Or.inr (Or.inr ⟨rfl, rfl⟩)
    · simp at hmore
  · rcases rest with _ | ⟨one, rest⟩
    · obtain ⟨rfl, -⟩ := List.cons.inj hrest
      exact Or.inr (Or.inl ⟨by rw [hkept, List.append_nil], rfl⟩)
    · obtain ⟨rfl, -⟩ := List.cons.inj hrest
      exact Or.inl ⟨rest, hkept⟩

/-- What is left of the length when it is trimmed are its first digits. -/
theorem trim_digits {part : String} {value : Nat}
    (hpart : part.toList <+: (" " ++ toString value ++ "\r").toList)
    (hlong : 2 ≤ part.toList.length) :
    ∃ digits, digits <+: (toString value).toList ∧ digits ≠ [] ∧
      trim (trimLineEnd part) = String.ofList digits := by
  have hwhole : (" " ++ toString value ++ "\r").toList =
      ' ' :: ((toString value).toList ++ ['\r']) := by simp
  rw [hwhole] at hpart
  obtain ⟨rest, hrest⟩ : ∃ rest, part.toList = ' ' :: rest := by
    rcases List.prefix_cons_iff.mp hpart with hnil | ⟨rest, hrest, -⟩
    · simp [hnil] at hlong
    · exact ⟨rest, hrest⟩
  rw [hrest, List.cons_prefix_cons] at hpart
  have hdigit : ∀ c ∈ (toString value).toList, isLineEnd c = false ∧ isWhitespace c = false := by
    intro c hmem
    have hspace := isWhitespace_of_isDigit (isDigit_of_mem_toString hmem)
    refine ⟨?_, hspace⟩
    by_contra hend
    rw [Bool.not_eq_false] at hend
    rw [isWhitespace_of_lineEnd c hend] at hspace
    contradiction
  have hself : ∀ digits, digits <+: (toString value).toList → digits.rdropWhile isLineEnd =
      digits := by
    intro digits hdigits
    rw [List.rdropWhile_eq_self_iff]
    intro hne
    rw [(hdigit _ (hdigits.subset (List.getLast_mem hne))).1]
    decide
  obtain ⟨digits, hdigits, hne, hdrop⟩ : ∃ digits, digits <+: (toString value).toList ∧
      digits ≠ [] ∧ rest.rdropWhile isLineEnd = digits := by
    rcases List.prefix_concat_iff.mp hpart.2 with hall | hsome
    · refine ⟨_, List.prefix_refl _, ?_, ?_⟩
      · rw [Nat.toString_eq_ofList_toDigits, String.toList_ofList]
        exact Nat.toDigits_ne_nil
      · rw [hall, List.rdropWhile_concat_pos _ _ _ (by decide), hself _ (List.prefix_refl _)]
    · refine ⟨rest, hsome, ?_, hself rest hsome⟩
      rintro rfl
      simp [hrest] at hlong
  refine ⟨digits, hdigits, hne, ?_⟩
  have htrim : (trimLineEnd part).toList = ' ' :: digits := by
    rw [trimLineEnd, String.toList_ofList, hrest, ← hdrop]
    exact rdropWhile_append_cons (by decide) [] rest
  rw [trim, htrim, strip_cons_of_pos (by decide), strip_of_forall]
  exact fun c hmem => (hdigit c (hdigits.subset hmem)).2

/-- The first digits of the length stand for a body of which nothing has arrived. -/
theorem parseRequest_length_cut (hparsed : IsParsed request) (hbody : request.body ≠ [])
    {part : String} (hpart : part.toList <+: (" " ++ (lengthHeader request).2 ++ "\r").toList)
    (hlong : 2 ≤ part.toList.length) :
    parseRequest (opening request ++ utf8 ("Content-Length" ++ ":" ++ part)) =
      .error (.failed .unexpectedEof) := by
  obtain ⟨digits, hdigits, hne, htrim⟩ : ∃ digits,
    digits <+: (toString request.body.length).toList ∧
      digits ≠ [] ∧ trim (trimLineEnd part) = String.ofList digits :=
    trim_digits hpart hlong
  obtain ⟨first, hfirst, hpos, hle⟩ := parseUsize_digits (List.length_pos_iff.mpr hbody)
    (Nat.lt_of_le_of_lt hparsed.body (by decide)) hdigits hne
  have hread : contentLength (kept request ++ [("Content-Length", trim (trimLineEnd part))]) =
      first := by
    rw [contentLength_append, htrim, hfirst, Option.getD_some]
  rw [opening, List.append_assoc]
  apply parseRequest_cut_body hparsed
    (readHeaders_first_value (kept_isHeader hparsed) (lengthHeader_isHeader hparsed) hpart)
  · rw [hread]
    exact hpos
  · rw [hread]
    exact Nat.le_trans hle hparsed.body

/-- Where the headers are complete, whether or not there is a blank line. -/
def headersEnd (request : Request) : Nat :=
  (opening request ++ writeHeader (lengthHeader request) ++ utf8 "Connection: close").length

/-- The parser fails, or reads the request as it was sent. -/
def Reads (request : Request) (taken : List UInt8) : Prop :=
  (∃ error, parseRequest taken = .error (.failed error)) ∨
    parseRequest taken = .ok (some (forwarded request), []) ∧ headersEnd request ≤ taken.length

/-- Inside the body there are bytes missing. -/
theorem parseRequest_body_cut (hparsed : IsParsed request) {part : List UInt8}
    (hpart : part.length < request.body.length) :
    parseRequest (writeHead request ++ part) = .error (.failed .unexpectedEof) := by
  rw [parseRequest_writeHead hparsed, readBody_short hparsed.body hpart]
  rfl

/-- Once the length has been read, a body that is missing is waited for. -/
theorem reads_of_missing_body (hparsed : IsParsed request) {input : List UInt8}
    {later : List (String × String)} (hread : readHeaders malformedHeader [] input =
      .ok (kept request ++ lengthHeader request :: later, [])) (hbody : request.body ≠ []) :
    Reads request (utf8 (requestLine request ++ "\r\n") ++ input) := by
  have hlength := contentLength_lengthHeader hparsed later
  refine Or.inl ⟨_, parseRequest_cut_body hparsed hread ?_ ?_⟩
  · rw [hlength]
    exact List.length_pos_iff.mpr hbody
  · rw [hlength]
    exact hparsed.body

/-- Once the headers are complete, a request without a body is. -/
theorem reads_of_headers (hparsed : IsParsed request) {input : List UInt8}
    (hread : readHeaders malformedHeader [] input = .ok ((forwarded request).headers, []))
    (hend : headersEnd request ≤ (utf8 (requestLine request ++ "\r\n") ++ input).length) :
    Reads request (utf8 (requestLine request ++ "\r\n") ++ input) := by
  by_cases hbody : request.body = []
  · have hlength : contentLength (forwarded request).headers = request.body.length :=
      contentLength_lengthHeader hparsed _
    refine Or.inr ⟨?_, hend⟩
    rw [parseRequest_cut hparsed hread (by rw [hlength, hbody, List.length_nil])]
    simp [forwarded, hbody]
  · exact reads_of_missing_body hparsed hread hbody

theorem headersEnd_le (request : Request) (part : List UInt8) :
    headersEnd request ≤ (utf8 (requestLine request ++ "\r\n") ++
      ((forwarded request).headers.flatMap writeHeader ++ part)).length := by
  have hconnection : writeHeader ("Connection", "close") =
      utf8 "Connection: close" ++ utf8 "\r\n" := by
    rw [writeHeader, utf8_append]
    rfl
  simp only [headersEnd, opening, forwarded, List.flatMap_append, List.flatMap_cons,
    List.flatMap_nil, List.length_append, hconnection]
  omega

theorem headersEnd_le_close {part : String} (hpart : part.toList <+: " close\r".toList)
    (hclose : 6 ≤ part.toList.length) :
    headersEnd request ≤ (utf8 (requestLine request ++ "\r\n") ++
      ((kept request ++ [lengthHeader request]).flatMap writeHeader ++
        utf8 ("Connection" ++ ":" ++ part))).length := by
  obtain ⟨rest, hrest⟩ : " close".toList <+: part.toList :=
    List.prefix_of_prefix_length_le ⟨['\r'], by decide⟩ hpart hclose
  have hline : "Connection" ++ ":" ++ part = "Connection: close" ++ String.ofList rest := by
    rw [← String.toList_inj]
    simp [← hrest]
  rw [hline, utf8_append "Connection: close"]
  simp only [headersEnd, opening, List.flatMap_append, List.flatMap_cons, List.flatMap_nil,
    List.length_append]
  omega

/-- The cut is at the beginning of a header line. -/
theorem reads_of_line_cut (hparsed : IsParsed request) {first later : List (String × String)}
    {header : String × String} (hheaders : (forwarded request).headers = first ++ header :: later)
    (hmisread : ¬ Misread request
      (utf8 (requestLine request ++ "\r\n") ++ first.flatMap writeHeader)) :
    Reads request (utf8 (requestLine request ++ "\r\n") ++ first.flatMap writeHeader) := by
  rcases forwarded_headers_eq hheaders with ⟨rest, hkept⟩ | ⟨rfl, -⟩ | ⟨rfl, -⟩
  · exact absurd (.header hkept) hmisread
  · exact absurd (.header (List.append_nil _).symm) hmisread
  · by_cases hbody : request.body = []
    · rw [← opening_length] at hmisread
      exact absurd (.lengthEnd hbody) hmisread
    · exact reads_of_missing_body hparsed (readHeaders_first (kept_length_isHeader hparsed)) hbody

/-- The cut is inside the value of a header. -/
theorem reads_of_value_cut (hparsed : IsParsed request) {first later : List (String × String)}
    {name value text : String}
    (hheaders : (forwarded request).headers = first ++ (name, value) :: later)
    (htext : text.toList <+: (" " ++ value ++ "\r").toList)
    (hmisread : ¬ Misread request (utf8 (requestLine request ++ "\r\n") ++
      (first.flatMap writeHeader ++ utf8 (name ++ ":" ++ text)))) :
    Reads request (utf8 (requestLine request ++ "\r\n") ++
      (first.flatMap writeHeader ++ utf8 (name ++ ":" ++ text))) := by
  -- a header of the client, the length, or the last header of the writer
  rcases forwarded_headers_eq hheaders with ⟨rest, hkept⟩ | ⟨rfl, hlast⟩ | ⟨rfl, hlast⟩
  · rw [← List.append_assoc] at hmisread
    exact absurd (.value hkept htext) hmisread
  · obtain ⟨rfl, rfl⟩ := Prod.mk.inj hlast
    rw [← List.append_assoc] at hmisread ⊢
    by_cases hdigits : request.body = [] ∨ text.toList.length < 2
    · exact absurd (.length htext hdigits) hmisread
    · rw [not_or, not_lt] at hdigits
      exact Or.inl ⟨_, parseRequest_length_cut hparsed hdigits.1 htext hdigits.2⟩
  · obtain ⟨rfl, rfl⟩ := Prod.mk.inj hlast
    have hread := readHeaders_first_value (kept_length_isHeader hparsed)
      (connection_isHeader hparsed) htext
    rw [List.append_assoc, List.singleton_append] at hread
    by_cases hclose : 6 ≤ text.toList.length
    · rw [(trim_close htext).mpr hclose] at hread
      exact reads_of_headers hparsed hread (headersEnd_le_close htext hclose)
    · by_cases hbody : request.body = []
      · rw [← List.append_assoc, ← opening_length] at hmisread
        exact absurd (.connection htext hbody (Nat.not_le.mp hclose)) hmisread
      · exact reads_of_missing_body hparsed hread hbody

/-- The cut is inside a header line, or at its beginning. -/
theorem reads_of_header_cut (hparsed : IsParsed request) {first later : List (String × String)}
    {name value : String} {part : List UInt8}
    (hheaders : (forwarded request).headers = first ++ (name, value) :: later)
    (hpart : part <+: writeHeader (name, value)) (hproper : part ≠ writeHeader (name, value))
    (hmisread : ¬ Misread request
      (utf8 (requestLine request ++ "\r\n") ++ (first.flatMap writeHeader ++ part))) :
    Reads request (utf8 (requestLine request ++ "\r\n") ++
      (first.flatMap writeHeader ++ part)) := by
  have hall : ∀ header ∈ first ++ (name, value) :: later, IsHeader header :=
    hheaders ▸ isHeader_forwarded hparsed
  have hfirst : ∀ header ∈ first, IsHeader header :=
    fun header hheader => hall header (List.mem_append_left _ hheader)
  rcases readHeaders_partial (hall (name, value) (by simp)) hpart hproper first with
    ⟨error, herror⟩ | rfl | ⟨text, htext, rfl⟩
  · refine Or.inl ⟨error, ?_⟩
    rw [parseRequest_requestLine hparsed, readHeaders_flatMap hfirst, List.nil_append, herror]
    rfl
  · rw [List.append_nil] at hmisread ⊢
    exact reads_of_line_cut hparsed hheaders hmisread
  · exact reads_of_value_cut hparsed hheaders htext hmisread

/-- The headers are complete, and the cut is inside the blank line. -/
theorem reads_of_blank_cut (hparsed : IsParsed request) {part : List UInt8}
    (hpart : part <+: utf8 ("" ++ "\r\n")) (hproper : part ≠ utf8 ("" ++ "\r\n")) :
    Reads request (utf8 (requestLine request ++ "\r\n") ++
      ((forwarded request).headers.flatMap writeHeader ++ part)) := by
  have hflat := @readHeaders_flatMap malformedHeader _ (isHeader_forwarded hparsed) [] part
  rw [List.nil_append] at hflat
  rcases readLine_partial (by simp) hpart hproper with hread | ⟨text, rfl, htext, hnewline⟩
  · refine Or.inl ⟨.invalidUtf8, ?_⟩
    rw [parseRequest_requestLine hparsed, hflat, readHeaders_invalid hread]
    rfl
  · have htrim : trimLineEnd text = "" := by
      rw [trimLineEnd, List.rdropWhile_eq_nil_iff.mpr]
      intro c hmem
      obtain rfl : c = '\r' := by simpa using htext.subset hmem
      rfl
    rw [readHeaders_blank (readLine_open hnewline) htrim] at hflat
    exact reads_of_headers hparsed hflat (headersEnd_le request _)

/-- At any other cut the parser fails, or reads the request as it was sent. -/
theorem reads_of_not_misread (hparsed : IsParsed request) (hne : taken ≠ [])
    (htaken : taken <+: writeRequest request)
    (hshort : taken.length < (writeRequest request).length) (hmisread : ¬ Misread request taken) :
    Reads request taken := by
  rw [writeRequest, writeHead_eq, List.append_assoc, List.append_assoc] at htaken
  by_cases hline : utf8 (requestLine request ++ "\r\n") <+: taken
  · obtain ⟨rest, rfl⟩ := hline
    rw [List.prefix_append_right_inj] at htaken
    rcases isPrefix_flatMap_append htaken with
      ⟨first, ⟨name, value⟩, later, part, hheaders, rfl, hpart, hproper⟩ | ⟨part, rfl, hpart⟩
    · exact reads_of_header_cut hparsed hheaders hpart hproper hmisread
    · by_cases hblank : utf8 "\r\n" <+: part
      · obtain ⟨part, rfl⟩ := hblank
        rw [← List.append_assoc _ (utf8 "\r\n"), ← List.append_assoc, ← writeHead_eq] at hshort ⊢
        rw [writeRequest, List.length_append, List.length_append] at hshort
        exact Or.inl ⟨_, parseRequest_body_cut hparsed (by omega)⟩
      · have hinside : part <+: utf8 ("" ++ "\r\n") :=
          (List.prefix_or_prefix_of_prefix hpart (List.prefix_append _ _)).resolve_right hblank
        refine reads_of_blank_cut hparsed hinside ?_
        rintro rfl
        exact hblank (List.prefix_refl _)
  · have hinside : taken <+: utf8 (requestLine request ++ "\r\n") :=
      (List.prefix_or_prefix_of_prefix htaken (List.prefix_append _ _)).resolve_right hline
    rcases parseRequest_requestLine_partial hparsed hne hinside
      (by rintro rfl; exact hline (List.prefix_refl _)) with herror | hcut
    · exact Or.inl herror
    · exact absurd hcut hmisread

theorem utf8_length_le {one other : String} (hchars : one.toList <+: other.toList) :
    (utf8 one).length ≤ (utf8 other).length := by
  obtain ⟨rest, hrest⟩ := hchars
  rw [utf8_eq_flatMap, utf8_eq_flatMap, ← hrest, List.flatMap_append, List.length_append]
  exact Nat.le_add_right _ _

theorem writeHeader_length_le {name value part : String}
    (hpart : part.toList <+: (" " ++ value ++ "\r").toList) :
    (utf8 (name ++ ":" ++ part)).length ≤ (writeHeader (name, value)).length := by
  rw [writeHeader]
  apply utf8_length_le
  have hline : (headerLine (name, value) ++ "\r\n").toList =
      (name ++ ":").toList ++ ((" " ++ value ++ "\r").toList ++ ['\n']) := by
    simp [headerLine]
  rw [hline, String.toList_append, List.prefix_append_right_inj]
  exact hpart.trans (List.prefix_append _ _)

/-- Once the headers are complete, nothing is misread. -/
theorem Misread.lt_headersEnd (hmisread : Misread request taken) :
    taken.length < headersEnd request := by
  have hclose : 0 < (utf8 "Connection: close").length := by decide
  have hopening : (opening request).length = (utf8 (requestLine request ++ "\r\n")).length +
      ((kept request).flatMap writeHeader).length := List.length_append
  simp only [headersEnd, List.length_append]
  cases hmisread with
  | @target part hpart hvisible =>
      have hline : (utf8 (request.method ++ " " ++ part)).length ≤
          (utf8 (requestLine request ++ "\r\n")).length := by
        apply utf8_length_le
        have hwhole : (requestLine request ++ "\r\n").toList = (request.method ++ " ").toList ++
            ((request.target ++ " HTTP/1.1\r").toList ++ ['\n']) := by
          simp [requestLine]
        rw [hwhole, String.toList_append, List.prefix_append_right_inj]
        exact hpart.trans (List.prefix_append _ _)
      omega
  | @header first later hkept =>
      rw [hkept, List.flatMap_append, List.length_append] at hopening
      rw [List.length_append]
      omega
  | @value first later name value part hkept hpart =>
      have hvalue := @writeHeader_length_le name value part hpart
      rw [hkept, List.flatMap_append, List.flatMap_cons, List.length_append,
        List.length_append] at hopening
      simp only [List.length_append]
      omega
  | @length part hpart hdigits =>
      have hvalue := @writeHeader_length_le "Content-Length" _ part hpart
      rw [List.length_append]
      simp only [lengthHeader] at hvalue ⊢
      omega
  | lengthEnd hbody =>
      rw [List.length_append]
      omega
  | @connection part hpart hbody hshort =>
      have hlength : ∀ chars ∈ (" close\r".toList).inits, chars.length < 6 →
          (utf8 ("Connection" ++ ":" ++ String.ofList chars)).length <
            (utf8 "Connection: close").length := by decide
      have hvalue := hlength part.toList ((List.mem_inits _ _).mpr hpart) hshort
      rw [String.ofList_toList] at hvalue
      simp only [List.length_append]
      omega

end Cuts

end Onced.Http
