import Onced.Gateway.WireLaws
import Onced.Gateway.Phases

/-! # Where a body ends

A message frames its body with `Content-Length`. A parser that takes the first of these
headers, and no body if that is not a number, accepts messages whose headers disagree on
the frame or do not give one; and the number it takes goes into the size of a buffer.
-/

namespace Onced.Http

open Foundation

/-! ## The frame of a message -/

/-- The values of the `Content-Length` headers. -/
def declaredLengths (headers : List (String × String)) : List String :=
  (headers.filter fun header => eqIgnoreAsciiCase header.1 "content-length").map Prod.snd

/-- A number in decimal digits that fits a machine word. -/
def decimal (text : String) : Option Nat :=
  let value := Nat.ofDigitChars 10 text.toList 0
  if text.toList ≠ [] ∧ text.toList.all Char.isDigit ∧ value < 2 ^ 64 then some value else none

/-- Every `Content-Length` is a number, and always the same. -/
def Unambiguous (headers : List (String × String)) : Prop :=
  ∃ length, ∀ text ∈ declaredLengths headers, decimal text = some length

/-- A line of nothing but its end. -/
def isBlank (line : List UInt8) : Bool :=
  line.all fun byte => byte = UInt8.ofNat '\r'.toNat ∨ byte = UInt8.ofNat '\n'.toNat

theorem cutLine_rest_length {input : List UInt8}
    (hline : ¬ isBlank (cutLine (UInt8.ofNat '\n'.toNat) input).1) :
    (cutLine (UInt8.ofNat '\n'.toNat) input).2.length < input.length := by
  have hne : (cutLine (UInt8.ofNat '\n'.toNat) input).1 ≠ [] := by
    intro hnil
    rw [hnil] at hline
    exact hline rfl
  have hlength := congrArg List.length (@cutLine_append _ _ (UInt8.ofNat '\n'.toNat) input)
  rw [List.length_append] at hlength
  have := List.length_pos_iff.mpr hne
  omega

/-- What follows the first blank line. -/
def afterBlankLine (input : List UInt8) : List UInt8 :=
  let cut := cutLine (UInt8.ofNat '\n'.toNat) input
  if hblank : isBlank cut.1 then cut.2
  else
    have := cutLine_rest_length hblank
    afterBlankLine cut.2
termination_by input.length

/-- What a request has after its request line and its headers. -/
def following (input : List UInt8) : List UInt8 :=
  afterBlankLine (cutLine (UInt8.ofNat '\n'.toNat) input).2

/-- The headers frame this body in what follows them. -/
inductive Frames (headers : List (String × String)) (following : List UInt8) :
    List UInt8 → Prop where
  | none (hnone : declaredLengths headers = []) : Frames headers following []
  | length {length : Nat} (hsome : declaredLengths headers ≠ [])
      (hsame : ∀ text ∈ declaredLengths headers, decimal text = some length)
      (hlength : length ≤ following.length) : Frames headers following (following.take length)

/-- The head of a request is well-formed and has these headers. -/
def Head (input : List UInt8) (headers : List (String × String)) (left : List UInt8) : Prop :=
  ∃ text after, readLine input = .ok (text, after) ∧ text ≠ "" ∧
    ¬ ((splitRequestLine text).1 = "" ∨ (splitRequestLine text).2 = "") ∧
    readHeaders malformedHeader [] after = .ok (headers, left)

/-- A request that is accepted has the body that its headers frame, and so have its
fingerprint and what is forwarded; headers that do not frame a body are refused. -/
structure Framed (input : List UInt8) : Prop where
  accepted : ∀ request rest, parseRequest input = .ok (some request, rest) → ∃ body,
    Frames request.headers (following input) body ∧ request.body = body ∧
      framedField body <:+ canonicalBytes request ∧ body <:+ writeRequest request
  refused : ∀ headers left, Head input headers left → ¬ Unambiguous headers →
    ∃ error, parseRequest input = .error (.failed error)

section Heads

variable {input left : List UInt8} {text : String} {headers : List (String × String)}

/-- The bytes of a character end a line exactly if the character does. -/
theorem isBlank_utf8EncodeChar (c : Char) : isBlank (String.utf8EncodeChar c) = isLineEnd c := by
  cases hend : isLineEnd c with
  | true =>
      rw [isLineEnd, Bool.or_eq_true, beq_iff_eq, beq_iff_eq] at hend
      rcases hend with rfl | rfl <;> decide
  | false =>
      rw [Bool.eq_false_iff, Ne, isBlank, List.all_eq_true]
      intro hall
      obtain ⟨byte, hbyte⟩ := List.exists_mem_of_ne_nil _ (String.utf8EncodeChar_ne_nil (c := c))
      have hline : c = '\r' ∨ c = '\n' := by
        rcases of_decide_eq_true (hall byte hbyte) with rfl | rfl
        · exact Or.inl ((ascii_mem_utf8EncodeChar (by decide)).mp hbyte)
        · exact Or.inr ((ascii_mem_utf8EncodeChar (by decide)).mp hbyte)
      rcases hline with rfl | rfl <;> exact absurd hend (by decide)

theorem isBlank_utf8 : isBlank (utf8 text) = true ↔ trimLineEnd text = "" := by
  have hall : isBlank (utf8 text) = text.toList.all isLineEnd := by
    rw [utf8_eq_flatMap]
    induction text.toList with
    | nil => rfl
    | cons c chars ih =>
        rw [List.flatMap_cons, isBlank, List.all_append, List.all_cons, ← ih,
          ← isBlank_utf8EncodeChar]
        rfl
  rw [hall, List.all_eq_true, trimLineEnd, ← List.rdropWhile_eq_nil_iff]
  constructor
  · intro hnil
    rw [hnil]
  · intro hempty
    have hlist := congrArg String.toList hempty
    rwa [String.toList_ofList] at hlist

theorem afterBlankLine_eq : afterBlankLine input =
    if isBlank (cutLine (UInt8.ofNat '\n'.toNat) input).1 then
      (cutLine (UInt8.ofNat '\n'.toNat) input).2
    else afterBlankLine (cutLine (UInt8.ofNat '\n'.toNat) input).2 := by
  rw [afterBlankLine]
  simp only [dite_eq_ite]

theorem afterBlankLine_blank {rest : List UInt8} (hline : readLine input = .ok (text, rest))
    (htrim : trimLineEnd text = "") : afterBlankLine input = rest := by
  have hcut := readLine_eq_ok_iff.mp hline
  have hblank := isBlank_utf8.mpr htrim
  rw [afterBlankLine_eq, hcut, if_pos hblank]

theorem afterBlankLine_field {rest : List UInt8} (hline : readLine input = .ok (text, rest))
    (htrim : trimLineEnd text ≠ "") : afterBlankLine input = afterBlankLine rest := by
  have hcut := readLine_eq_ok_iff.mp hline
  have hfield := mt isBlank_utf8.mp htrim
  rw [afterBlankLine_eq, hcut, if_neg hfield]

/-- The header loop stops after the blank line. -/
theorem readHeaders_rest {malformed : String} {read : List (String × String)}
    (hread : readHeaders malformed headers input = .ok (read, left)) :
    left = afterBlankLine input := by
  fun_induction readHeaders malformed headers input with
  | case1 => cases hread
  | case2 _ _ rest hline =>
      cases hread
      exact (afterBlankLine_blank hline rfl).symm
  | case3 _ _ _ _ hline _ htrim =>
      cases hread
      exact (afterBlankLine_blank hline htrim).symm
  | case4 _ _ _ _ hline _ htrim _ _ _ _ ih =>
      rw [afterBlankLine_field hline htrim]
      exact ih hread
  | case5 => cases hread

/-- Reading headers fails, but does not panic. -/
theorem readHeaders_error {malformed : String} {fault : Fault}
    (hread : readHeaders malformed headers input = .error fault) :
    ∃ error, fault = .failed error := by
  fun_induction readHeaders malformed headers input with
  | case1 _ _ _ hline =>
      cases hread
      exact ⟨_, readLine_eq_error hline⟩
  | case2 => cases hread
  | case3 => cases hread
  | case4 _ _ _ _ _ _ _ _ _ _ _ ih => exact ih hread
  | case5 =>
      cases hread
      exact ⟨_, rfl⟩

/-- A head that is read leaves what follows the blank line. -/
theorem Head.left_eq (hhead : Head input headers left) : left = following input := by
  obtain ⟨text, after, hline, _, _, hheaders⟩ := hhead
  rw [following, readLine_eq_ok_iff.mp hline]
  exact readHeaders_rest hheaders

theorem parseRequest_head (hhead : Head input headers left) : ∃ method target,
    parseRequest input = (readBody (contentLength headers) left).map fun last =>
      (some ⟨method, target, headers, last.1⟩, last.2) := by
  obtain ⟨text, after, hline, htext, hparts, hheaders⟩ := hhead
  refine ⟨(splitRequestLine text).1, (splitRequestLine text).2, ?_⟩
  rw [parseRequest_eq hline htext hparts, hheaders]
  rfl

/-- An input has a head, or is refused, or is empty. -/
theorem parseRequest_cases (input : List UInt8) : (∃ headers left, Head input headers left) ∨
    (∃ error, parseRequest input = .error (.failed error)) ∨
      ∃ rest, parseRequest input = .ok (none, rest) := by
  cases hline : readLine input with
  | error fault =>
      rw [readLine_eq_error hline] at hline
      exact Or.inr (Or.inl ⟨_, parseRequest_invalid hline⟩)
  | ok first =>
      obtain ⟨text, after⟩ := first
      by_cases htext : text = ""
      · subst htext
        exact Or.inr (Or.inr ⟨_, parseRequest_closed hline⟩)
      by_cases hparts : (splitRequestLine text).1 = "" ∨ (splitRequestLine text).2 = ""
      · exact Or.inr (Or.inl ⟨_, parseRequest_malformed hline htext hparts⟩)
      cases hheaders : readHeaders malformedHeader [] after with
      | error fault =>
          obtain ⟨error, rfl⟩ := readHeaders_error hheaders
          refine Or.inr (Or.inl ⟨error, ?_⟩)
          rw [parseRequest_eq hline htext hparts, hheaders]
          rfl
      | ok result => exact Or.inl ⟨result.1, result.2, text, after, hline, htext, hparts, hheaders⟩

theorem head_of_parseRequest {request : Request} {rest : List UInt8}
    (hparse : parseRequest input = .ok (some request, rest)) : ∃ left,
    Head input request.headers left ∧
      readBody (contentLength request.headers) left = .ok (request.body, rest) := by
  obtain ⟨text, after, left, hline, hsplit, hmethod, htarget, hheaders, hbody⟩ :=
    parseRequest_eq_some hparse
  refine ⟨left, ⟨text, after, hline, ?_, ?_, hheaders⟩, hbody⟩
  · rintro rfl
    exact hmethod (congrArg Prod.fst hsplit).symm
  · rw [hsplit, not_or]
    exact ⟨hmethod, htarget⟩

end Heads

/-! ## Bodies -/

section Bodies

variable {headers : List (String × String)} {left body rest : List UInt8} {length : Nat}

/-- The parser goes by the first length. -/
theorem declaredLength_eq (headers : List (String × String)) :
    declaredLength headers = (declaredLengths headers).head?.bind parseUsize := by
  rw [declaredLength, declaredLengths, List.head?_map, List.head?_filter, Option.bind_map]
  rfl

theorem parseUsize_of_decimal {text : String} (htext : decimal text = some length) :
    parseUsize text = some length := by
  simp only [decimal] at htext
  split at htext
  next hdigits =>
    obtain rfl := Option.some.inj htext
    have hparse := parseUnsigned_of_digits hdigits.1 (List.all_eq_true.mp hdigits.2.1) hdigits.2.2
    rwa [String.ofList_toList] at hparse
  next => cases htext

/-- Lengths that agree are what the parser goes by. -/
theorem declaredLength_of_same (hsome : declaredLengths headers ≠ [])
    (hsame : ∀ text ∈ declaredLengths headers, decimal text = some length) :
    declaredLength headers = some length := by
  rw [declaredLength_eq]
  cases htexts : declaredLengths headers with
  | nil => exact absurd htexts hsome
  | cons text texts =>
      apply parseUsize_of_decimal
      apply hsame
      rw [htexts]
      exact List.mem_cons_self

theorem readBody_eq_ok (hbody : readBody length left = .ok (body, rest)) :
    length ≤ left.length ∧ body = left.take length := by
  unfold readBody at hbody
  split at hbody
  next => cases hbody
  next =>
    split at hbody
    next hlength =>
      cases hbody
      exact ⟨hlength, rfl⟩
    next => cases hbody

/-- What is left is shorter than the first length, so that the request is refused. -/
def CutShort (headers : List (String × String)) (left : List UInt8) : Prop :=
  ∃ length, declaredLength headers = some length ∧ length ≤ isizeMax ∧ left.length < length

theorem readBody_cutShort (hshort : CutShort headers left) :
    readBody (contentLength headers) left = .error (.failed .unexpectedEof) := by
  obtain ⟨length, hlength, hfits, hshort⟩ := hshort
  rw [contentLength, hlength]
  exact readBody_short hfits hshort

theorem cutShort_of_failed {error : Error}
    (hbody : readBody (contentLength headers) left = .error (.failed error)) :
    CutShort headers left := by
  unfold readBody at hbody
  split at hbody
  next => cases hbody
  next hfits =>
    split at hbody
    next => cases hbody
    next hshort =>
      rw [contentLength] at hfits hshort
      cases hlength : declaredLength headers with
      | none =>
          rw [hlength] at hshort
          exact absurd (Nat.zero_le _) hshort
      | some length =>
          rw [hlength] at hfits hshort
          exact ⟨length, hlength, Nat.not_lt.mp hfits, Nat.not_le.mp hshort⟩

/-- Headers that are unambiguous frame the body that is read. -/
theorem frames_of_unambiguous (hheaders : Unambiguous headers)
    (hbody : readBody (contentLength headers) left = .ok (body, rest)) :
    Frames headers left body := by
  obtain ⟨length, hsame⟩ := hheaders
  obtain ⟨hlength, rfl⟩ := readBody_eq_ok hbody
  by_cases hnone : declaredLengths headers = []
  · have hzero : contentLength headers = 0 := by
      rw [contentLength, declaredLength_eq, hnone]
      rfl
    rw [hzero]
    exact .none hnone
  · have hcontent : contentLength headers = length := by
      rw [contentLength, declaredLength_of_same hnone hsame]
      rfl
    rw [hcontent] at hlength ⊢
    exact .length hnone hsame hlength

end Bodies

/-- Bodies are framed without ambiguity exactly on the inputs whose lengths agree, or that
end before the body of the first length does. -/
theorem framed_iff (input : List UInt8) : Framed input ↔
    ∀ headers left, Head input headers left → Unambiguous headers ∨ CutShort headers left := by
  constructor
  · intro hframed headers left hhead
    by_contra hneither
    rw [not_or] at hneither
    obtain ⟨error, herror⟩ := hframed.refused headers left hhead hneither.1
    obtain ⟨method, target, hparse⟩ := parseRequest_head hhead
    rw [herror] at hparse
    cases hbody : readBody (contentLength headers) left with
    | ok result =>
        rw [hbody] at hparse
        cases hparse
    | error fault =>
        rw [hbody] at hparse
        cases hparse
        exact hneither.2 (cutShort_of_failed hbody)
  · intro hheads
    constructor
    case accepted =>
      intro request rest hparse
      obtain ⟨left, hhead, hbody⟩ := head_of_parseRequest hparse
      refine ⟨request.body, ?_, rfl, List.suffix_append _ _, List.suffix_append _ _⟩
      rw [← hhead.left_eq]
      rcases hheads _ left hhead with hsame | hshort
      · exact frames_of_unambiguous hsame hbody
      · cases hbody.symm.trans (readBody_cutShort hshort)
    case refused =>
      intro headers left hhead hambiguous
      have hshort := (hheads headers left hhead).resolve_left hambiguous
      obtain ⟨method, target, hparse⟩ := parseRequest_head hhead
      rw [readBody_cutShort hshort] at hparse
      exact ⟨_, hparse⟩

/-- How a request with these headers is read. -/
theorem parseRequest_sample {headers : List (String × String)}
    (hheaders : ∀ header ∈ headers, IsHeader header) (left : List UInt8) :
    parseRequest (utf8 ("POST /pay HTTP/1.1" ++ "\r\n") ++
      (headers.flatMap writeHeader ++ (utf8 "\r\n" ++ left))) =
        (readBody (contentLength headers) left).map fun last =>
          (some ⟨"POST", "/pay", headers, last.1⟩, last.2) := by
  rw [parseRequest_eq (readLine_crlf (by decide) _) (by decide) (by decide),
    readHeaders_written hheaders]
  rfl

/-- A length that is no number: the request is accepted without its body. -/
theorem body_dropped :
    parseRequest (utf8 "POST /pay HTTP/1.1\r\nContent-Length: 0x08\r\n\r\namount=5") =
      .ok (some ⟨"POST", "/pay", [("Content-Length", "0x08")], []⟩, utf8 "amount=5") ∧
    decimal "0x08" = none := by
  have hheaders : ∀ header ∈ [("Content-Length", "0x08")], IsHeader header := by
    intro header hheader
    obtain rfl := List.mem_singleton.mp hheader
    exact ⟨by decide, by decide, by decide, by decide, by decide⟩
  exact ⟨parseRequest_sample hheaders (utf8 "amount=5"), by decide⟩

/-! ## Panics -/

/-- The head of a response is well-formed and has these headers. -/
def ResponseHead (input : List UInt8) (headers : List (String × String))
    (left : List UInt8) : Prop :=
  ∃ text after, readLine input = .ok (text, after) ∧ text ≠ "" ∧ (parseStatus text).isSome ∧
    readHeaders malformedResponseHeader [] after = .ok (headers, left)

theorem readBody_panicked_iff {length : Nat} {left : List UInt8} :
    readBody length left = .error .panicked ↔ isizeMax < length := by
  unfold readBody
  split
  next hlarge => exact iff_of_true rfl hlarge
  next hfits =>
    refine iff_of_false ?_ hfits
    split <;> exact fun hpanic => nomatch hpanic

theorem map_panicked_iff {α β : Type} {read : Except Fault α} {combine : α → β} :
    read.map combine = .error .panicked ↔ read = .error .panicked := by
  cases read with
  | ok value => exact iff_of_false (fun h => nomatch h) (fun h => nomatch h)
  | error fault =>
      constructor
      · intro hpanic
        cases hpanic
        rfl
      · intro hpanic
        cases hpanic
        rfl

theorem readResponseBody_panicked_iff {headers : List (String × String)} {left : List UInt8} :
    readResponseBody headers left = .error .panicked ↔
      isizeMax < (declaredLength headers).getD left.length := by
  unfold readResponseBody
  cases declaredLength headers with
  | some length => exact readBody_panicked_iff
  | none =>
      change readToEnd left = _ ↔ isizeMax < left.length
      unfold readToEnd
      split
      next hlarge => exact iff_of_true rfl hlarge
      next hfits => exact iff_of_false (fun hpanic => nomatch hpanic) hfits

theorem parseResponse_cases (input : List UInt8) :
    (∃ headers left, ResponseHead input headers left) ∨
      ∃ error, parseResponse input = .error (.failed error) := by
  cases hline : readLine input with
  | error fault =>
      rw [readLine_eq_error hline] at hline
      exact Or.inr ⟨_, parseResponse_invalid hline⟩
  | ok first =>
      obtain ⟨text, after⟩ := first
      by_cases htext : text = ""
      · subst htext
        exact Or.inr ⟨_, parseResponse_empty hline⟩
      cases hstatus : parseStatus text with
      | none => exact Or.inr ⟨_, parseResponse_malformed hline htext hstatus⟩
      | some status =>
          cases hheaders : readHeaders malformedResponseHeader [] after with
          | error fault =>
              obtain ⟨error, rfl⟩ := readHeaders_error hheaders
              refine Or.inr ⟨error, ?_⟩
              rw [parseResponse_eq hline htext hstatus, hheaders]
              rfl
          | ok result =>
              exact Or.inl ⟨result.1, result.2, text, after, hline, htext,
                Option.isSome_of_eq_some hstatus, hheaders⟩

theorem parseResponse_head {input left : List UInt8} {headers : List (String × String)}
    (hhead : ResponseHead input headers left) : ∃ status,
    parseResponse input = (readResponseBody headers left).map fun last =>
      (⟨status, headers, last.1⟩, last.2) := by
  obtain ⟨text, after, hline, htext, hstatus, hheaders⟩ := hhead
  obtain ⟨status, hstatus⟩ := Option.isSome_iff_exists.mp hstatus
  refine ⟨status, ?_⟩
  rw [parseResponse_eq hline htext hstatus, hheaders]
  rfl

theorem parseRequest_panicked_iff {input left : List UInt8} {headers : List (String × String)}
    (hhead : Head input headers left) :
    parseRequest input = .error .panicked ↔ isizeMax < contentLength headers := by
  obtain ⟨method, target, hparse⟩ := parseRequest_head hhead
  rw [hparse, map_panicked_iff, readBody_panicked_iff]

theorem parseResponse_panicked_iff {input left : List UInt8} {headers : List (String × String)}
    (hhead : ResponseHead input headers left) : parseResponse input = .error .panicked ↔
      isizeMax < (declaredLength headers).getD left.length := by
  obtain ⟨status, hparse⟩ := parseResponse_head hhead
  rw [hparse, map_panicked_iff, readResponseBody_panicked_iff]

/-- The text is a number in decimal digits that fits a machine word, with or without a plus
sign before it. -/
def Denotes (text : String) (length : Nat) : Prop :=
  decimal text = some length ∨ ∃ digits, text = "+" ++ digits ∧ decimal digits = some length

theorem parseUsize_eq_some_iff {text : String} {length : Nat} :
    parseUsize text = some length ↔ Denotes text length := by
  have hdecimal : parseUsize text = decimal (String.ofList (dropPlus text.toList)) := by
    rw [parseUsize, parseUnsigned, decimal, String.toList_ofList]
  constructor
  · intro hparse
    rw [hdecimal] at hparse
    unfold dropPlus at hparse
    split at hparse
    next digits hplus =>
      refine Or.inr ⟨String.ofList digits, ?_, hparse⟩
      apply String.toList_injective
      rw [hplus, String.toList_append, String.toList_ofList, String.toList_ofList]
      rfl
    next => exact Or.inl (by rwa [String.ofList_toList] at hparse)
  · rintro (hplain | ⟨digits, rfl, hdigits⟩)
    · exact parseUsize_of_decimal hplain
    · rw [hdecimal, String.toList_append]
      change decimal (String.ofList digits.toList) = some length
      rw [String.ofList_toList]
      exact hdigits

/-- The first `Content-Length` denotes this number. -/
def FirstLength (headers : List (String × String)) (length : Nat) : Prop :=
  ∃ text ∈ (declaredLengths headers).head?, Denotes text length

theorem declaredLength_eq_some_iff {headers : List (String × String)} {length : Nat} :
    declaredLength headers = some length ↔ FirstLength headers length := by
  rw [declaredLength_eq, Option.bind_eq_some_iff]
  simp only [parseUsize_eq_some_iff, FirstLength, Option.mem_def]

theorem contentLength_le_iff {headers : List (String × String)} :
    contentLength headers ≤ isizeMax ↔ ∀ length, FirstLength headers length →
      length ≤ isizeMax := by
  simp only [← declaredLength_eq_some_iff, contentLength]
  cases declaredLength headers with
  | none => simp
  | some length => simp

theorem responseLength_le_iff {headers : List (String × String)} {left : List UInt8} :
    (declaredLength headers).getD left.length ≤ isizeMax ↔
      (∀ length, FirstLength headers length → length ≤ isizeMax) ∧
        ((∀ length, ¬ FirstLength headers length) → left.length ≤ isizeMax) := by
  simp only [← declaredLength_eq_some_iff]
  cases declaredLength headers with
  | none => simp
  | some length => simp

/-- Each parser is free of panics exactly on the inputs that do not ask it for a buffer
beyond the largest capacity: by the number that the first `Content-Length` of a head denotes
or, for a response without one, by all that follows the head. -/
theorem panic_free_iff (input : List UInt8) :
    (parseRequest input ≠ .error .panicked ↔
      ∀ headers left, Head input headers left →
        ∀ length, FirstLength headers length → length ≤ isizeMax) ∧
    (parseResponse input ≠ .error .panicked ↔
      ∀ headers left, ResponseHead input headers left →
        (∀ length, FirstLength headers length → length ≤ isizeMax) ∧
          ((∀ length, ¬ FirstLength headers length) → left.length ≤ isizeMax)) := by
  simp only [← responseLength_le_iff]
  simp only [← contentLength_le_iff]
  constructor
  · constructor
    · intro hfree headers left hhead
      exact Nat.not_lt.mp fun hlarge => hfree ((parseRequest_panicked_iff hhead).mpr hlarge)
    · intro hfits hpanic
      rcases parseRequest_cases input with ⟨headers, left, hhead⟩ | ⟨_, hfailed⟩ | ⟨_, hclosed⟩
      · exact Nat.not_lt.mpr (hfits headers left hhead)
          ((parseRequest_panicked_iff hhead).mp hpanic)
      · cases hfailed.symm.trans hpanic
      · cases hclosed.symm.trans hpanic
  · constructor
    · intro hfree headers left hhead
      exact Nat.not_lt.mp fun hlarge => hfree ((parseResponse_panicked_iff hhead).mpr hlarge)
    · intro hfits hpanic
      rcases parseResponse_cases input with ⟨headers, left, hhead⟩ | ⟨_, hfailed⟩
      · exact Nat.not_lt.mpr (hfits headers left hhead)
          ((parseResponse_panicked_iff hhead).mp hpanic)
      · cases hfailed.symm.trans hpanic

/-- A length of one more than the largest capacity. -/
theorem length_panics : parseRequest (utf8
    "POST /pay HTTP/1.1\r\nContent-Length: 9223372036854775808\r\n\r\n") = .error .panicked := by
  have hheaders : ∀ header ∈ [("Content-Length", "9223372036854775808")], IsHeader header := by
    intro header hheader
    obtain rfl := List.mem_singleton.mp hheader
    exact ⟨by decide, by decide, by decide, by decide, by decide⟩
  have hlength : contentLength [("Content-Length", "9223372036854775808")] = 2 ^ 63 := by decide
  have hparse := parseRequest_sample hheaders []
  rw [readBody_panicked_iff.mpr (by rw [hlength]; decide)] at hparse
  exact hparse

end Onced.Http
