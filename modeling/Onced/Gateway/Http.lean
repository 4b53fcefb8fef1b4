import Onced.Core.State

/-! # Requests and responses

The messages the gateway handles. Headers keep their wire order, and a header
is looked up by its name regardless of the case of ASCII letters.
-/

namespace Onced

structure Request where
  method : String
  target : String
  headers : List (String × String)
  body : List UInt8
  deriving DecidableEq

structure Response where
  status : UInt16
  headers : List (String × String)
  body : List UInt8
  deriving DecidableEq

/-- `u8::to_ascii_lowercase`. -/
def toAsciiLowercase (byte : UInt8) : UInt8 := if 65 ≤ byte ∧ byte ≤ 90 then byte + 32 else byte

/-- `str::eq_ignore_ascii_case`. -/
def eqIgnoreAsciiCase (one other : String) : Bool :=
  (utf8 one).map toAsciiLowercase == (utf8 other).map toAsciiLowercase

/-- The first header of that name. -/
def Request.header (request : Request) (name : String) : Option String :=
  (request.headers.find? fun header => eqIgnoreAsciiCase header.1 name).map Prod.snd

end Onced
