import Visibility.Http.Uri
import Visibility.Json.Value

namespace Visibility.Http

/-- A header with its value, which may be any bytes. -/
structure Header where
  name : String
  value : List UInt8
deriving DecidableEq, Repr

/-- The text of a header value, if it holds visible ASCII, blanks and tabs alone. -/
def Header.text? (h : Header) : Option String :=
  if h.value.all fun b => (0x20 ≤ b && b < 0x7f) || b = 0x9 then
    some (String.ofList (h.value.map fun b => Char.ofNat b.toNat))
  else none

/-- A request, as far as the service looks at it. -/
structure Request where
  method : String
  uri : Uri
  headers : List Header := []
deriving DecidableEq, Repr

/-- The headers of a name, in order; names are compared without regard to case. -/
def Request.headersOf (r : Request) (name : String) : List Header :=
  let lower (s : String) := s.toList.map Char.toLower
  r.headers.filter fun h => lower h.name = lower name

/-- The texts that can be read under a name and are not empty. -/
def Request.texts (r : Request) (name : String) : List String :=
  ((r.headersOf name).filterMap Header.text?).filter (!·.isEmpty)

/-- A response; its body, if it has one, is a JSON document. -/
structure Response where
  status : Nat
  headers : List (String × String)
  body : Option Json.Value

end Visibility.Http
