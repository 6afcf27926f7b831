/-!
Request targets: a path, and a query after a question mark.

A target is kept as it is written, without decoding. Of a target that names a scheme and a host only
the path and the query count; a path that it leaves out is the root. A target that names a host alone
has no path. What a host looks like does not matter. What follows a number sign is dropped.
-/

namespace Visibility.Http

/-- Why a text is no request target. -/
inductive UriError where
  | tooLong
  | schemeTooLong
  | invalidChar
  | malformed
deriving DecidableEq, Repr

def UriError.message : UriError → String
  | tooLong => "uri too long"
  | schemeTooLong => "scheme too long"
  | invalidChar => "invalid uri character"
  | malformed => "invalid format"

/-- A target: a path, and the query if there is one, both as they were written. -/
structure Uri where
  path : String
  query : Option String := none
deriving DecidableEq, Repr

namespace Uri

/-- The most bytes that a target may have. -/
def maxLength : Nat := 65534

/-- Whether a character is neither a blank nor a control character of ASCII. -/
def isGraphic (c : Char) : Bool := 0x20 < c.toNat && c.toNat ≠ 0x7f

/-- Whether a character may stand in a path. -/
def isPathChar (c : Char) : Bool :=
  isGraphic c && c ≠ '#' && c ≠ '<' && c ≠ '>' && c ≠ '?' && c ≠ '\x60'

/-- Whether a character may stand in a query. -/
def isQueryChar (c : Char) : Bool :=
  isGraphic c && c ≠ '"' && c ≠ '#' && c ≠ '<' && c ≠ '>'

/-- The part of a text before its fragment. -/
def beforeFragment (s : List Char) : List Char := s.takeWhile (· ≠ '#')

/-- Reads a target that begins with its path. -/
def parsePath (s : List Char) : Except UriError Uri :=
  let s := beforeFragment s
  let path := s.takeWhile (· ≠ '?')
  if !path.all isPathChar then .error .invalidChar
  else
    match s.dropWhile (· ≠ '?') with
    | [] => .ok ⟨String.ofList path, none⟩
    | _ :: query =>
        if query.all isQueryChar then .ok ⟨String.ofList path, some (String.ofList query)⟩
        else .error .invalidChar

/-- Whether a character may stand in a scheme. -/
def isSchemeChar (c : Char) : Bool := c.isAlphanum || c = '+' || c = '-' || c = '.' || c = '~'

/-- Whether a character may stand in a host. -/
def isHostChar (c : Char) : Bool := c ≠ '/' && c ≠ '?' && c ≠ '#'

/-- The scheme of a text and what follows it; a scheme may be empty. -/
def splitScheme? (s : List Char) : Option (List Char × List Char) :=
  match s.dropWhile isSchemeChar with
  | ':' :: '/' :: '/' :: rest => some (s.takeWhile isSchemeChar, rest)
  | _ => none

/-- The most characters that a scheme may have. -/
def maxSchemeLength : Nat := 64

/-- Reads a target. Length is checked before anything else. -/
def parse (text : String) : Except UriError Uri :=
  if maxLength < text.utf8ByteSize then .error .tooLong
  else
    match text.toList with
    | [] => .error .malformed
    | ['*'] => .ok ⟨"*", none⟩
    | '/' :: rest => parsePath ('/' :: rest)
    | s =>
        match splitScheme? s with
        | some (scheme, rest) =>
            if maxSchemeLength < scheme.length then .error .schemeTooLong
            else if (rest.takeWhile isHostChar).isEmpty then .error .malformed
            else
              (parsePath (rest.dropWhile isHostChar)).map fun uri =>
                if uri.path.isEmpty then { uri with path := "/" } else uri
        | none => if s.all isHostChar then .ok ⟨"", none⟩ else .error .malformed

def text (u : Uri) : String :=
  match u.query with
  | some query => u.path ++ "?" ++ query
  | none => u.path

end Uri

end Visibility.Http
