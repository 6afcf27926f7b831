import Visibility.Text.Split
import Visibility.Text.Utf8

namespace Visibility.Http.Form

def percent : UInt8 := 0x25

def hexValue? (b : UInt8) : Option UInt8 :=
  if 0x30 ≤ b ∧ b ≤ 0x39 then some (b - 0x30)
  else if 0x41 ≤ b ∧ b ≤ 0x46 then some (b - 0x41 + 10)
  else if 0x61 ≤ b ∧ b ≤ 0x66 then some (b - 0x61 + 10)
  else none

/-- Replaces escapes by the bytes they stand for; a percent sign without two digits is left. -/
def unescape : List UInt8 → List UInt8
  | a :: b :: c :: rest =>
      if a = percent then
        match hexValue? b, hexValue? c with
        | some high, some low => (high * 16 + low) :: unescape rest
        | _, _ => a :: unescape (b :: c :: rest)
      else a :: unescape (b :: c :: rest)
  | bs => bs

/-- A name or a value of a form: plus signs are blanks, and escapes are bytes of UTF-8. -/
def decode (part : List Char) : String :=
  let blanks := part.map fun c => if c = '+' then ' ' else c
  String.ofList (Text.decodeLossy (unescape (Text.utf8 (String.ofList blanks))))

/-- The name and value of a part; a part without an equals sign has an empty value. -/
def pair (part : List Char) : String × String :=
  (decode (part.takeWhile (· ≠ '=')), decode ((part.dropWhile (· ≠ '=')).drop 1))

/-- The names and values of a query, in order; empty parts do not count. -/
def parse (query : String) : List (String × String) :=
  ((Text.splitAt '&' query.toList).filter (!·.isEmpty)).map pair

end Visibility.Http.Form
