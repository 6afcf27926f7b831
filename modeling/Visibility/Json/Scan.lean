import Visibility.Text.Utf8

/-!
Reading JSON text by what is expected of it.

A scanner takes what it reads off the front of a text and leaves the rest, or refuses. Members that
nobody asks for are passed over with `value`, which accepts every well-formed value; the strings in
them may hold escapes of unpaired surrogates, which a string that is read as a text may not.
-/

namespace Visibility.Json

/-- A scanner: what it reads off the front of a text, and the rest. -/
abbrev Scan (α : Type) := List Char → Option (α × List Char)

namespace Scan

def isSpace (c : Char) : Bool := c = ' ' || c = '\t' || c = '\n' || c = '\x0d'

/-- What is left after white space. -/
def skipSpace (s : List Char) : List Char := s.dropWhile isSpace

def word (w : List Char) : Scan Unit := fun s =>
  if w.isPrefixOf s then some ((), s.drop w.length) else none

/-- Reads one token character, with white space before it. -/
def token (c : Char) : Scan Unit := fun s => word [c] (skipSpace s)

/-- The value of a hexadecimal digit, in either case. -/
def hexDigit? (c : Char) : Option Nat :=
  if '0' ≤ c ∧ c ≤ '9' then some (c.toNat - '0'.toNat)
  else if 'a' ≤ c ∧ c ≤ 'f' then some (c.toNat - 'a'.toNat + 10)
  else if 'A' ≤ c ∧ c ≤ 'F' then some (c.toNat - 'A'.toNat + 10)
  else none

/-- Reads the four digits of an escaped code unit. -/
def codeUnit : Scan Nat
  | a :: b :: c :: d :: rest => do
      let a ← hexDigit? a
      let b ← hexDigit? b
      let c ← hexDigit? c
      let d ← hexDigit? d
      return (((a * 16 + b) * 16 + c) * 16 + d, rest)
  | _ => none

/-- The character that a one-letter escape stands for. -/
def letterEscape? : Char → Option Char
  | '"' => some '"'
  | '\\' => some '\\'
  | '/' => some '/'
  | 'b' => some '\x08'
  | 'f' => some '\x0c'
  | 'n' => some '\n'
  | 'r' => some '\x0d'
  | 't' => some '\t'
  | _ => none

def isHighSurrogate (n : Nat) : Bool := 0xd800 ≤ n && n < 0xdc00
def isLowSurrogate (n : Nat) : Bool := 0xdc00 ≤ n && n < 0xe000

/-- Reads one character of a string. `paired` tells whether surrogates have to come in pairs; if not,
one that does not is read as the replacement character. -/
def character (paired : Bool) : Scan Char
  | '\\' :: 'u' :: rest => do
      let (high, rest) ← codeUnit rest
      if isHighSurrogate high then
        match rest with
        | '\\' :: 'u' :: more =>
            let (low, more) ← codeUnit more
            if isLowSurrogate low then
              return (Char.ofNat (0x10000 + (high - 0xd800) * 0x400 + (low - 0xdc00)), more)
            else if paired then none
            else return (Text.replacement, rest)
        | _ => if paired then none else return (Text.replacement, rest)
      else if isLowSurrogate high then
        if paired then none else return (Text.replacement, rest)
      else return (Char.ofNat high, rest)
  | '\\' :: c :: rest => do return (← letterEscape? c, rest)
  | c :: rest => if c.toNat < 0x20 || c = '"' || c = '\\' then none else some (c, rest)
  | [] => none

/-- Reads the rest of a string, after its opening quote. -/
def characters (paired : Bool) : Nat → Scan (List Char)
  | 0, _ => none
  | n + 1, s =>
      match s with
      | '"' :: rest => some ([], rest)
      | s => do
          let (c, rest) ← character paired s
          let (cs, rest) ← characters paired n rest
          return (c :: cs, rest)

/-- Reads a string, in which surrogates have to come in pairs. -/
def text : Scan String := fun s => do
  let ((), rest) ← token '"' s
  let (cs, rest) ← characters true (rest.length + 1) rest
  return (String.ofList cs, rest)

/-- Reads at least one digit. -/
def digits : Scan (List Char) := fun s =>
  match s.span Char.isDigit with
  | ([], _) => none
  | p => some p

/-- Reads digits that do not start with a needless zero. -/
def integer : Scan (List Char)
  | '0' :: c :: rest => if c.isDigit then none else some (['0'], c :: rest)
  | s => digits s

/-- Reads what may follow, unless it does not start with one of the given characters. -/
def optionally (starts : List Char) (scan : Scan Unit) : Scan Unit := fun s =>
  match s with
  | c :: rest => if starts.contains c then scan rest else some ((), s)
  | [] => some ((), s)

/-- Reads the fraction of a number, after its point. -/
def fraction : Scan Unit := fun s => do
  let (_, rest) ← digits s
  return ((), rest)

/-- Reads the exponent of a number, after its letter. -/
def exponent : Scan Unit := fun s => do
  match s with
  | '+' :: rest | '-' :: rest => fraction rest
  | _ => fraction s

def number : Scan Unit := fun s => do
  let ((), rest) ← optionally ['-'] (fun rest => some ((), rest)) s
  let (_, rest) ← integer rest
  let ((), rest) ← optionally ['.'] fraction rest
  optionally ['e', 'E'] exponent rest

/-- Reads a natural number, which is written without sign, fraction and exponent. -/
def natural : Scan Nat := fun s => do
  let (ds, rest) ← integer (skipSpace s)
  match rest with
  | '.' :: _ | 'e' :: _ | 'E' :: _ => none
  | _ => return (Nat.ofDigitChars 10 ds 0, rest)

/-- Reads a value and passes it over. -/
def skip : Nat → Scan Unit
  | 0, _ => none
  | n + 1, s =>
      match skipSpace s with
      | '"' :: rest => do
          let (_, rest) ← characters false (rest.length + 1) rest
          return ((), rest)
      | '[' :: rest =>
          match token ']' rest with
          | some r => some r
          | none => items n (rest.length + 1) rest
      | '\x7b' :: rest =>
          match token '\x7d' rest with
          | some r => some r
          | none => members n (rest.length + 1) rest
      | 't' :: rest => word ['r', 'u', 'e'] rest
      | 'f' :: rest => word ['a', 'l', 's', 'e'] rest
      | 'n' :: rest => word ['u', 'l', 'l'] rest
      | s => number s
where
  /-- The rest of an array, from one of its items on. -/
  items (n : Nat) : Nat → Scan Unit
    | 0, _ => none
    | k + 1, s => do
        let ((), rest) ← skip n s
        match token ']' rest with
        | some r => some r
        | none =>
            let ((), rest) ← token ',' rest
            items n k rest
  /-- The rest of an object, from one of its keys on. -/
  members (n : Nat) : Nat → Scan Unit
    | 0, _ => none
    | k + 1, s => do
        let ((), rest) ← token '"' s
        let (_, rest) ← characters false (rest.length + 1) rest
        let ((), rest) ← token ':' rest
        let ((), rest) ← skip n rest
        match token '\x7d' rest with
        | some r => some r
        | none =>
            let ((), rest) ← token ',' rest
            members n k rest

/-- Reads a value of any form and passes it over. -/
def value : Scan Unit := fun s => skip (s.length + 1) s

/-- Reads a null, or else what is asked for. -/
def nullOr {α : Type} (scan : Scan α) : Scan (Option α) := fun s =>
  match skipSpace s with
  | 'n' :: rest => do
      let ((), rest) ← word ['u', 'l', 'l'] rest
      return (none, rest)
  | s => do
      let (a, rest) ← scan s
      return (some a, rest)

/-- Reads the rest of an array of like items, from one of them on. -/
def itemsOf {α : Type} (scan : Scan α) : Nat → Scan (List α)
  | 0, _ => none
  | n + 1, s => do
      let (a, rest) ← scan s
      match token ']' rest with
      | some ((), rest) => return ([a], rest)
      | none =>
          let ((), rest) ← token ',' rest
          let (as, rest) ← itemsOf scan n rest
          return (a :: as, rest)

/-- Reads the items of an array, one after the other. -/
def arrayOf {α : Type} (scan : Scan α) : Scan (List α) := fun s => do
  let ((), rest) ← token '[' s
  match token ']' rest with
  | some ((), rest) => return ([], rest)
  | none => itemsOf scan (rest.length + 1) rest

/-- A record that is read field by field: how to read each, by its name or by its place. -/
structure Fields (σ : Type) where
  names : List String
  /-- Reads the field of the given place into the record. -/
  read : Nat → σ → Scan σ

/-- Reads the rest of an object into a record, from one of its keys on. A field may come once; other
keys are passed over. -/
def membersInto {σ : Type} (f : Fields σ) : Nat → List Nat → σ → Scan (List Nat × σ)
  | 0, _, _, _ => none
  | n + 1, seen, r, s => do
      let (key, rest) ← text s
      let ((), rest) ← token ':' rest
      let (seen, r, rest) ←
        match f.names.idxOf? key with
        | some i =>
            if i ∈ seen then none
            else (f.read i r rest).map fun p => (i :: seen, p.1, p.2)
        | none => (value rest).map fun p => (seen, r, p.2)
      match token '\x7d' rest with
      | some ((), rest) => return ((seen, r), rest)
      | none =>
          let ((), rest) ← token ',' rest
          membersInto f n seen r rest

/-- Reads the rest of an array into a record, from the field of one place on. -/
def itemsInto {σ : Type} (f : Fields σ) : Nat → List Nat → σ → Scan (List Nat × σ)
  | 0, _, _, _ => none
  | n + 1, seen, r, s => do
      let i := seen.length
      if i < f.names.length then
        let (r, rest) ← f.read i r s
        match token ']' rest with
        | some ((), rest) => return ((i :: seen, r), rest)
        | none =>
            let ((), rest) ← token ',' rest
            itemsInto f n (i :: seen) r rest
      else none

/-- Reads a record: an object with its fields, or an array of them in order. Tells which fields
were there. -/
def record {σ : Type} (f : Fields σ) (start : σ) : Scan (List Nat × σ) := fun s =>
  match skipSpace s with
  | '\x7b' :: rest =>
      match token '\x7d' rest with
      | some ((), rest) => some (([], start), rest)
      | none => membersInto f (rest.length + 1) [] start rest
  | '[' :: rest =>
      match token ']' rest with
      | some ((), rest) => some (([], start), rest)
      | none => itemsInto f (rest.length + 1) [] start rest
  | _ => none

/-- Reads a whole text, with white space around the value. -/
def whole {α : Type} (scan : Scan α) (s : String) : Option α :=
  match scan s.toList with
  | some (a, rest) => if (skipSpace rest).isEmpty then some a else none
  | none => none

end Scan

end Visibility.Json
