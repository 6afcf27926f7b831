import Visibility.Label.Selector
import Visibility.Text.Quoted
import Visibility.Text.Split

/-!
The text form of label selectors, such as `env=prod,tier in (web,api),!legacy`.

A selector is a list of requirements with commas between them. Commas inside parentheses belong to a
set of values; parentheses are matched over the whole text before any requirement is read, so a text
in which they do not match is refused for that, whatever else is wrong with it.
-/

namespace Visibility.Label

/-- Why a text is no selector. -/
inductive ParseError where
  | emptyRequirement
  | invalidKey (text : String)
  | invalidValue (text : String)
  | unbalanced
  | invalidRequirement (text : String)
deriving DecidableEq, Repr

namespace ParseError

/-- The text that is at fault, where a part of the input is. -/
def text? : ParseError → Option String
  | invalidKey t | invalidValue t | invalidRequirement t => some t
  | emptyRequirement | unbalanced => none

def message : ParseError → String
  | emptyRequirement => "selector contains an empty requirement"
  | invalidKey t => "invalid label key " ++ Text.quoted t
  | invalidValue t => "invalid label value " ++ Text.quoted t
  | unbalanced => "selector has unbalanced parentheses"
  | invalidRequirement t => "unable to parse requirement " ++ Text.quoted t

end ParseError

open Text (consHead isBlank splitAt trim trimStart)

/-- The letters and digits of ASCII, and a few signs. -/
def isValueChar (c : Char) : Bool := c.isAlphanum || c = '-' || c = '_' || c = '.'

def isKeyChar (c : Char) : Bool := isValueChar c || c = '/'

/-- Whether a text can be the key of a label. The longest keys are a prefix of 253 characters, a slash
and a name of 63. -/
def isKey (s : List Char) : Bool := !s.isEmpty && s.length ≤ 317 && s.all isKeyChar

/-- Whether a text can be the value of a label. -/
def isValue (s : List Char) : Bool := s.length ≤ 63 && s.all isValueChar

def readKey (s : List Char) : Except ParseError String :=
  if isKey s then .ok (String.ofList s) else .error (.invalidKey (String.ofList s))

/-- Reads the value of a label, which may be empty. -/
def readValue (s : List Char) : Except ParseError String :=
  if isValue s then .ok (String.ofList s) else .error (.invalidValue (String.ofList s))

/-- Reads a value of a set, which may not be empty. -/
def readMember (s : List Char) : Except ParseError String :=
  if (trim s).isEmpty then .error (.invalidValue "") else readValue (trim s)

/-- Splits at the commas outside parentheses, `depth` of which are open. -/
def splitAtDepth : Nat → List Char → Except ParseError (List (List Char))
  | 0, [] => .ok [[]]
  | _ + 1, [] => .error .unbalanced
  | depth, c :: rest =>
      if c = '(' then (splitAtDepth (depth + 1) rest).map (consHead c)
      else if c = ')' then
        match depth with
        | 0 => .error .unbalanced
        | depth + 1 => (splitAtDepth depth rest).map (consHead c)
      else if c = ',' ∧ depth = 0 then (splitAtDepth 0 rest).map ([] :: ·)
      else (splitAtDepth depth rest).map (consHead c)

/-- The parts of a text between its commas outside parentheses. -/
def splitRequirements (s : List Char) : Except ParseError (List (List Char)) := splitAtDepth 0 s

/-- What comes before and after the first place where a text goes on as `pattern`. -/
def cut? (pattern : List Char) : List Char → Option (List Char × List Char)
  | [] => if pattern.isEmpty then some ([], []) else none
  | c :: rest =>
      if pattern.isPrefixOf (c :: rest) then some ([], (c :: rest).drop pattern.length)
      else (cut? pattern rest).map fun p => (c :: p.1, p.2)

/-- What comes before and after the first blank. -/
def cutAtBlank? : List Char → Option (List Char × List Char)
  | [] => none
  | c :: rest =>
      if isBlank c then some ([], rest)
      else (cutAtBlank? rest).map fun p => (c :: p.1, p.2)

/-- What follows `start` in a text that starts so. -/
def after? (start s : List Char) : Option (List Char) :=
  if start.isPrefixOf s then some (s.drop start.length) else none

/-- What a text in parentheses holds between them. -/
def unwrap? (s : List Char) : Option (List Char) :=
  match s with
  | '(' :: rest => if rest.getLast? = some ')' then some rest.dropLast else none
  | _ => none

/-- Reads the set of values after `in` or `notin`. -/
def readSet (requirement : List Char) (operator : Operator) (key : String) (s : List Char) :
    Except ParseError Requirement :=
  match unwrap? (trim s) with
  | none => .error (.invalidRequirement (String.ofList requirement))
  | some members => do
      let values ← (splitAt ',' members).mapM readMember
      return ⟨key, operator, NameSet.ofList values⟩

/-- Reads one requirement, with white space around its tokens. -/
def readRequirement (text : List Char) : Except ParseError Requirement := do
  let s := trim text
  if s.isEmpty then throw .emptyRequirement
  if let some key := after? ['!'] s then
    return ⟨← readKey (trim key), .absent, ∅⟩
  if let some (key, value) := cut? ['!', '='] s then
    let key ← readKey (trim key)
    let value ← readValue (trim value)
    return ⟨key, .notIn, NameSet.ofList [value]⟩
  if let some (key, value) := cut? ['='] s then
    let value := (after? ['='] value).getD value
    let key ← readKey (trim key)
    let value ← readValue (trim value)
    return ⟨key, .isIn, NameSet.ofList [value]⟩
  let some (key, rest) := cutAtBlank? s | return ⟨← readKey s, .present, ∅⟩
  let key ← readKey (trim key)
  let rest := trimStart rest
  if let some set := after? ['n', 'o', 't', 'i', 'n'] rest then readSet s .notIn key set
  else if let some set := after? ['i', 'n'] rest then readSet s .isIn key set
  else throw (.invalidRequirement (String.ofList s))

/-- Reads a selector. A text of white space alone asks for nothing. -/
def Selector.parse (text : String) : Except ParseError Selector :=
  if (trim text.toList).isEmpty then .ok .everything
  else do
    let parts ← splitRequirements text.toList
    return .ofRequirements (← parts.mapM readRequirement)

end Visibility.Label
