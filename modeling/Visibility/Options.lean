import Visibility.Service.Basic

/-!
Command line options.

Every option takes one value, as `--name value` or `--name=value`, and may be given once. A value that
stands alone is only read when the next option or the end of the line follows it, so of two faults
the one that is noticed first is not always the one that is written first.
-/

namespace Visibility

inductive OptionName where
  | resyncPeriod
  | workers
  | fastDelay
  | slowDelay
  | maxFastAttempts
  | maxRetries
  | logFormat
deriving DecidableEq, Repr

namespace OptionName

def all : List OptionName :=
  [resyncPeriod, workers, fastDelay, slowDelay, maxFastAttempts, maxRetries, logFormat]

def name : OptionName → String
  | resyncPeriod => "resync-period-secs"
  | workers => "workers"
  | fastDelay => "queue-fast-delay-ms"
  | slowDelay => "queue-slow-delay-ms"
  | maxFastAttempts => "queue-max-fast-attempts"
  | maxRetries => "max-retries"
  | logFormat => "log-format"

def ofName? (s : List Char) : Option OptionName := all.find? fun o => o.name.toList = s

end OptionName

inductive LogFormat where
  | plain
  | json
deriving DecidableEq, Repr

/-- What the options say, with their defaults. -/
structure Options where
  resyncPeriodSecs : Nat := 30
  workers : Nat := 4
  fastDelayMs : Nat := 5
  slowDelayMs : Nat := 10000
  maxFastAttempts : Nat := 3
  maxRetries : Nat := 5
  logFormat : LogFormat := .plain
deriving DecidableEq, Repr

/-- Why a command line is refused. -/
inductive OptionsError where
  /-- The value of an option cannot be read. -/
  | invalidValue (option : OptionName)
  /-- The line ends where a value should follow. -/
  | missingValue (option : OptionName)
  | unknownArgument (argument : String)
  | repeated (option : OptionName)
deriving DecidableEq, Repr

namespace OptionsError

def message : OptionsError → String
  | invalidValue o => "invalid value for --" ++ o.name
  | missingValue o => "a value is required for --" ++ o.name
  | unknownArgument a => "unexpected argument " ++ a
  | repeated o => s!"--{o.name} cannot be used multiple times"

end OptionsError

namespace Options

/-- Reads decimal digits, at least one. -/
def readDigits? (ds : List Char) : Option Nat :=
  if ds.isEmpty || !ds.all Char.isDigit then none else some (Nat.ofDigitChars 10 ds 0)

/-- Reads a natural number: digits, with an optional plus sign. -/
def readNat? : List Char → Option Nat
  | '+' :: ds => readDigits? ds
  | ds => readDigits? ds

/-- Reads an integer: digits, with an optional sign. -/
def readInt? : List Char → Option Int
  | '-' :: ds => (readDigits? ds).map fun n => -(n : Int)
  | cs => (readNat? cs).map fun n => (n : Int)

/-- Reads a natural number below 2^64. -/
def readWord? (s : String) : Option Nat := (readNat? s.toList).filter (· < UInt64.size)

/-- Reads an integer that is not negative and below 2^32, so that zero may have a minus sign. -/
def readCount? (s : String) : Option Nat :=
  ((readInt? s.toList).filter fun (n : Int) => 0 ≤ n && n < 4294967296).map Int.toNat

def set? (opts : Options) (o : OptionName) (value : String) : Option Options :=
  match o with
  | .resyncPeriod => (readWord? value).map fun n => { opts with resyncPeriodSecs := n }
  | .workers => (readWord? value).map fun n => { opts with workers := n }
  | .fastDelay => (readWord? value).map fun n => { opts with fastDelayMs := n }
  | .slowDelay => (readWord? value).map fun n => { opts with slowDelayMs := n }
  | .maxFastAttempts => (readCount? value).map fun n => { opts with maxFastAttempts := n }
  | .maxRetries => (readCount? value).map fun n => { opts with maxRetries := n }
  | .logFormat =>
      if value = "plain" then some { opts with logFormat := .plain }
      else if value = "json" then some { opts with logFormat := .json }
      else none

/-- The reading of a command line so far. -/
structure Reading where
  options : Options := {}
  seen : List OptionName := []
  /-- An option that is not settled yet, with its value if that has come. -/
  pending : Option (OptionName × Option String) := none
  trailing : Bool := false

namespace Reading

/-- Settles an option. -/
def assign (r : Reading) (o : OptionName) (value : Option String) : Except OptionsError Reading :=
  match value with
  | none => .error (.missingValue o)
  | some value =>
      if o ∈ r.seen then .error (.repeated o)
      else
        match r.options.set? o value with
        | some options => .ok { r with options, seen := o :: r.seen }
        | none => .error (.invalidValue o)

/-- Reads the value of the option that is pending; one that has none is refused. -/
def settle (r : Reading) : Except OptionsError Reading :=
  match r.pending with
  | none => .ok r
  | some (o, value) => { r with pending := none }.assign o value

/-- Reads an option by its name and the value that is attached to it. -/
def option (r : Reading) (argument : String) (name : List Char) (value : Option String) :
    Except OptionsError Reading :=
  match OptionName.ofName? name, value with
  | some o, some value => do (← r.settle).assign o (some value)
  | some o, none => return { ← r.settle with pending := some (o, none) }
  | none, _ => .error (.unknownArgument argument)

/-- Takes one argument in. A value that stands alone is kept until the next option. -/
def argument (r : Reading) (a : String) : Except OptionsError Reading :=
  if r.trailing then .error (.unknownArgument a)
  else
    match a.toList with
    | ['-', '-'] => .ok { r with trailing := true }
    | '-' :: '-' :: rest =>
        let value := match rest.dropWhile (· ≠ '=') with
          | [] => none
          | _ :: value => some (String.ofList value)
        r.option a (rest.takeWhile (· ≠ '=')) value
    | '-' :: _ :: _ => .error (.unknownArgument a)
    | _ =>
        match r.pending with
        | some (o, none) => .ok { r with pending := some (o, some a) }
        | _ => .error (.unknownArgument a)

end Reading

/-- Reads the arguments of a command line, from first to last. -/
def parse (arguments : List String) : Except OptionsError Options := do
  let r ← arguments.foldlM Reading.argument {}
  return (← r.settle).options

/-- The set-up of the service that the options ask for. -/
def config (opts : Options) : Config :=
  { workers := opts.workers
    maxRetries := opts.maxRetries
    limiter := ⟨opts.fastDelayMs, opts.slowDelayMs, opts.maxFastAttempts⟩ }

/-- The time between two passes, in milliseconds. -/
def period (opts : Options) : Nat := opts.resyncPeriodSecs * 1000

end Options

end Visibility
