import Visibility.Queue.Basic

/-!
Getting a key from the queue, and waiting for one.

A getter takes a round number of the notifier before it looks at the queue, so that it does not miss
a wake-up for all between its look and its parking.
-/

namespace Visibility

/-- A getter, by what it does next. -/
inductive Getter (κ : Type) where
  /-- Takes a round number. -/
  | enter
  | look (round : Nat)
  /-- Parks, unless it is to look again. -/
  | park (round : Nat)
  | parked
  | got (key : κ)
  /-- The queue shut down and has no key. -/
  | closed
deriving DecidableEq, Repr

namespace Getter

variable {κ : Type} [DecidableEq κ]

/-- One step of the getter that holds a ticket. -/
def step (ticket : Nat) (q : Queue κ) : Getter κ → Queue κ × Getter κ
  | enter => (q, look q.wake.round)
  | look round =>
      match q.take? with
      | some (k, q) => (q, got k)
      | none => if q.shuttingDown then (q, closed) else (q, park round)
  | park round =>
      match q.wake.park ticket round with
      | (w, true) => ({ q with wake := w }, parked)
      | (w, false) => ({ q with wake := w }, enter)
  | parked =>
      match q.wake.goOn? ticket with
      | some w => ({ q with wake := w }, enter)
      | none => (q, parked)
  | got k => (q, got k)
  | closed => (q, closed)

/-- Whether a getter has to be woken before it can go on. -/
def isStuck (ticket : Nat) (q : Queue κ) : Getter κ → Bool
  | parked => ticket ∉ q.wake.woken
  | _ => false

end Getter

end Visibility
