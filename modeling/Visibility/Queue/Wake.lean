/-!
Waking those who wait: a notifier that wakes one waiter or all of them.

A wake-up for one goes to the waiter that has been parked longest, or is kept as a permit for the
next that would park; there is never more than one permit. A wake-up for all reaches everyone who has
taken a round number before it, parked or not, and leaves no permit.
-/

namespace Visibility

/-- A notifier, with those who wait for it. -/
structure Wake where
  /-- Whether the next one that would park goes on at once. -/
  permit : Bool := false
  /-- How often all were woken. -/
  round : Nat := 0
  /-- The tickets of those that wait, longest first. -/
  parked : List Nat := []
  /-- The tickets of those that were woken and have not gone on. -/
  woken : List Nat := []
deriving DecidableEq, Repr

namespace Wake

/-- Wakes the one that has been parked longest, or keeps a permit. -/
def one (w : Wake) : Wake :=
  match w.parked with
  | [] => { w with permit := true }
  | t :: parked => { w with parked := parked, woken := w.woken ++ [t] }

/-- Wakes everyone who has taken a round number, and starts the next round. -/
def all (w : Wake) : Wake :=
  { w with round := w.round + 1, parked := [], woken := w.woken ++ w.parked }

/-- Parks a ticket, unless there is a permit to use up or all were woken since the round that its
holder took. Tells whether the ticket was parked. -/
def park (w : Wake) (ticket round : Nat) : Wake × Bool :=
  if w.permit then ({ w with permit := false }, false)
  else if w.round ≠ round then (w, false)
  else ({ w with parked := w.parked ++ [ticket] }, true)

/-- Lets the holder of a ticket go on, if it was woken. -/
def goOn? (w : Wake) (ticket : Nat) : Option Wake :=
  if ticket ∈ w.woken then some { w with woken := w.woken.erase ticket } else none

/-- Gives up waiting. -/
def leave (w : Wake) (ticket : Nat) : Wake := { w with parked := w.parked.erase ticket }

end Wake

end Visibility
