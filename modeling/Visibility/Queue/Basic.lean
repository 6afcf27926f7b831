import Visibility.Queue.Wake

/-!
A rate-limited work queue.

The queue holds each key at most once and never hands one out to two workers at a time: a key that is
added while a worker has it is marked dirty, and queued when the worker is done with it. Keys that
failed come back after a delay, short at first and long later. A queue that shuts down takes no more
keys and hands out those it has.

Times and waits are in milliseconds. A wait is left to a timer, and the timers end every wait after thirty years:
that limit is theirs, and neither the queue nor the loop knows of it.
-/

namespace Visibility

namespace Clock

/-- The longest wait of a timer: thirty years of 365 days. -/
def longestWait : Nat := 30 * 365 * 24 * 60 * 60 * 1000

/-- When a timer that is set now ends a wait. -/
def after (now wait : Nat) : Nat := now + min wait longestWait

theorem after_eq_add (now : Nat) {wait : Nat} (h : wait ≤ longestWait) :
    after now wait = now + wait := by
  rw [after, Nat.min_eq_left h]

end Clock

/-- Delays for keys that failed, in milliseconds. -/
structure Limiter where
  fast : Nat := 5
  slow : Nat := 10000
  /-- How many failures of a key are followed by the fast delay. -/
  maxFast : Nat := 3
deriving DecidableEq, Repr

/-- The delay after a number of failures. -/
def Limiter.delay (l : Limiter) (failures : Nat) : Nat :=
  if failures ≤ l.maxFast then l.fast else l.slow

/-- What a queue counts of its work, and how many keys wait. -/
structure QueueMetrics where
  adds : Nat := 0
  retries : Nat := 0
  drops : Nat := 0
  depth : Nat := 0
deriving DecidableEq, Repr

/-- A key that is to be added later. -/
structure Delayed (κ : Type) where
  due : Nat
  key : κ
deriving DecidableEq, Repr

/-- A work queue in which a key waits at most once. -/
structure Queue (κ : Type) where
  limiter : Limiter := {}
  /-- The keys to hand out, first one first. -/
  waiting : List κ := []
  /-- The keys that need work, whether they wait or a worker has them. -/
  dirty : List κ := []
  /-- The keys that workers have. -/
  processing : List κ := []
  /-- How often each key failed in a row; a key that is not listed did not. -/
  failures : List (κ × Nat) := []
  shuttingDown : Bool := false
  delayed : List (Delayed κ) := []
  wake : Wake := {}
  metrics : QueueMetrics := {}
deriving DecidableEq, Repr

namespace Queue

variable {κ : Type} [DecidableEq κ]

def size (q : Queue κ) : Nat := q.waiting.length

/-- Brings the depth among the metrics up to date. -/
def measure (q : Queue κ) : Queue κ := { q with metrics := { q.metrics with depth := q.size } }

/-- Puts a key at the end and wakes a getter. -/
def push (q : Queue κ) (k : κ) : Queue κ :=
  { q with waiting := q.waiting ++ [k], wake := q.wake.one }.measure

/-- Whether the queue would take a key. -/
def accepts (q : Queue κ) (k : κ) : Bool := !q.shuttingDown && k ∉ q.dirty

/-- Marks a key for work. -/
def add (q : Queue κ) (k : κ) : Queue κ :=
  if q.accepts k then
    let q := { q with
      dirty := k :: q.dirty
      metrics := { q.metrics with adds := q.metrics.adds + 1 } }
    if k ∈ q.processing then q else q.push k
  else q

/-- Adds a key when a delay is over, unless the queue shuts down before. -/
def addAfter (q : Queue κ) (now delay : Nat) (k : κ) : Queue κ :=
  if q.shuttingDown then q
  else if delay = 0 then q.add k
  else { q with delayed := q.delayed ++ [⟨Clock.after now delay, k⟩] }

/-- Adds a key whose delay is over. -/
def expire (q : Queue κ) (d : Delayed κ) : Queue κ :=
  { q with delayed := q.delayed.erase d }.add d.key

/-- How often a key failed in a row. -/
def requeues (q : Queue κ) (k : κ) : Nat := (q.failures.lookup k).getD 0

/-- Takes out the count of failures of a key. -/
def forget (q : Queue κ) (k : κ) : Queue κ :=
  { q with failures := q.failures.filter fun f => f.1 ≠ k }

/-- Counts a failure of a key and adds it after the delay that its failures ask for. -/
def retry (q : Queue κ) (now : Nat) (k : κ) : Queue κ :=
  let failures := q.requeues k + 1
  { q with
    failures := (k, failures) :: (q.forget k).failures
    metrics := { q.metrics with retries := q.metrics.retries + 1 }
  }.addAfter now (q.limiter.delay failures) k

/-- Gives a key up. -/
def drop (q : Queue κ) (k : κ) : Queue κ :=
  let q := q.forget k
  { q with metrics := { q.metrics with drops := q.metrics.drops + 1 } }

/-- Hands out the first key, and wakes another getter if there are more. -/
def take? (q : Queue κ) : Option (κ × Queue κ) :=
  match q.waiting with
  | [] => none
  | k :: rest =>
      let q := { q with
        waiting := rest
        dirty := q.dirty.filter (· ≠ k)
        processing := k :: q.processing.filter (· ≠ k)
        wake := if rest.isEmpty then q.wake else q.wake.one }
      some (k, q.measure)

/-- Takes a key back from a worker, and queues it if it was added in the meantime. -/
def release (q : Queue κ) (k : κ) : Queue κ :=
  let q := { q with processing := q.processing.filter (· ≠ k) }
  if k ∈ q.dirty then q.push k else q

/-- Takes no more keys; what was to be added later is not. -/
def shutDown (q : Queue κ) : Queue κ :=
  { q with shuttingDown := true, delayed := [], wake := q.wake.all }

end Queue

end Visibility
