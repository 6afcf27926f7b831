import Visibility.Service.Basic

/-!
The loop in the background: a pass at once and then periodically, until it is told to stop.

A tick that comes late by no more than the slack does not shift the ticks after it; one that comes
later starts the period anew. On its way out the loop of a service shuts the queue down and waits for
the workers.
-/

namespace Visibility

/-- A clock that ticks periodically. -/
structure Ticker where
  period : Nat
  due : Nat
deriving DecidableEq, Repr

namespace Ticker

/-- How late a tick may come without a shift of the ticks after it. -/
def slack : Nat := 5

/-- A timer that is due at once. There is none without a period. -/
def start? (period now : Nat) : Option Ticker := if period = 0 then none else some ⟨period, now⟩

/-- The timer after a tick that was noticed now. -/
def tick (t : Ticker) (now : Nat) : Ticker :=
  { t with due := Clock.after (if t.due + slack < now then now else t.due) t.period }

end Ticker

namespace Loop

/-- The loop, by what it does next. -/
inductive Phase where
  /-- Waits for the timer or for the signal to stop. -/
  | wait
  | pass (p : Pass.Phase)
  | drain
  | stopped

/-- What ends a wait: the timer or the signal to stop. -/
inductive Cue where
  | tick
  | signal
deriving DecidableEq, Repr

end Loop

/-- The loop of a cache, or of a service and its workers. -/
structure Loop where
  ofService : Bool
  ticker : Ticker
  phase : Loop.Phase

namespace Loop

/-- Starts the loop; without a period it cannot run. -/
def start? (ofService : Bool) (period now : Nat) : Option Loop :=
  (Ticker.start? period now).map (⟨ofService, ·, .wait⟩)

def query? (l : Loop) : Option Query :=
  match l.phase with
  | .pass p => p.query?
  | _ => none

/-- Whether the loop has to wait, for time to pass, the signal or the workers. -/
def isStuck (now : Nat) (stop workersDone : Bool) (l : Loop) : Bool :=
  match l.phase with
  | .wait => !stop && now < l.ticker.due
  | .drain => !workersDone
  | .pass _ | .stopped => false

/-- What ends the wait of the loop now, if anything does. A loop that finds both takes either of them,
which is said by `pick`. -/
def cue? (now : Nat) (stop : Bool) (pick : Cue) (l : Loop) : Option Cue :=
  match stop, decide (l.ticker.due ≤ now) with
  | true, true => some pick
  | true, false => some .signal
  | false, true => some .tick
  | false, false => none

theorem due_of_cue? {now : Nat} {stop : Bool} {pick : Cue} {l : Loop} (h : l.cue? now stop pick = some .tick) :
    l.ticker.due ≤ now := by
  refine Decidable.byContradiction fun hdue => ?_
  simp only [cue?, decide_eq_false hdue] at h
  cases stop <;> cases h

theorem cue?_eq_signal {now : Nat} {pick : Cue} {l : Loop} (h : l.ticker.due ≤ now → pick = .signal) :
    l.cue? now true pick = some .signal := by
  by_cases hdue : l.ticker.due ≤ now
  · simp only [cue?, decide_eq_true hdue, h hdue]
  · simp only [cue?, decide_eq_false hdue]

/-- One step of a loop at a time. The cue that it takes if it finds two is given by `pick`. -/
def step (now : Nat) (stop workersDone : Bool) (pick : Cue) (m : Moment) (s : Service) (l : Loop) :
    Service × Loop × Option Effect :=
  match l.phase with
  | .wait =>
      match l.cue? now stop pick with
      | some .signal =>
          if l.ofService then ({ s with queue := s.queue.shutDown }, { l with phase := .drain }, none)
          else (s, { l with phase := .stopped }, none)
      | some .tick => (s, { l with ticker := l.ticker.tick now, phase := .pass .enter }, none)
      | none => (s, l, none)
  | .pass p =>
      let p := p.step m s.cache
      let phase : Phase := match p.next with
        | .done _ => .wait
        | next => .pass next
      ({ s with cache := p.cache }, { l with phase := phase }, p.effect)
  | .drain => if workersDone then (s, { l with phase := .stopped }, none) else (s, l, none)
  | .stopped => (s, l, none)

end Loop

end Visibility
