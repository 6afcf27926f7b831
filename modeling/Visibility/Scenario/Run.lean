import Visibility.Scenario.Begin

/-!
Playing a scenario.

The thread of the scenario goes first and as far as it can, then what was to be added to the queue by
now, then the threads of the background one by one. Only when nothing of this can move and the thread
of the scenario waits does the clock jump to the next time that something is due.
-/

namespace Visibility.Scenario

/-- Whether the frame on top of a thread can make a step now. -/
def Thread.canMove (w : World) : Thread → Bool
  | [] => false
  | .steps _ _ _ :: _ => true
  | .job j _ :: _ => !j.isStuck w

/-- The time that a thread waits for. -/
def Thread.due? : Thread → Option Nat
  | .job j _ :: _ => j.due?
  | _ => none

/-- Hands an answer to the frame that waits for it. -/
def Thread.deliver (a : Answer) : Thread → Thread
  | .steps point left answers :: below => .steps point left (a :: answers) :: below
  | t => t

/-- One move of the top frame of a thread. A job that is about to look at a store first comes to the
point before the look. -/
def Thread.step (w : World) : Thread → World × Thread
  | [] => (w, [])
  | .steps point [] answers :: below => (w.conclude point answers.reverse, below)
  | .steps point (s :: left) answers :: below =>
      match w.begin s with
      | (w, .answer a) => (w, .steps point left (a :: answers) :: below)
      | (w, .job j) => (w, .job j false :: .steps point left answers :: below)
  | .job j reached :: below =>
      match j.query?, reached with
      | some q, false =>
          let (w, above) := w.reachQuery q
          (w, above ++ .job j true :: below)
      | _, _ =>
          match j.step w with
          | (w, .more j above) => (w, above ++ .job j false :: below)
          | (w, .finished a) => (w, Thread.deliver a below)

/-- Takes the first member with a property out of a list. -/
def extract? {α : Type} (p : α → Bool) : List α → Option (α × List α)
  | [] => none
  | a :: rest => if p a then some (a, rest) else (extract? p rest).map fun (b, left) => (b, a :: left)

/-- A scenario in the middle of a step. -/
structure Run where
  world : World
  thread : Thread

namespace Run

def dues (r : Run) : List Nat :=
  (r.thread :: r.world.background).filterMap Thread.due? ++
    r.world.service.queue.delayed.map (·.due)

/-- A move in the background: of a key whose delay is over, or else of the first thread that can,
which stays first and so goes on as far as it can. Keys that come due together are thus all added
before one of them is handled. -/
def settle? (w : World) : Option World :=
  match w.service.queue.delayed.find? fun d => d.due ≤ w.now with
  | some d => some (w.setQueue (w.service.queue.expire d))
  | none =>
      (extract? (Thread.canMove w) w.background).map fun (t, others) =>
        let (w, t) := t.step { w with background := others }
        if t.isEmpty then w else { w with background := t :: w.background }

/-- The next move, if there is any to make before the next step. -/
def step? (r : Run) : Option Run :=
  if r.thread.canMove r.world then
    let (world, thread) := r.thread.step r.world
    some ⟨world, thread⟩
  else
    match settle? r.world with
    | some world => some { r with world }
    | none =>
        if r.thread.isEmpty then none
        else r.dues.min?.map fun due => { r with world := { r.world with now := due } }

/-- Makes at most the given number of moves. -/
def moves : Nat → Run → Run
  | 0, r => r
  | n + 1, r =>
      match r.step? with
      | some r => moves n r
      | none => r

end Run

/-- More moves than any scenario makes. -/
def patience : Nat := Nat.pow 2 48

/-- Plays one step, and lets everything that is due happen. -/
def World.play (w : World) (s : Step) : World × Report :=
  let r := (Run.mk { w with report := {} } [.steps none [s] []]).moves patience
  (r.world, r.world.report)

def World.playAll (w : World) : List Step → List Report
  | [] => []
  | s :: steps =>
      let (w, report) := w.play s
      report :: w.playAll steps

/-- The reports on the steps of a scenario that starts afresh. -/
def play (config : Config) (steps : List Step) : List Report :=
  World.playAll { config } steps

end Visibility.Scenario
