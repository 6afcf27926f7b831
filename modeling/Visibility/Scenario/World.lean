import Visibility.Scenario.Step
import Visibility.Service.Loop
import Visibility.Service.Worker

/-!
The world of a scenario: the stores, the service, its scripted surroundings, and what is under way.

What is under way is kept in threads. A thread is a stack of frames of which only the top one moves;
steps that happen inside a call stand above the frame of the call.
-/

namespace Visibility.Scenario

/-- Something that takes more than one move, by what it does next. -/
inductive Job where
  | call (c : Call)
  | compute (c : ClusterHash.Computation)
  | request (r : ClusterHash.Request)
  | list (l : Listing)
  /-- A listing that answers a request of the given method. -/
  | serve (method : String) (l : Listing)
  | object (ns : String)
  | publish (r : Resource) (p : Publication)
  /-- Getting a key without waiting for one. -/
  | take (ticket : Nat) (g : Getter ChangeKey)
  /-- A worker that ends after one key. -/
  | work (w : Worker)
  /-- A worker that goes on as long as there may be keys. -/
  | workOn (w : Worker)
  | loop (l : Loop)
  /-- Waiting for a time to pass that starts now. -/
  | pause (time : Nat)
  | sleep (due : Nat)
  | join

inductive Frame where
  /-- The steps left to do, at a point or on their own, and the answers so far, last one first. -/
  | steps (point : Option Point) (left : List Step) (answers : List Answer)
  /-- A job; `reached` tells that the point before its next look is behind it. -/
  | job (job : Job) (reached : Bool)

/-- A stack of frames, top one first; it is over when it is empty. -/
abbrev Thread := List Frame

/-- A watcher that was told who may access a namespace. -/
structure Event where
  watcher : String
  ns : String
  users : NameSet
  groups : NameSet

/-- What is reported of a step once it is over. -/
structure Report where
  answer : Answer := .nothing
  /-- The namespaces that the reviewer was asked about. -/
  reviewed : List String := []
  events : List Event := []
  /-- The kinds that were listed for the whole cluster. -/
  listed : List Rbac.Kind := []
  /-- The points that steps happened at, with their answers. -/
  nested : List (Point × List Answer) := []

/-- The loop in the background, as far as it is known to who started it. -/
inductive Handle where
  | idle
  | running
  /-- The loop could not run. -/
  | broken
deriving DecidableEq

/-- All that a scenario is played with. -/
structure World where
  config : Config
  stores : Stores := {}
  service : Service := .new config
  /-- A digest of the cluster-scoped objects that is kept apart from the service. -/
  clusterHash : ClusterHash := {}
  scripts : Table Script := ∅
  /-- The points at which calls fail, and why. -/
  faults : List (Point × String) := []
  /-- The steps to happen at points, in the order in which they are used up. -/
  hooks : List (Point × List Step) := []
  now : Nat := 0
  tickets : Nat := 0
  handle : Handle := .idle
  /-- Whether the loop was told to stop. -/
  stopping : Bool := false
  background : List Thread := []
  report : Report := {}

namespace World

/-- What is scripted for a namespace; without a script nothing is. -/
def script (w : World) (ns : String) : Script := (w.scripts.get? ns).getD {}

/-- What a call finds when it looks now. -/
def moment (w : World) : Moment :=
  { stores := w.stores
    fault := fun q => w.faults.lookup (.query q)
    reviewer := fun ns => (w.script ns).answer }

def setCache (w : World) (c : Cache) : World := { w with service := { w.service with cache := c } }

def setQueue (w : World) (q : Queue ChangeKey) : World :=
  { w with service := { w.service with queue := q } }

/-- A ticket that nobody has. -/
def ticket (w : World) : World × Nat := ({ w with tickets := w.tickets + 1 }, w.tickets)

/-- Uses up the first steps that are to happen at a point. -/
def reach (w : World) (p : Point) : World × List Frame :=
  match w.hooks.lookup p with
  | none => (w, [])
  | some steps =>
      ({ w with hooks := w.hooks.eraseP fun h => h.1 = p }, [.steps (some p) steps []])

/-- Comes to a look at a store. -/
def reachQuery (w : World) (q : Query) : World × List Frame :=
  let w := match q with
    | .cluster k => { w with report := { w.report with listed := w.report.listed ++ [k] } }
    | _ => w
  w.reach (.query q)

/-- Takes note of what a call did, and of what has to happen before the call goes on: a reviewer's
delay starts after the steps at the point where it was asked. -/
def observe (w : World) : Option Effect → World × List Frame
  | some (.asked ns) =>
      let w := { w with report := { w.report with reviewed := w.report.reviewed ++ [ns] } }
      let delay := (w.script ns).delay.toList.map fun d => Frame.job (.pause d) false
      let (w, steps) := w.reach (.review ns)
      (w, steps ++ delay)
  | some (.notified watcher ns users groups) =>
      let events := w.report.events ++ [⟨watcher, ns, users, groups⟩]
      { w with report := { w.report with events } }.reach (.notified ns)
  | _ => (w, [])

/-- Takes note of the answers to steps that are over. -/
def conclude (w : World) (point : Option Point) (answers : List Answer) : World :=
  let report := match point with
    | some p => { w.report with nested := w.report.nested ++ [(p, answers)] }
    | none => { w.report with answer := answers.headD .nothing }
  { w with report }

end World

end Visibility.Scenario
