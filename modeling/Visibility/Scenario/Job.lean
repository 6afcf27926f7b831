import Visibility.Scenario.World

namespace Visibility.Scenario

/-- What a move leaves: more to do below some frames, or an answer. -/
inductive Outcome where
  | more (job : Job) (above : List Frame)
  | finished (answer : Answer)

def hashAnswer : Except HashError String → Answer
  | .ok hash => .hash (some hash)
  | .error e => .hashFailed e

def listAnswer : Except Rbac.ListError (List Object) → Answer
  | .ok objects => .listed objects
  | .error e => .storeFailed e

/-- The answer to a call that is over. -/
def callAnswer? : Call → Option Answer
  | .refresh r => r.result?.map fun
      | .ok () => .refreshed
      | .error e => .refreshFailed e
  | .pass (.done (.ok o)) => some (.outcome o)
  | .pass (.done (.error e)) => some (.hashFailed e)
  | .pass _ => none

namespace World

/-- The answer to an event: how many objects of its resource are stored, and in which version. -/
def stored (w : World) (r : Resource) : Answer :=
  .stored (w.stores.size r) <|
    match r with
    | .rbac k => some (w.stores.rbac.version k)
    | .namespaces => none

/-- The answer to an event that came so far. -/
def settled (w : World) (r : Resource) : Completion → Answer
  | .complete => w.stored r
  | .unnamed => .broken

/-- Whether a thread is one of the background that a property of its lowest job tells. -/
def hasThread (w : World) (p : Job → Bool) : Bool :=
  w.background.any fun t =>
    match t.getLast? with
    | some (.job j _) => p j
    | _ => false

def workersDone (w : World) : Bool :=
  !w.hasThread fun
    | .workOn _ => true
    | _ => false

def loopDone (w : World) : Bool :=
  !w.hasThread fun
    | .loop _ => true
    | _ => false

end World

namespace Job

/-- The look at a store that the next move makes. -/
def query? : Job → Option Query
  | call c => c.query?
  | compute c => c.query?
  | request r => r.query?
  | list l | serve _ l => l.query?
  | object ns => some (.object ns)
  | work w | workOn w => w.query?
  | loop l => l.query?
  | publish _ _ | take _ _ | pause _ | sleep _ | join => none

/-- Whether a job waits for another thread or for the time. -/
def isStuck (w : World) : Job → Bool
  | work x | workOn x => x.isStuck w.service
  | loop l => l.isStuck w.now w.stopping w.workersDone
  | sleep due => w.now < due
  | join => !w.loopDone
  | _ => false

/-- The time that a job waits for. -/
def due? : Job → Option Nat
  | sleep due => some due
  | loop l =>
      match l.phase with
      | .wait => some l.ticker.due
      | _ => none
  | _ => none

/-- Moves a worker; tells whether there may be more keys once it is over. -/
def stepWorker (w : World) (x : Worker) : World × List Frame × Worker × Option Bool :=
  let (service, x, effect) := x.step w.config w.now w.moment w.service
  let (w, above) := { w with service }.observe effect
  let more := match x.phase with
    | .done more => some more
    | _ => none
  (w, above, x, more)

def step (w : World) : Job → World × Outcome
  | call c =>
      let p := c.step w.moment w.service.cache
      let (w, above) := (w.setCache p.cache).observe p.effect
      (w, (callAnswer? p.next).elim (.more (.call p.next) above) .finished)
  | compute c =>
      let (h, c) := c.step w.moment w.clusterHash
      let w := { w with clusterHash := h }
      match c with
      | .done result => (w, .finished (hashAnswer result))
      | c => (w, .more (.compute c) [])
  | request r =>
      let (h, r) := r.step w.moment w.clusterHash
      let w := { w with clusterHash := h }
      match r with
      | .done result => (w, .finished (hashAnswer result))
      | r => (w, .more (.request r) [])
  | list l =>
      let l := l.step w.moment w.service.cache
      match l.phase with
      | .done result => (w, .finished (listAnswer result))
      | _ => (w, .more (.list l) [])
  | serve method l =>
      let l := l.step w.moment w.service.cache
      match l.phase with
      | .done result => (w, .finished (.response (Endpoint.send method (Endpoint.answer result))))
      | _ => (w, .more (.serve method l) [])
  | object ns =>
      match w.moment.object ns with
      | .ok o => (w, .finished (.object o))
      | .error e => (w, .finished (.storeFailed e))
  | publish r p =>
      let (stores, queue, p) := p.step w.stores w.service.queue
      let w := { w with stores }.setQueue queue
      match p with
      | .done completion => (w, .finished (w.settled r completion))
      | p => (w, .more (.publish r p) [])
  | take ticket g =>
      if g.isStuck ticket w.service.queue then
        let q := w.service.queue
        (w.setQueue { q with wake := q.wake.leave ticket }, .finished .pending)
      else
        let (q, g) := g.step ticket w.service.queue
        let w := w.setQueue q
        match g with
        | .got key => (w, .finished (.taken key q.size))
        | .closed => (w, .finished .closed)
        | g => (w, .more (.take ticket g) [])
  | work x =>
      let (w, above, x, more) := stepWorker w x
      (w, more.elim (.more (.work x) above) fun m => .finished (.worked m w.service.queue.size))
  | workOn x =>
      let (w, above, x, more) := stepWorker w x
      match more with
      | none => (w, .more (.workOn x) above)
      | some true =>
          let (w, ticket) := w.ticket
          (w, .more (.workOn (.start ticket)) [])
      | some false => (w, .finished .nothing)
  | loop l =>
      let (service, l, effect) := l.step w.now w.stopping w.workersDone .signal w.moment w.service
      let (w, above) := { w with service }.observe effect
      match l.phase with
      | .stopped => (w, .finished .nothing)
      | _ => (w, .more (.loop l) above)
  | pause time => (w, .more (.sleep (Clock.after w.now time)) [])
  | sleep _ => (w, .finished .nothing)
  | join => (w, .finished .stopped)

end Job

end Visibility.Scenario
