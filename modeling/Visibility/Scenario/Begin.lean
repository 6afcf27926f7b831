import Visibility.Scenario.Job

namespace Visibility.Scenario

/-- What a step begins with: its answer or a job. -/
inductive Begun where
  | answer (a : Answer)
  | job (j : Job)

namespace World

/-- The resource that an event is about. -/
def resourceOf : Change → Resource
  | .apply r _ | .delete r _ _ | .reset r _ _ => r

/-- Applies an event to its store alone. -/
def change (w : World) (c : Change) : World × Answer :=
  let (stores, completion) := w.stores.apply c
  let w := { w with stores }
  (w, w.settled (resourceOf c) completion)

/-- Reads the references of a kind off its store. -/
def clusterRefs (w : World) (k : Rbac.Kind) : Answer :=
  .clusterRefs (w.stores.rbac.size k) (w.stores.rbac.version k)
    ((w.stores.rbac.listCluster k).map Rbac.Ref.sort)

/-- Serves a request up to the point where namespaces have to be listed. -/
def serve (w : World) (r : Http.Request) : Begun :=
  match Endpoint.check w.service.cache.ready r with
  | .ok (user, selector) => .job (.serve r.method (.start user selector))
  | .error refusal => .answer (.response (Endpoint.send r.method (Endpoint.refuse refusal)))

/-- Some more workers, each in a thread of its own. -/
def newWorkers (w : World) : Nat → World × List Thread
  | 0 => (w, [])
  | n + 1 =>
      let (w, ticket) := w.ticket
      let (w, threads) := w.newWorkers n
      (w, [.job (.workOn (.start ticket)) false] :: threads)

/-- Starts the loop in the background; that of the service comes with at least one worker, and makes
its first pass before the workers take a key. -/
def start (w : World) (ofService : Bool) (period : Nat) : World :=
  match Loop.start? ofService period w.now with
  | none => { w with handle := .broken }
  | some l =>
      let (w, workers) := w.newWorkers (if ofService then max w.config.workers 1 else 0)
      { w with
        handle := .running
        stopping := false
        background := w.background ++ [.job (.loop l) false] :: workers }

/-- Tells the loop to stop, and waits until it has. -/
def stop (w : World) : World × Begun :=
  match w.handle with
  | .idle => (w, .answer .notRunning)
  | .broken => ({ w with handle := .idle }, .answer .broken)
  | .running => ({ w with handle := .idle, stopping := true }, .job .join)

/-- What the queue says of itself and of a key. -/
def inspect (w : World) (key : Option ChangeKey) : Answer :=
  let q := w.service.queue
  .queue w.config.queueName q.size q.shuttingDown (key.map q.requeues)

/-- Changes the queue, and answers with what is read off it then. -/
def onQueue (w : World) (f : Queue ChangeKey → Queue ChangeKey) (a : Queue ChangeKey → Answer) :
    World × Begun :=
  let w := w.setQueue (f w.service.queue)
  (w, .answer (a w.service.queue))

/-- Most steps are answered at once, and the others become jobs. -/
def begin (w : World) : Step → World × Begun
  | .change true c => (w, .job (.publish (resourceOf c) (.event c)))
  | .change false c =>
      let (w, a) := w.change c
      (w, .answer a)
  | .clusterRefs k => (w, .answer (w.clusterRefs k))
  | .namespacedRefs ns =>
      (w, .answer (.refs (Rbac.Ref.sort (w.stores.rbac.listNamespaced ns))))
  | .roleExists name => (w, .answer (.truth (w.stores.rbac.clusterRoleExists name)))
  | .synced => (w, .answer (.synced w.stores.rbac.hasSynced w.stores.namespaces.synced))
  | .names => (w, .answer (.names w.stores.namespaces.names w.stores.namespaces.isEmpty))
  | .object ns => (w, .job (.object ns))
  | .script ns s => ({ w with scripts := w.scripts.insert ns s }, .answer .nothing)
  | .fail p reason =>
      ({ w with faults := (p, reason) :: w.faults.filter fun f => f.1 ≠ p }, .answer .nothing)
  | .heal p => ({ w with faults := w.faults.filter fun f => f.1 ≠ p }, .answer .nothing)
  | .on p steps => ({ w with hooks := w.hooks ++ [(p, steps)] }, .answer .nothing)
  | .watch id => (w.setCache (w.service.cache.addWatcher id), .answer .nothing)
  | .unwatch id => (w.setCache (w.service.cache.removeWatcher id), .answer .nothing)
  | .pass => (w, .job (.call (.pass .enter)))
  | .refresh ns hash => (w, .job (.call (.refresh (.start ns hash))))
  | .record ns => (w, .answer (.record (w.service.cache.records.get? ns)))
  | .ready => (w, .answer (.truth w.service.cache.ready))
  | .list user selector =>
      match Label.Selector.parse selector with
      | .ok s => (w, .job (.list (.start user s)))
      | .error e => (w, .answer (.badSelector e))
  | .serve r => (w, w.serve r)
  | .metrics => (w, .answer (.samples w.service.samples))
  | .computeHash => (w, .job (.compute .enter))
  | .requestHash => (w, .job (.request .start))
  | .lastHash => (w, .answer (.hash w.clusterHash.lastHash))
  | .add k => w.onQueue (·.add k) fun q => .size q.size
  | .addAfter delay k => w.onQueue (·.addAfter w.now delay k) fun q => .size q.size
  | .retry k => w.onQueue (·.retry w.now k) fun q => .retried q.size (q.requeues k)
  | .forget k => w.onQueue (·.forget k) fun q => .requeues (q.requeues k)
  | .drop k => w.onQueue (·.drop k) fun q => .requeues (q.requeues k)
  | .release k => w.onQueue (·.release k) fun q => .size q.size
  | .shutDown => w.onQueue (·.shutDown) fun q => .size q.size
  | .take =>
      let (w, ticket) := w.ticket
      (w, .job (.take ticket .enter))
  | .inspect key => (w, .answer (w.inspect key))
  | .work =>
      if w.service.queue.size = 0 ∧ w.service.queue.shuttingDown = false then
        (w, .answer .pending)
      else
        let (w, ticket) := w.ticket
        (w, .job (.work (.start ticket)))
  | .start ofService period => (w.start ofService period, .answer .nothing)
  | .stop => w.stop
  | .advance time => (w, .job (.pause time))

end World

end Visibility.Scenario
