import Visibility.Cache.Pass
import Visibility.ChangeKey
import Visibility.Queue.Getter

/-!
The service: a cache that events keep up to date.

Each event changes a store first and then queues keys. Workers take the keys: that of the cluster
makes them run a pass, that of a namespace refreshes the namespace. What the service counts and measures
is given as samples with names.
-/

namespace Visibility

structure Config where
  workers : Nat := 4
  /-- How often a key that failed is tried again before it is given up. -/
  maxRetries : Nat := 5
  limiter : Limiter := {}
  /-- Names the queue in diagnostics. -/
  queueName : String := "authorization-cache"
deriving DecidableEq, Repr

/-- The cache of a service and the queue of its keys. -/
structure Service where
  cache : Cache := {}
  queue : Queue ChangeKey := {}
deriving DecidableEq

/-- A service of the given set-up, before anything happened. -/
def Service.new (config : Config) : Service := { queue := { limiter := config.limiter } }

/-- The call that a worker makes for a key. -/
def ChangeKey.call : ChangeKey → Call
  | cluster => .pass .enter
  | ns name => .refresh (.start name none)

/-- Whether a call that ended did what it was called for; a pass that found another one running
counts as done. -/
def Call.succeeded? : Call → Option Bool
  | .refresh r => r.result?.map (·.isOk)
  | .pass (.done result) => some result.isOk
  | .pass _ => none

/-- An event on its way through the service. -/
inductive Publication where
  | event (change : Change)
  /-- Changes the store, then queues the keys. -/
  | update (change : Change) (keys : List ChangeKey)
  | enqueue (completion : Completion) (keys : List ChangeKey)
  | done (completion : Completion)

/-- One step of a publication. All keys are known before the store changes; an event with an object
without a name changes nothing. -/
def Publication.step (s : Stores) (q : Queue ChangeKey) :
    Publication → Stores × Queue ChangeKey × Publication
  | event change =>
      match change.keys? with
      | some keys => (s, q, update change keys)
      | none => (s, q, done .unnamed)
  | update change keys =>
      let r := s.apply change
      (r.1, q, enqueue r.2 keys)
  | enqueue completion [] => (s, q, done completion)
  | enqueue completion (k :: keys) => (s, q.add k, enqueue completion keys)
  | done completion => (s, q, done completion)

/-- A metric and its value. -/
abbrev Sample := String × Nat

/-- Passes by outcome. One that has not occurred yet has no sample. -/
def PassCounts.samples (p : PassCounts) : List Sample :=
  let outcomes := [("Skip", p.skipped), ("Partial", p.partly), ("Full", p.full),
    ("Aborted", p.aborted), ("InProgress", p.inProgress)]
  (outcomes.filter fun o => o.2 ≠ 0).map fun o =>
    ("synchronizations_total\x7boutcome=\"" ++ o.1 ++ "\"\x7d", o.2)

def CacheMetrics.samples (m : CacheMetrics) : List Sample :=
  m.passes.samples ++
    [ ("reviews_total", m.reviews), ("review_failures_total", m.reviewFailures),
      ("namespaces", m.namespaces), ("users", m.users), ("groups", m.groups) ]

def QueueMetrics.samples (m : QueueMetrics) : List Sample :=
  [ ("adds_total", m.adds), ("retries_total", m.retries), ("drops_total", m.drops),
    ("depth", m.depth) ]

/-- The samples of a service. Those of the cache and those of the queue are told apart by what their
names begin with. -/
def Service.samples (s : Service) : List Sample :=
  s.cache.metrics.samples.map (fun x => ("cache_" ++ x.1, x.2)) ++
    s.queue.metrics.samples.map fun x => ("queue_" ++ x.1, x.2)

end Visibility
