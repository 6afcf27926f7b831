import Visibility.Cache.Subjects
import Visibility.ClusterHash

/-!
The cache: for each namespace the record of its last review, the inverse index, and what one pass
over all namespaces leaves to the next.

Records and index change together, in `commit` and `remove`; both report the subject sets that
watchers have to hear about, and only if these changed.
-/

namespace Visibility

/-- How often passes ended in each way. -/
structure PassCounts where
  skipped : Nat := 0
  partly : Nat := 0
  full : Nat := 0
  aborted : Nat := 0
  inProgress : Nat := 0
deriving DecidableEq, Repr

/-- What a cache counts of its work, and how much it holds. -/
structure CacheMetrics where
  passes : PassCounts := {}
  reviews : Nat := 0
  reviewFailures : Nat := 0
  namespaces : Nat := 0
  users : Nat := 0
  groups : Nat := 0
deriving DecidableEq, Repr

/-- The records of all namespaces, their inverse, and what one pass leaves to the next. -/
structure Cache where
  records : Table Record := ∅
  subjects : Subjects := {}
  clusterHash : ClusterHash := {}
  /-- The digest of the cluster-scoped objects that the last pass saw. -/
  lastPassHash : Option String := none
  syncing : Bool := false
  ready : Bool := false
  /-- The watchers in order of registration; one that registered twice is there twice. -/
  watchers : List String := []
  metrics : CacheMetrics := {}
deriving DecidableEq

/-- What a call does that others can see. -/
inductive Effect where
  /-- The reviewer was asked about a namespace. -/
  | asked (ns : String)
  /-- The record of a namespace was replaced. -/
  | recorded (ns : String) (record : Record)
  /-- The record of a namespace was removed. -/
  | removed (ns : String)
  /-- A watcher was told who may access a namespace. -/
  | notified (watcher : String) (ns : String) (users groups : NameSet)
deriving DecidableEq

/-- What one step of a call leaves: the cache, the call, and what others can see. -/
structure Progress (σ : Type) where
  cache : Cache
  next : σ
  effect : Option Effect := none

namespace Cache

/-- Brings the sizes among the metrics up to date. -/
def measure (c : Cache) : Cache :=
  { c with
    metrics := { c.metrics with
      namespaces := c.records.size
      users := c.subjects.users.size
      groups := c.subjects.groups.size } }

/-- Replaces the record of a namespace and its entries in the index. Returns the new subject sets if
they differ from the old ones. -/
def commit (c : Cache) (ns : String) (r : Record) : Cache × Option (NameSet × NameSet) :=
  let oldUsers := (c.records.get? ns).elim ∅ (·.users)
  let oldGroups := (c.records.get? ns).elim ∅ (·.groups)
  let subjects := (c.subjects.remove ns oldUsers oldGroups).insert ns r.users r.groups
  ({ c with records := c.records.insert ns r, subjects := subjects }.measure,
    if oldUsers ≠ r.users ∨ oldGroups ≠ r.groups then some (r.users, r.groups) else none)

/-- Removes the record of a namespace and its entries in the index. Returns the record. -/
def remove (c : Cache) (ns : String) : Cache × Option Record :=
  match c.records.get? ns with
  | none => (c, none)
  | some r =>
      ({ c with records := c.records.erase ns, subjects := c.subjects.forget ns }.measure, some r)

def countReview (c : Cache) : Cache :=
  { c with metrics := { c.metrics with reviews := c.metrics.reviews + 1 } }

def countReviewFailure (c : Cache) : Cache :=
  { c with metrics := { c.metrics with reviewFailures := c.metrics.reviewFailures + 1 } }

def countPass (c : Cache) (count : PassCounts → PassCounts) : Cache :=
  { c with metrics := { c.metrics with passes := count c.metrics.passes } }

def addWatcher (c : Cache) (watcher : String) : Cache :=
  { c with watchers := c.watchers ++ [watcher] }

/-- Takes out every registration of a watcher. -/
def removeWatcher (c : Cache) (watcher : String) : Cache :=
  { c with watchers := c.watchers.filter (· ≠ watcher) }

end Cache

end Visibility
