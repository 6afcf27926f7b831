import Visibility.Cache.Refresh

/-!
Passes: bringing every namespace up to date.

A pass computes the digest of the cluster-scoped objects and the hash of every namespace, plans to
refresh the namespaces whose hash is not that of their record and those that are gone, and refreshes
them one after the other. Only one pass runs at a time; a second one ends at once. A pass that ends
makes the cache ready if the stores have had whole listings by then.
-/

namespace Visibility

open Rbac (Ref)

namespace Pass

/-- What came of a pass that did not fail. -/
inductive Outcome where
  /-- Nothing was stale. -/
  | skipped
  /-- Namespaces were refreshed; `full` tells whether cluster-scoped objects had changed. -/
  | refreshed (full : Bool) (count : Nat)
  /-- Another pass was running. -/
  | inProgress
deriving DecidableEq, Repr

/-- A namespace to refresh, with its hash. There is none if the namespace is gone or could not be
hashed. -/
abbrev Target := String × Option String

/-- What a pass has to remember once it knows what to refresh. -/
structure Plan where
  cluster : String
  full : Bool
  count : Nat
deriving DecidableEq, Repr

/-- The outcome of a pass that carried out its plan. -/
def Plan.outcome (p : Plan) : Outcome :=
  if p.count = 0 then .skipped else .refreshed p.full p.count

/-- The live namespaces to refresh: those that could not be hashed or whose hash is not that of their
record. -/
def stale (records : Table Record) (live : Table (Option String)) : List String :=
  (live.entries.filter fun e => e.2.isNone || (records.get? e.1).map (·.hash) ≠ e.2).map (·.1)

/-- The namespaces that have a record and are not live. -/
def gone (records : Table Record) (live : Table (Option String)) : List String :=
  records.keys.filter fun ns => !live.contains ns

/-- What to refresh, given the hashes of all live namespaces: the stale ones and then those that are
gone. -/
def targets (m : Moment) (records : Table Record) (live : Table (Option String)) : List Target :=
  (m.order (stale records live) ++ m.order (gone records live)).map fun ns =>
    (ns, (live.get? ns).join)

/-- The namespaces to look at when the live ones are not known: all that have a record. -/
def recheck (m : Moment) (records : Table Record) : List Target :=
  (m.order records.keys).map fun ns => (ns, none)

/-- A pass, by what it does next. -/
inductive Phase where
  | enter
  | hashCluster (c : ClusterHash.Computation)
  | listNames (cluster : String) (full : Bool)
  /-- Hashes the namespaces that are left, of those that are live. -/
  | hashNamespaces (cluster : String) (full : Bool) (left : List String)
      (live : Table (Option String))
  /-- Compares the hashes of the live namespaces with the records. -/
  | compare (cluster : String) (full : Bool) (live : Option (Table (Option String)))
  | refresh (plan : Plan) (left : List Target) (current : Refresh)
  | finish (plan : Plan)
  | done (result : Except HashError Outcome)

def Phase.query? : Phase → Option Query
  | hashCluster c => c.query?
  | listNames _ _ => some .names
  | hashNamespaces _ _ left _ => left.head?.map .inNamespace
  | refresh _ _ r => r.query?
  | _ => none

/-- Goes on with the namespaces that are left. -/
def visit (plan : Plan) : List Target → Phase
  | [] => .finish plan
  | t :: left => .refresh plan left (.start t.1 t.2)

/-- Goes on with the hashes of the namespaces that are left. -/
def hashNext (cluster : String) (full : Bool) (left : List String)
    (live : Table (Option String)) : Phase :=
  if left.isEmpty then .compare cluster full (some live)
  else .hashNamespaces cluster full left live

def Outcome.count : Outcome → PassCounts → PassCounts
  | skipped, p => { p with skipped := p.skipped + 1 }
  | refreshed true _, p => { p with full := p.full + 1 }
  | refreshed false _, p => { p with partly := p.partly + 1 }
  | inProgress, p => { p with inProgress := p.inProgress + 1 }

def countAborted (p : PassCounts) : PassCounts := { p with aborted := p.aborted + 1 }

/-- One step of a pass. What the refreshes come to is not looked at; a listing of the namespaces
that fails makes the pass look at all that have a record. -/
def Phase.step (m : Moment) (c : Cache) : Phase → Progress Phase
  | enter =>
      if c.syncing then ⟨c.countPass Outcome.inProgress.count, done (.ok .inProgress), none⟩
      else ⟨{ c with syncing := true }, hashCluster .enter, none⟩
  | hashCluster computation =>
      match computation.step m c.clusterHash with
      | (h, .done (.ok hash)) =>
          ⟨{ c with clusterHash := h }, listNames hash (c.lastPassHash ≠ some hash), none⟩
      | (h, .done (.error e)) =>
          ⟨{ c with clusterHash := h, syncing := false }.countPass countAborted, done (.error e), none⟩
      | (h, computation) => ⟨{ c with clusterHash := h }, hashCluster computation, none⟩
  | listNames cluster full =>
      match m.names with
      | .ok names => ⟨c, hashNext cluster full (m.order names) ∅, none⟩
      | .error _ => ⟨c, compare cluster full none, none⟩
  | hashNamespaces cluster full left live =>
      match left with
      | [] => ⟨c, compare cluster full (some live), none⟩
      | ns :: left =>
          let hash := (m.inNamespace ns).toOption.map fun refs =>
            Digest.combine cluster (Ref.digest refs)
          ⟨c, hashNext cluster full left (live.insert ns hash), none⟩
  | compare cluster full live =>
      let ts := live.elim (recheck m c.records) (targets m c.records)
      ⟨c, visit ⟨cluster, full, ts.length⟩ ts, none⟩
  | refresh plan left r =>
      let p := r.step m c
      match p.next.result? with
      | some _ => ⟨p.cache, visit plan left, p.effect⟩
      | none => ⟨p.cache, refresh plan left p.next, p.effect⟩
  | finish plan =>
      let c := { c with
        lastPassHash := some plan.cluster
        ready := c.ready || m.synced
        syncing := false }
      ⟨c.countPass plan.outcome.count, done (.ok plan.outcome), none⟩
  | done result => ⟨c, done result, none⟩

end Pass

/-- A call that keeps the cache up to date: a refresh of one namespace or a pass over all. -/
inductive Call where
  | refresh (r : Refresh)
  | pass (p : Pass.Phase)

namespace Call

def query? : Call → Option Query
  | refresh r => r.query?
  | pass p => p.query?

def step (m : Moment) (c : Cache) : Call → Progress Call
  | refresh r =>
      let p := r.step m c
      ⟨p.cache, refresh p.next, p.effect⟩
  | pass p =>
      let p := p.step m c
      ⟨p.cache, pass p.next, p.effect⟩

end Call

end Visibility
