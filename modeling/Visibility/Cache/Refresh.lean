import Visibility.Cache.Basic

/-!
Refreshing one namespace.

A refresh finds the hash of the namespace, compares it with that of the record, and asks the reviewer
only if they differ. A refresh that is given no hash first looks whether the namespace still exists,
and removes its record if it does not. Whatever fails leaves the record as it was.

A refresh advances by steps, each with one look at the stores or one access to the cache, so that
anything else can happen between two of them.
-/

namespace Visibility

open Rbac (Ref ListError)

/-- Why a refresh left the record as it was. -/
inductive RefreshError where
  /-- A store failed. -/
  | store (error : ListError)
  | hash (error : HashError)
  /-- The reviewer failed. -/
  | review (ns reason : String)
  /-- The reviewer answered, but for its own doubts about the answer. -/
  | evaluation (ns reason : String)
deriving DecidableEq, Repr

def RefreshError.message : RefreshError → String
  | store error => error.message
  | hash error => error.message
  | review ns reason => s!"failed to review namespace {ns}: {reason}"
  | evaluation ns reason => s!"failed to evaluate access to namespace {ns}: {reason}"

namespace Refresh

/-- A refresh, by what it does next. -/
inductive Phase where
  | exists?
  /-- Removes the record of a namespace that does not exist. -/
  | remove
  | hashCluster (request : ClusterHash.Request)
  | hashNamespace (cluster : String)
  /-- Compares a hash with that of the record. -/
  | compare (hash : String)
  | ask (hash : String)
  /-- Takes the reviewer's answer, which was fixed when the reviewer was asked. -/
  | hear (hash : String) (answer : Except String Review)
  | commit (hash : String) (review : Review)
  | announce (users groups : NameSet)
  | notify (watchers : List String) (users groups : NameSet)
  | done (result : Except RefreshError Unit)

/-- The look at the stores that the next step makes, if it makes one. -/
def Phase.query? (ns : String) : Phase → Option Query
  | exists? => some (.object ns)
  | hashCluster request => request.query?
  | hashNamespace _ => some (.inNamespace ns)
  | _ => none

/-- One step of a refresh of a namespace. -/
def Phase.step (m : Moment) (c : Cache) (ns : String) : Phase → Progress Phase
  | exists? =>
      match m.object ns with
      | .ok (some _) => ⟨c, hashCluster .start, none⟩
      | .ok none => ⟨c, remove, none⟩
      | .error e => ⟨c, done (.error (.store e)), none⟩
  | remove =>
      match c.remove ns with
      | (c, none) => ⟨c, done (.ok ()), none⟩
      | (c, some r) =>
          if r.users.isEmpty && r.groups.isEmpty then ⟨c, done (.ok ()), some (.removed ns)⟩
          else ⟨c, announce ∅ ∅, some (.removed ns)⟩
  | hashCluster request =>
      match request.step m c.clusterHash with
      | (h, .done (.ok hash)) => ⟨{ c with clusterHash := h }, hashNamespace hash, none⟩
      | (h, .done (.error e)) => ⟨{ c with clusterHash := h }, done (.error (.hash e)), none⟩
      | (h, request) => ⟨{ c with clusterHash := h }, hashCluster request, none⟩
  | hashNamespace cluster =>
      match m.inNamespace ns with
      | .ok refs => ⟨c, compare (Digest.combine cluster (Ref.digest refs)), none⟩
      | .error e => ⟨c, done (.error (.store e)), none⟩
  | compare hash =>
      if (c.records.get? ns).map (·.hash) = some hash then ⟨c, done (.ok ()), none⟩
      else ⟨c, ask hash, none⟩
  | ask hash => ⟨c.countReview, hear hash (m.reviewer ns), some (.asked ns)⟩
  | hear hash answer =>
      match answer with
      | .error reason => ⟨c.countReviewFailure, done (.error (.review ns reason)), none⟩
      | .ok review =>
          match review.evaluationError with
          | some reason => ⟨c.countReviewFailure, done (.error (.evaluation ns reason)), none⟩
          | none => ⟨c, commit hash review, none⟩
  | commit hash review =>
      let record : Record := ⟨NameSet.ofList review.users, NameSet.ofList review.groups, hash⟩
      match c.commit ns record with
      | (c, some (users, groups)) => ⟨c, announce users groups, some (.recorded ns record)⟩
      | (c, none) => ⟨c, done (.ok ()), some (.recorded ns record)⟩
  | announce users groups => ⟨c, notify c.watchers users groups, none⟩
  | notify watchers users groups =>
      match watchers with
      | [] => ⟨c, done (.ok ()), none⟩
      | w :: rest => ⟨c, notify rest users groups, some (.notified w ns users groups)⟩
  | done result => ⟨c, done result, none⟩

end Refresh

/-- A refresh of a namespace on its way. -/
structure Refresh where
  ns : String
  phase : Refresh.Phase

namespace Refresh

/-- Starts a refresh, with the hash of the namespace if that is known already. -/
def start (ns : String) (hash : Option String) : Refresh :=
  ⟨ns, hash.elim .exists? .compare⟩

def query? (r : Refresh) : Option Query := r.phase.query? r.ns

def result? (r : Refresh) : Option (Except RefreshError Unit) :=
  match r.phase with
  | .done result => some result
  | _ => none

def step (m : Moment) (c : Cache) (r : Refresh) : Progress Refresh :=
  let p := r.phase.step m c r.ns
  ⟨p.cache, { r with phase := p.next }, p.effect⟩

end Refresh

end Visibility
