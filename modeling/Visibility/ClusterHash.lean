import Visibility.Moment

/-!
The digest of all cluster-scoped objects, kept with the versions that it was computed from.

Only one computation runs at a time. It reads both versions first and lists the objects only if one
of them moved; a listing that fails leaves what was kept as it was. Whoever finds a computation
running can settle for the digest that is kept.

Versions are compared as the index counts them, without a bound. Two counters of 64 bits are equal
just when these numbers are, as long as a kind has changed fewer than `2 ^ 64` times.
-/

namespace Visibility

open Rbac (Kind Ref ListError)

/-- Why there is no digest of the cluster-scoped objects. -/
inductive HashError where
  /-- Another computation is running. -/
  | inProgress
  | list (kind : Kind) (error : ListError)
deriving DecidableEq, Repr

def HashError.message : HashError → String
  | inProgress => "cluster RBAC hash computation already in progress"
  | list kind error => s!"failed to list {kind.name} objects: {error.message}"

/-- The versions of the two cluster-scoped kinds, each below `2 ^ 64` where it is a counter of 64 bits. -/
structure Versions where
  roles : Nat
  bindings : Nat
deriving DecidableEq, Repr

/-- A digest and the versions that were read before its objects were listed. -/
structure Hashed where
  versions : Versions
  hash : String
deriving DecidableEq, Repr

/-- The digest that is kept, and whether somebody is computing one. -/
structure ClusterHash where
  busy : Bool := false
  /-- The last computation that succeeded. -/
  last : Option Hashed := none
deriving DecidableEq, Repr

namespace ClusterHash

/-- The digest of the last computation that succeeded. -/
def lastHash (c : ClusterHash) : Option String := c.last.map (·.hash)

/-- A computation, by what it does next. -/
inductive Computation where
  | enter
  | readRolesVersion
  | readBindingsVersion (roles : Nat)
  | listRoles (versions : Versions)
  | listBindings (versions : Versions) (roles : List Ref)
  | done (result : Except HashError String)

namespace Computation

/-- The look at the index that the next step makes and that can fail. -/
def query? : Computation → Option Query
  | listRoles _ => some (.cluster .clusterRole)
  | listBindings _ _ => some (.cluster .clusterRoleBinding)
  | _ => none

/-- Ends a computation, and lets the next one begin. -/
def leave (c : ClusterHash) (result : Except HashError String) : ClusterHash × Computation :=
  ({ c with busy := false }, done result)

/-- One step of a computation. It is the versions read before the listings that are kept with the
digest. -/
def step (m : Moment) (c : ClusterHash) : Computation → ClusterHash × Computation
  | enter =>
      if c.busy then (c, done (.error .inProgress))
      else ({ c with busy := true }, readRolesVersion)
  | readRolesVersion => (c, readBindingsVersion (m.version .clusterRole))
  | readBindingsVersion roles =>
      let versions := ⟨roles, m.version .clusterRoleBinding⟩
      match c.last with
      | some h => if h.versions = versions then leave c (.ok h.hash) else (c, listRoles versions)
      | none => (c, listRoles versions)
  | listRoles versions =>
      match m.cluster .clusterRole with
      | .ok refs => (c, listBindings versions refs)
      | .error e => leave c (.error (.list .clusterRole e))
  | listBindings versions roles =>
      match m.cluster .clusterRoleBinding with
      | .ok bindings =>
          let hash := Ref.digest (roles ++ bindings)
          leave { c with last := some ⟨versions, hash⟩ } (.ok hash)
      | .error e => leave c (.error (.list .clusterRoleBinding e))
  | done result => (c, done result)

end Computation

/-- A request for a digest that settles for the kept one while another computation is running. -/
inductive Request where
  | compute (c : Computation)
  | settle
  | done (result : Except HashError String)

namespace Request

def start : Request := .compute .enter

def query? : Request → Option Query
  | compute c => c.query?
  | _ => none

def step (m : Moment) (h : ClusterHash) : Request → ClusterHash × Request
  | compute c =>
      match c.step m h with
      | (h, .done (.error .inProgress)) => (h, settle)
      | (h, .done result) => (h, done result)
      | (h, c) => (h, compute c)
  | settle => (h, done (h.lastHash.elim (.error .inProgress) .ok))
  | done result => (h, done result)

end Request

end ClusterHash

end Visibility
