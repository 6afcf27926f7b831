import Visibility.Stores

/-!
Moments: the stores and the reviewer as a call finds them when it looks.

A call looks at its surroundings once per step, so what lies between two looks can differ. Each look
at a store can fail; reading a version or whether a listing came in cannot. In what order a call goes
through the namespaces of a table is part of its surroundings too, and can differ each time.
-/

namespace Visibility

/-- Who may access a namespace, as a reviewer reports it. -/
structure Review where
  users : List String := []
  groups : List String := []
  /-- Why the report may be incomplete; never empty. -/
  evaluationError : Option String := none
deriving DecidableEq, Repr, Inhabited

/-- Notes that the report may be incomplete. An empty reason takes back what was noted before. -/
def Review.withEvaluationError (r : Review) (reason : String) : Review :=
  { r with evaluationError := if reason.isEmpty then none else some reason }

/-- A look at a store that can fail. -/
inductive Query where
  | cluster (kind : Rbac.Kind)
  /-- All roles and role bindings of a namespace. -/
  | inNamespace (ns : String)
  | names
  | object (ns : String)
deriving DecidableEq, Repr

/-- What a call finds when it looks. -/
structure Moment where
  stores : Stores
  /-- The looks that fail, and why. -/
  fault : Query → Option String := fun _ => none
  /-- What the reviewer would answer about a namespace, or why it would fail. -/
  reviewer : String → Except String Review
  /-- The order in which a call goes through namespaces; that of their names if nothing else is said. -/
  order : List String → List String := id
  order_perm : ∀ names, (order names).Perm names := by exact List.Perm.refl

namespace Moment

open Rbac (Kind Ref ListError)

/-- The answer to a query, unless it fails. -/
def ask {α : Type} (m : Moment) (q : Query) (answer : Except ListError α) : Except ListError α :=
  match m.fault q with
  | some reason => .error (.failed reason)
  | none => answer

/-- The version of a kind; to read it cannot fail. -/
def version (m : Moment) (k : Kind) : Nat := m.stores.rbac.version k

def cluster (m : Moment) (k : Kind) : Except ListError (List Ref) :=
  m.ask (.cluster k) (m.stores.rbac.listCluster k)

def inNamespace (m : Moment) (ns : String) : Except ListError (List Ref) :=
  m.ask (.inNamespace ns) (.ok (m.stores.rbac.listNamespaced ns))

def names (m : Moment) : Except ListError (List String) :=
  m.ask .names (.ok m.stores.namespaces.names)

/-- A namespace, if it is live. -/
def object (m : Moment) (ns : String) : Except ListError (Option Object) :=
  m.ask (.object ns) (.ok (m.stores.namespaces.get? ns))

/-- Whether a whole listing of every resource came in. -/
def synced (m : Moment) : Bool := m.stores.rbac.hasSynced && m.stores.namespaces.synced

end Moment

end Visibility
