import Visibility.Object
import Visibility.Rbac.Ref

/-!
The index of access control objects.

It holds the reference of each object under its kind, its namespace and its name, and counts for
each kind how often its objects changed. An update that leaves all objects of a kind as they were
leaves the version of the kind as it was.

Versions are natural numbers. Counters of 64 bits run through the same values until one kind has
changed `2 ^ 64` times.
-/

namespace Visibility.Rbac

/-- The objects of one namespace, by kind and by name. -/
structure Local where
  roles : Table Ref := ∅
  roleBindings : Table Ref := ∅
deriving DecidableEq

def Local.isEmpty (l : Local) : Bool := l.roles.isEmpty && l.roleBindings.isEmpty

/-- The references of the objects of one namespace. -/
def Local.refs (l : Local) : List Ref := l.roles.values ++ l.roleBindings.values

/-- The access control objects of a cluster. -/
structure Index where
  clusterRoles : Table Ref := ∅
  clusterRoleBindings : Table Ref := ∅
  namespaces : Table Local := ∅
  /-- How often the objects of each kind changed, as a number without a bound. -/
  versions : PerKind Nat := .const 0
  /-- The kinds of which a whole listing came in. -/
  synced : PerKind Bool := .const false
deriving DecidableEq

/-- The part of an index in which objects are told apart by name. -/
inductive Slot where
  | clusterRoles
  | clusterRoleBindings
  | roles (ns : String)
  | roleBindings (ns : String)
deriving DecidableEq

/-- The slot of the objects of a kind in a namespace. A cluster-scoped kind has one slot; an object
of a namespaced kind that names no namespace belongs nowhere. -/
def Slot.of? : Kind → Option String → Option Slot
  | .clusterRole, _ => some .clusterRoles
  | .clusterRoleBinding, _ => some .clusterRoleBindings
  | .role, ns => ns.map .roles
  | .roleBinding, ns => ns.map .roleBindings

/-- Asking for a listing of the whole cluster that the index does not give. -/
inductive ListError where
  /-- Objects of this kind are only listed by namespace. -/
  | notClusterScoped (kind : Kind)
  /-- The store failed, for the reason given. -/
  | failed (reason : String)
deriving DecidableEq, Repr

def ListError.message : ListError → String
  | notClusterScoped kind => s!"{kind.name} is not cluster-scoped"
  | failed reason => reason

namespace Index

/-- The objects of one namespace; a namespace that is not there has none. -/
def inNamespace (ix : Index) (ns : String) : Local := (ix.namespaces.get? ns).getD {}

/-- Keeps a namespace only while it holds objects. -/
def setNamespace (ix : Index) (ns : String) (l : Local) : Index :=
  { ix with
    namespaces := if l.isEmpty then ix.namespaces.erase ns else ix.namespaces.insert ns l }

/-- The references in a slot, by name. -/
def get (ix : Index) : Slot → Table Ref
  | .clusterRoles => ix.clusterRoles
  | .clusterRoleBindings => ix.clusterRoleBindings
  | .roles ns => (ix.inNamespace ns).roles
  | .roleBindings ns => (ix.inNamespace ns).roleBindings

/-- Puts other references into a slot. -/
def set (ix : Index) (s : Slot) (t : Table Ref) : Index :=
  match s with
  | .clusterRoles => { ix with clusterRoles := t }
  | .clusterRoleBindings => { ix with clusterRoleBindings := t }
  | .roles ns => ix.setNamespace ns { ix.inNamespace ns with roles := t }
  | .roleBindings ns => ix.setNamespace ns { ix.inNamespace ns with roleBindings := t }

/-- How often the objects of a kind changed. -/
def version (ix : Index) (k : Kind) : Nat := ix.versions.get k

/-- Counts a change of the objects of a kind. -/
def bump (ix : Index) (k : Kind) : Index :=
  { ix with versions := ix.versions.set k (ix.version k + 1) }

/-- The reference of an object of a kind; what the object does not say is empty. -/
def refOf (k : Kind) (o : Object) : Ref := ⟨k, o.uid.getD "", o.resourceVersion.getD ""⟩

/-- Takes an object in. One without a name is refused, one that belongs nowhere is passed over, and
one that is already there in this version changes nothing. -/
def apply (k : Kind) (ix : Index) (o : Object) : Option Index :=
  o.name.map fun name =>
    match Slot.of? k o.ns with
    | none => ix
    | some slot =>
        if (ix.get slot).get? name = some (refOf k o) then ix
        else (ix.set slot ((ix.get slot).insert name (refOf k o))).bump k

/-- Takes the object of a name out. -/
def delete (k : Kind) (ix : Index) (ns name : String) : Index :=
  match Slot.of? k (some ns) with
  | none => ix
  | some slot =>
      if (ix.get slot).contains name then (ix.set slot ((ix.get slot).erase name)).bump k
      else ix

/-- Takes in a listing of all objects of a kind, and then out those that are gone, given by namespace
and name. An object without a name stops it. -/
def reset (k : Kind) (ix : Index) (objects : List Object) (removed : List (String × String)) :
    Index × Completion :=
  match applyAll (apply k) ix objects with
  | (ix, .unnamed) => (ix, .unnamed)
  | (ix, .complete) =>
      let ix := removed.foldl (fun ix r => ix.delete k r.1 r.2) ix
      ({ ix with synced := ix.synced.set k true }, .complete)

/-- The number of objects of a kind. -/
def size (ix : Index) : Kind → Nat
  | .clusterRole => ix.clusterRoles.size
  | .clusterRoleBinding => ix.clusterRoleBindings.size
  | .role => (ix.namespaces.values.map fun l => l.roles.size).foldl (· + ·) 0
  | .roleBinding => (ix.namespaces.values.map fun l => l.roleBindings.size).foldl (· + ·) 0

/-- The references of all objects of a cluster-scoped kind. -/
def listCluster (ix : Index) : Kind → Except ListError (List Ref)
  | .clusterRole => .ok ix.clusterRoles.values
  | .clusterRoleBinding => .ok ix.clusterRoleBindings.values
  | kind => .error (.notClusterScoped kind)

/-- The references of all objects of a namespace. -/
def listNamespaced (ix : Index) (ns : String) : List Ref := (ix.inNamespace ns).refs

def clusterRoleExists (ix : Index) (name : String) : Bool := ix.clusterRoles.contains name

/-- Whether a whole listing of every kind came in. -/
def hasSynced (ix : Index) : Bool := Kind.all.all ix.synced.get

end Index

end Visibility.Rbac
