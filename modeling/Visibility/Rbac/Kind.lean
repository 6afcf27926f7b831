namespace Visibility.Rbac

/-- The kinds of access control objects that decide what namespaces a user may see. -/
inductive Kind where
  | clusterRole
  | clusterRoleBinding
  | role
  | roleBinding
deriving DecidableEq, Repr, Inhabited

namespace Kind

def all : List Kind := [clusterRole, clusterRoleBinding, role, roleBinding]

def name : Kind → String
  | clusterRole => "ClusterRole"
  | clusterRoleBinding => "ClusterRoleBinding"
  | role => "Role"
  | roleBinding => "RoleBinding"

def ofName? (s : String) : Option Kind := all.find? fun k => k.name = s

theorem ofName?_name (k : Kind) : ofName? k.name = some k := by cases k <;> decide

/-- Whether objects of a kind belong to the cluster and to no namespace. -/
def isClusterScoped : Kind → Bool
  | clusterRole | clusterRoleBinding => true
  | role | roleBinding => false

/-- The place of a kind in the order of references. -/
def rank : Kind → Nat
  | clusterRole => 0
  | clusterRoleBinding => 1
  | role => 2
  | roleBinding => 3

instance : Ord Kind := ⟨fun a b => compare a.rank b.rank⟩

/-- The name with blanks on its left that make it at least `width` characters long. -/
def padded (k : Kind) (width : Nat) : String :=
  String.ofList (List.replicate (width - k.name.length) ' ' ++ k.name.toList)

end Kind

/-- One thing for each kind. -/
structure PerKind (α : Type) where
  clusterRole : α
  clusterRoleBinding : α
  role : α
  roleBinding : α
deriving DecidableEq

namespace PerKind

variable {α : Type}

def const (a : α) : PerKind α := ⟨a, a, a, a⟩

def get (p : PerKind α) : Kind → α
  | .clusterRole => p.clusterRole
  | .clusterRoleBinding => p.clusterRoleBinding
  | .role => p.role
  | .roleBinding => p.roleBinding

def set (p : PerKind α) (k : Kind) (a : α) : PerKind α :=
  match k with
  | .clusterRole => { p with clusterRole := a }
  | .clusterRoleBinding => { p with clusterRoleBinding := a }
  | .role => { p with role := a }
  | .roleBinding => { p with roleBinding := a }

@[simp] theorem get_const (a : α) (k : Kind) : (const a).get k = a := by cases k <;> rfl

@[simp] theorem get_set (p : PerKind α) (k j : Kind) (a : α) :
    (p.set k a).get j = if j = k then a else p.get j := by
  cases k <;> cases j <;> rfl

end PerKind

end Visibility.Rbac
