import Visibility.Namespaces
import Visibility.Rbac.Index

namespace Visibility

/-- What an event can be about. -/
inductive Resource where
  | rbac (kind : Rbac.Kind)
  | namespaces
deriving DecidableEq, Repr

/-- What happens to the objects of a resource. -/
inductive Change where
  | apply (resource : Resource) (object : Object)
  /-- The namespace counts for namespaced kinds only. -/
  | delete (resource : Resource) (ns name : String)
  /-- A listing of all objects, and the namespaces and names of those that are gone. -/
  | reset (resource : Resource) (objects : List Object) (removed : List (String × String))

/-- The stores that the cache reads. -/
structure Stores where
  rbac : Rbac.Index := {}
  namespaces : Namespaces := {}
deriving DecidableEq

namespace Stores

/-- Takes an event in, up to the first object without a name. -/
def apply (s : Stores) : Change → Stores × Completion
  | .apply (.rbac k) o =>
      match s.rbac.apply k o with
      | some ix => ({ s with rbac := ix }, .complete)
      | none => (s, .unnamed)
  | .apply .namespaces o =>
      match s.namespaces.apply o with
      | some store => ({ s with namespaces := store }, .complete)
      | none => (s, .unnamed)
  | .delete (.rbac k) ns name => ({ s with rbac := s.rbac.delete k ns name }, .complete)
  | .delete .namespaces _ name => ({ s with namespaces := s.namespaces.delete name }, .complete)
  | .reset (.rbac k) objects removed =>
      let r := s.rbac.reset k objects removed
      ({ s with rbac := r.1 }, r.2)
  | .reset .namespaces objects removed =>
      let r := s.namespaces.reset objects (removed.map (·.2))
      ({ s with namespaces := r.1 }, r.2)

/-- The number of objects of a resource. -/
def size (s : Stores) : Resource → Nat
  | .rbac k => s.rbac.size k
  | .namespaces => s.namespaces.size

end Stores

end Visibility
