import Visibility.Stores

namespace Visibility

/-- The part of the cache that an event may have made stale. -/
inductive ChangeKey where
  /-- The cluster-scoped objects, and with them every namespace. -/
  | cluster
  /-- One namespace, or the objects in it. -/
  | ns (name : String)
deriving DecidableEq, Repr, Inhabited

def ChangeKey.text : ChangeKey → String
  | cluster => "global"
  | ns name => "namespace:" ++ name

/-- The key of an object of a resource. -/
def Resource.key : Resource → Option String → String → ChangeKey
  | .rbac .clusterRole, _, _ | .rbac .clusterRoleBinding, _, _ => .cluster
  | .rbac .role, ns, _ | .rbac .roleBinding, ns, _ => .ns (ns.getD "")
  | .namespaces, _, name => .ns name

/-- The key of an object, if it has a name. -/
def Resource.keyOf? (r : Resource) (o : Object) : Option ChangeKey := o.name.map (r.key o.ns)

/-- The keys of an event, in the order in which they are queued; none if an object has no name. A
listing always ends with the key of the whole cluster, since the first pass over complete listings
is what makes the cache ready. -/
def Change.keys? : Change → Option (List ChangeKey)
  | .apply r o => (r.keyOf? o).map ([·])
  | .delete r ns name => some [r.key (some ns) name]
  | .reset r objects removed =>
      (objects.mapM r.keyOf?).map fun keys =>
        keys ++ removed.map (fun x => r.key (some x.1) x.2) ++ [.cluster]

end Visibility
