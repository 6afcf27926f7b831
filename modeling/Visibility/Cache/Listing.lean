import Visibility.Cache.Basic
import Visibility.Label.Selector
import Visibility.Scope

namespace Visibility

open Rbac (ListError)

namespace Cache

/-- The names that a user may see, in order, of the namespaces that its scopes allow. -/
def visibleNames (c : Cache) (s : Stores) (u : User) : List String :=
  let allowed := Scope.visible s.rbac.clusterRoleExists u.scopes
  (c.subjects.visible u).toList.filter allowed.contains

end Cache

namespace Listing

/-- Whether a namespace that the store gave belongs to the listing. -/
def keep (selector : Label.Selector) (o : Option Object) : Option Object :=
  o.filter fun o => selector.selects o.labelSet

/-- A listing, by what it does next. -/
inductive Phase where
  | names (user : User)
  | objects (left : List String) (found : List Object)
  | done (result : Except ListError (List Object))

def Phase.query? : Phase → Option Query
  | objects (ns :: _) _ => some (.object ns)
  | _ => none

/-- One step of a listing, which leaves the cache as it is. -/
def Phase.step (m : Moment) (c : Cache) (selector : Label.Selector) : Phase → Phase
  | names user => objects (c.visibleNames m.stores user) []
  | objects [] found => done (.ok found)
  | objects (ns :: left) found =>
      match m.object ns with
      | .ok o => objects left (found ++ (keep selector o).toList)
      | .error e => done (.error e)
  | done result => done result

end Listing

/-- A listing of the namespaces that a user may see. The names come from the index, cut down to what
the user's scopes allow, and the namespaces themselves from the store: one that is gone is left out,
and one that the store fails to give fails the listing. -/
structure Listing where
  selector : Label.Selector
  phase : Listing.Phase

namespace Listing

def start (user : User) (selector : Label.Selector) : Listing := ⟨selector, .names user⟩

def query? (l : Listing) : Option Query := l.phase.query?

def step (m : Moment) (c : Cache) (l : Listing) : Listing :=
  { l with phase := l.phase.step m c l.selector }

end Listing

/-- The namespaces that a user may see and a selector matches, all found at one moment. -/
def Cache.list (c : Cache) (m : Moment) (u : User) (selector : Label.Selector) :
    Except ListError (List Object) := do
  let found ← (c.visibleNames m.stores u).mapM m.object
  return found.filterMap (Listing.keep selector)

end Visibility
