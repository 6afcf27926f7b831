import Visibility.Object

namespace Visibility

/-- The store of the cluster's namespaces, by name. -/
structure Namespaces where
  objects : Table Object := ∅
  /-- Whether a whole listing came in. -/
  synced : Bool := false
deriving DecidableEq

namespace Namespaces

/-- Takes a namespace in; one without a name is refused. -/
def apply (s : Namespaces) (o : Object) : Option Namespaces :=
  o.name.map fun name => { s with objects := s.objects.insert name o }

def delete (s : Namespaces) (name : String) : Namespaces :=
  { s with objects := s.objects.erase name }

/-- Takes in a listing of all namespaces, and then out those that are gone. A namespace without a
name stops it. -/
def reset (s : Namespaces) (objects : List Object) (removed : List String) :
    Namespaces × Completion :=
  match applyAll apply s objects with
  | (s, .unnamed) => (s, .unnamed)
  | (s, .complete) => ({ removed.foldl delete s with synced := true }, .complete)

def size (s : Namespaces) : Nat := s.objects.size

def isEmpty (s : Namespaces) : Bool := s.size = 0

def names (s : Namespaces) : List String := s.objects.keys

def get? (s : Namespaces) (name : String) : Option Object := s.objects.get? name

end Namespaces

end Visibility
