import Visibility.Digest
import Visibility.Rbac.Kind

namespace Visibility.Rbac

/-- The identity and version of an object. The rules inside it are never looked at. -/
structure Ref where
  kind : Kind
  uid : String
  resourceVersion : String
deriving DecidableEq, Repr, Inhabited

namespace Ref

/-- References compare by kind, then by identity, then by version. -/
instance : Ord Ref :=
  ⟨fun a b => (compare a.kind b.kind).then
    ((compare a.uid b.uid).then (compare a.resourceVersion b.resourceVersion))⟩

/-- The references of a list, in order. -/
def sort (refs : List Ref) : List Ref := refs.mergeSort fun a b => (compare a b).isLE

/-- What a reference contributes to a digest. -/
def fields (r : Ref) : List String := [r.kind.name, r.uid, r.resourceVersion]

/-- The bytes that a list of references is hashed from, in any order of the list. -/
def digestBytes (refs : List Ref) : List UInt8 := Digest.fieldBytes ((sort refs).flatMap fields)

/-- The digest of a list of references. -/
def digest (refs : List Ref) : String := Digest.hex (Digest.fnv (digestBytes refs))

end Ref

end Visibility.Rbac
