import Visibility.Json.Value
import Visibility.Table

namespace Visibility

/-- What nobody looks at in an object, in the form in which its document shows it. All but the specification and the
status belongs to the metadata. -/
structure Details where
  annotations : Option Json.Value := none
  creationTimestamp : Option Json.Value := none
  deletionGracePeriodSeconds : Option Json.Value := none
  deletionTimestamp : Option Json.Value := none
  finalizers : Option Json.Value := none
  generateName : Option Json.Value := none
  generation : Option Json.Value := none
  managedFields : Option Json.Value := none
  ownerReferences : Option Json.Value := none
  selfLink : Option Json.Value := none
  spec : Option Json.Value := none
  status : Option Json.Value := none
deriving DecidableEq, Inhabited

/-- An object; any part of it may be missing. -/
structure Object where
  name : Option String := none
  ns : Option String := none
  uid : Option String := none
  resourceVersion : Option String := none
  labels : Option (Table String) := none
  details : Details := {}
deriving DecidableEq, Inhabited

/-- The labels of an object; one that carries none has no label. -/
def Object.labelSet (o : Object) : Table String := o.labels.getD ∅

/-- How far an update of a store came: through, or up to an object without a name. -/
inductive Completion where
  | complete
  | unnamed
deriving DecidableEq, Repr

/-- Applies objects in order to a store that refuses one without a name, and stops at the first
refusal; what was applied before it stays. -/
def applyAll {σ : Type} (apply : σ → Object → Option σ) : σ → List Object → σ × Completion
  | s, [] => (s, .complete)
  | s, o :: rest =>
      match apply s o with
      | some s => applyAll apply s rest
      | none => (s, .unnamed)

end Visibility
