import Visibility.Table

namespace Visibility.Label

/-- What a requirement asks of the value under its key. -/
inductive Operator where
  | isIn
  | notIn
  | present
  | absent
deriving DecidableEq, Repr, Inhabited

/-- A condition on one label. The values count for `isIn` and `notIn` only. -/
structure Requirement where
  key : String
  operator : Operator
  values : NameSet
deriving DecidableEq, Inhabited

/-- Whether a label set meets a requirement; a missing label is not in any set. -/
def Requirement.admits (r : Requirement) (labels : Table String) : Bool :=
  match r.operator, labels.get? r.key with
  | .isIn, some v => r.values.contains v
  | .isIn, none => false
  | .notIn, some v => !r.values.contains v
  | .notIn, none => true
  | .present, v => v.isSome
  | .absent, v => v.isNone

/-- A selector asks for labels, for requirements, or for both; what it does not ask for it leaves
open. -/
structure Selector where
  labels : Option (Table String) := none
  requirements : Option (List Requirement) := none
deriving DecidableEq, Inhabited

namespace Selector

/-- The selector that matches every label set. -/
def everything : Selector := {}

def ofRequirements (rs : List Requirement) : Selector := { requirements := some rs }

def ofLabels (t : Table String) : Selector := { labels := some t }

/-- Whether a selector asks for nothing, and so selects every set of labels. -/
def isEverything (s : Selector) : Bool :=
  (s.labels.getD ∅).isEmpty && (s.requirements.getD []).isEmpty

/-- Whether a label set meets every requirement and has every label that is asked for. -/
def selects (s : Selector) (labels : Table String) : Bool :=
  (s.requirements.getD []).all (·.admits labels) &&
    (s.labels.getD ∅).entries.all fun e => labels.get? e.1 = some e.2

theorem selects_ofRequirements (rs : List Requirement) (labels : Table String) :
    (ofRequirements rs).selects labels = rs.all (·.admits labels) := Bool.and_true _

theorem selects_ofLabels (t : Table String) (labels : Table String) :
    (ofLabels t).selects labels = t.entries.all fun e => labels.get? e.1 = some e.2 := Bool.true_and _

end Selector

end Visibility.Label
