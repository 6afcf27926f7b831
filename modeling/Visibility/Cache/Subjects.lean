import Visibility.Scope

namespace Visibility

/-- Who may access a namespace, as of its last review, and the hash that the review answers to. -/
structure Record where
  users : NameSet
  groups : NameSet
  hash : String
deriving DecidableEq

namespace Subjects

/-- Subjects of one sort with the namespaces that they may see. -/
abbrev Grants := Table NameSet

/-- Adds a namespace to a subject's. -/
def grant (g : Grants) (subject ns : String) : Grants :=
  g.insert subject (((g.get? subject).getD ∅).add ns)

/-- Takes a namespace from a subject, and the subject out if nothing is left to it. -/
def revoke (g : Grants) (subject ns : String) : Grants :=
  match g.get? subject with
  | none => g
  | some names =>
      let left := names.remove ns
      if left.isEmpty then g.erase subject else g.insert subject left

/-- Takes a namespace from every subject, and those out to which nothing is left. -/
def scrub (g : Grants) (ns : String) : Grants :=
  g.filterMap fun _ names =>
    let left := names.remove ns
    if left.isEmpty then none else some left

end Subjects

/-- The index from users and groups to the namespaces that they may see. It is the inverse of the
records, and a subject without namespaces has no entry. -/
structure Subjects where
  users : Subjects.Grants := ∅
  groups : Subjects.Grants := ∅
deriving DecidableEq

namespace Subjects

/-- Adds a namespace under all subjects of its record. -/
def insert (s : Subjects) (ns : String) (users groups : NameSet) : Subjects :=
  { users := users.toList.foldl (grant · · ns) s.users
    groups := groups.toList.foldl (grant · · ns) s.groups }

/-- Takes a namespace from the subjects that its record named. -/
def remove (s : Subjects) (ns : String) (users groups : NameSet) : Subjects :=
  { users := users.toList.foldl (revoke · · ns) s.users
    groups := groups.toList.foldl (revoke · · ns) s.groups }

/-- Takes a namespace out wherever it is listed. -/
def forget (s : Subjects) (ns : String) : Subjects :=
  { users := scrub s.users ns, groups := scrub s.groups ns }

/-- The namespaces that a user may see, itself or through one of its groups, in order of names. -/
def visible (s : Subjects) (u : User) : NameSet :=
  u.groups.foldl (fun names g => names.union ((s.groups.get? g).getD ∅))
    ((s.users.get? u.name).getD ∅)

end Subjects

end Visibility
