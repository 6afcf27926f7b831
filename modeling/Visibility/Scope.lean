import Visibility.Table

namespace Visibility

/-- A user, as a request identifies it. -/
structure User where
  name : String
  groups : List String := []
  extra : Table (List String) := ∅
deriving DecidableEq, Inhabited

namespace User

/-- The attribute that holds the scopes of a user. -/
def scopesKey : String := "scopes.authorization.openshift.io"

def withScopes (u : User) (scopes : List String) : User :=
  { u with extra := u.extra.insert scopesKey scopes }

/-- The scopes that restrict what a user may see; none means no restriction. -/
def scopes (u : User) : List String := (u.extra.get? scopesKey).getD []

end User

namespace Scope

/-- The namespaces that scopes leave visible. -/
inductive Visible where
  | all
  | only (names : NameSet)
deriving DecidableEq

namespace Visible

def contains : Visible → String → Bool
  | all, _ => true
  | only names, ns => names.contains ns

/-- What two sets leave visible together. -/
def union : Visible → Visible → Visible
  | only a, only b => only (a.union b)
  | _, _ => all

def nothing : Visible := only ∅

end Visible

/-- What comes before and after the last colon. -/
def cutLastColon? (s : List Char) : Option (List Char × List Char) :=
  match s.reverse.span (· ≠ ':') with
  | (_, []) => none
  | (back, _ :: front) => some (front.reverse, back.reverse)

/-- Drops one `:!` at the end. -/
def dropEscalation (s : List Char) : List Char :=
  match s.reverse with
  | '!' :: ':' :: front => front.reverse
  | _ => s

/-- The role and the namespace that a role scope names: `role:<role>:<namespace>`, with an optional
`:!` at the end. The namespace is what follows the last colon; neither may be empty. -/
def role? (scope : String) : Option (String × String) :=
  match scope.toList with
  | 'r' :: 'o' :: 'l' :: 'e' :: ':' :: rest =>
      match cutLastColon? (dropEscalation rest) with
      | some (role, ns) =>
          if role.isEmpty || ns.isEmpty then none
          else some (String.ofList role, String.ofList ns)
      | none => none
  | _ => none

/-- What one scope grants, where `roleExists` tells the cluster roles that exist. -/
def granted (roleExists : String → Bool) (scope : String) : Visible :=
  if scope = "user:full" ∨ scope = "user:list-projects" then .all
  else
    match role? scope with
    | none => .nothing
    | some (role, ns) =>
        if !roleExists role then .nothing
        else if ns = "*" then .all
        else .only (NameSet.ofList [ns])

/-- What a user's scopes leave visible: all if it has none, and otherwise what they grant. -/
def visible (roleExists : String → Bool) (scopes : List String) : Visible :=
  if scopes.isEmpty then .all
  else (scopes.map (granted roleExists)).foldl .union .nothing

end Scope

end Visibility
