import Visibility.Endpoint
import Visibility.Service.Basic

/-!
The steps of a scenario and the answers to them.

A scenario is played against a service whose surroundings are scripted: what the reviewer says, which
looks at the stores fail, and what else happens at given points inside a call.
-/

namespace Visibility.Scenario

open Rbac (Kind Ref ListError)

/-- A point inside a call, at which further steps can be made to happen. A call can be made to fail at
its looks at a store; at the other points nothing fails. -/
inductive Point where
  /-- Before a look at a store. -/
  | query (q : Query)
  /-- When the reviewer is asked about a namespace. -/
  | review (ns : String)
  /-- When a watcher has been told about a namespace. -/
  | notified (ns : String)
  /-- A point by a name that stands for none: no call comes to it. -/
  | nowhere (name : String)
deriving DecidableEq, Repr

/-- What the reviewer says about a namespace, and how many milliseconds it takes to say it. -/
structure Script where
  answer : Except String Review := .ok {}
  delay : Option Nat := none

inductive Step where
  /-- An event, which reaches the store alone or goes through the service. -/
  | change (throughService : Bool) (change : Change)
  | clusterRefs (kind : Kind)
  | namespacedRefs (ns : String)
  | roleExists (name : String)
  | synced
  | names
  | object (ns : String)
  | script (ns : String) (script : Script)
  | fail (point : Point) (reason : String)
  | heal (point : Point)
  /-- Makes steps happen the next time a point is reached. -/
  | on (point : Point) (steps : List Step)
  | watch (watcher : String)
  | unwatch (watcher : String)
  | pass
  | refresh (ns : String) (hash : Option String)
  | record (ns : String)
  | ready
  | list (user : User) (selector : String)
  | serve (request : Http.Request)
  | metrics
  | computeHash
  | requestHash
  | lastHash
  | add (key : ChangeKey)
  | addAfter (delay : Nat) (key : ChangeKey)
  | retry (key : ChangeKey)
  | forget (key : ChangeKey)
  | drop (key : ChangeKey)
  | release (key : ChangeKey)
  | shutDown
  /-- Gets a key if there is one. -/
  | take
  | inspect (key : Option ChangeKey)
  /-- Handles a key if there is one. -/
  | work
  /-- Starts the loop in the background, that of the cache alone or that of the service. -/
  | start (ofService : Bool) (period : Nat)
  | stop
  | advance (time : Nat)

inductive Answer where
  | nothing
  /-- The step met an object without a name, or a loop without a period. -/
  | broken
  | stored (size : Nat) (version : Option Nat)
  | clusterRefs (size version : Nat) (refs : Except ListError (List Ref))
  | refs (refs : List Ref)
  | truth (b : Bool)
  | synced (rbac namespaces : Bool)
  | names (names : List String) (empty : Bool)
  | object (object : Option Object)
  | outcome (outcome : Pass.Outcome)
  | refreshed
  | record (record : Option Record)
  | listed (objects : List Object)
  | response (response : Http.Response)
  | samples (samples : List Sample)
  | hash (hash : Option String)
  | size (size : Nat)
  | retried (size requeues : Nat)
  | requeues (requeues : Nat)
  | taken (key : ChangeKey) (size : Nat)
  /-- There is no key to wait for. -/
  | pending
  | closed
  | queue (name : String) (size : Nat) (shuttingDown : Bool) (requeues : Option Nat)
  | worked (more : Bool) (size : Nat)
  | stopped
  | notRunning
  | storeFailed (error : ListError)
  | hashFailed (error : HashError)
  | refreshFailed (error : RefreshError)
  | badSelector (error : Label.ParseError)

end Visibility.Scenario
