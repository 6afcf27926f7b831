import Mathlib.Logic.Function.Basic
import Visibility.Cache.Pass

/-!
The cache among its stores, with any number of calls under way at once.

One event is one change of the stores, the start of a call, or one step of a call; so anything can
happen between two steps of a call. A system also keeps what the statements about runs speak of: the
stores at every time so far, when the review behind each record was requested, and what was hashed.
-/

namespace Visibility

open Rbac (Ref)

/-- The references of all cluster-scoped objects. -/
def Stores.clusterRefs (s : Stores) : List Ref :=
  s.rbac.clusterRoles.values ++ s.rbac.clusterRoleBindings.values

/-- The hash of a namespace whose objects are those of the stores. -/
def Stores.hash (s : Stores) (ns : String) : String :=
  Digest.combine (Ref.digest s.clusterRefs) (Ref.digest (s.rbac.listNamespaced ns))

def Stores.live (s : Stores) (ns : String) : Bool := s.namespaces.objects.contains ns

/-- The list of references that the next step of a computation hashes. -/
def ClusterHash.Computation.digests (m : Moment) : Computation → List (List Ref)
  | listBindings _ roles => (m.cluster .clusterRoleBinding).toOption.toList.map (roles ++ ·)
  | _ => []

def ClusterHash.Request.digests (m : Moment) : Request → List (List Ref)
  | compute c => c.digests m
  | _ => []

def Refresh.digests (m : Moment) (r : Refresh) : List (List Ref) :=
  match r.phase with
  | .hashCluster request => request.digests m
  | .hashNamespace _ => (m.inNamespace r.ns).toOption.toList
  | _ => []

def Refresh.combines (m : Moment) (r : Refresh) : List (String × String) :=
  match r.phase with
  | .hashNamespace cluster => (m.inNamespace r.ns).toOption.toList.map (cluster, Ref.digest ·)
  | _ => []

def Pass.Phase.digests (m : Moment) : Phase → List (List Ref)
  | hashCluster c => c.digests m
  | hashNamespaces _ _ (ns :: _) _ => (m.inNamespace ns).toOption.toList
  | refresh _ _ r => r.digests m
  | _ => []

def Pass.Phase.combines (m : Moment) : Phase → List (String × String)
  | hashNamespaces cluster _ (ns :: _) _ =>
      (m.inNamespace ns).toOption.toList.map (cluster, Ref.digest ·)
  | refresh _ _ r => r.combines m
  | _ => []

/-- The lists of references that the next step of a call hashes. -/
def Call.digests (m : Moment) : Call → List (List Ref)
  | refresh r => r.digests m
  | pass p => p.digests m

/-- The pairs of digests that the next step of a call combines. -/
def Call.combines (m : Moment) : Call → List (String × String)
  | refresh r => r.combines m
  | pass p => p.combines m

/-- How a call begins. -/
inductive Launch where
  | pass
  | refresh (ns : String) (hash : Option String)

def Launch.call : Launch → Call
  | pass => .pass .enter
  | refresh ns hash => .refresh (.start ns hash)

/-- A call that was made, and the time at which it last asked the reviewer. -/
structure Attempt where
  call : Call
  asked : Nat := 0

/-- When the reviewer was last asked, after a step at the given time. -/
def Effect.askedAt (now asked : Nat) : Option Effect → Nat
  | some (.asked _) => now
  | _ => asked

theorem Effect.askedAt_le {now asked : Nat} {e : Option Effect} (h : asked ≤ now) :
    askedAt now asked e ≤ now + 1 := by
  rw [askedAt.eq_def]
  split <;> omega

def Attempt.after (a : Attempt) (now : Nat) (p : Progress Call) : Attempt :=
  ⟨p.next, Effect.askedAt now a.asked p.effect⟩

/-- A cache, the calls that were made on it, and what is said about their runs. -/
structure System where
  cache : Cache := {}
  /-- The calls made so far; those that ended stay. -/
  attempts : List Attempt := []
  /-- The number of events so far. -/
  now : Nat := 0
  /-- The stores at each time up to now. -/
  history : Nat → Stores := fun _ => {}
  /-- When the review behind the record of each namespace was requested. -/
  requested : String → Nat := fun _ => 0
  digested : List (List Ref) := []
  combined : List (String × String) := []

namespace System

def stores (s : System) : Stores := s.history s.now

/-- A change from outside, or one step of a call. -/
inductive Event where
  | change (change : Change)
  | launch (l : Launch)
  /-- A step of a call, which finds the stores as they are and all else as the moment says. -/
  | move (index : Nat) (moment : Moment)
  | watch (watcher : String)
  | unwatch (watcher : String)

/-- Lets time pass up to an event that leaves the given stores. -/
def tick (s : System) (stores : Stores) : System :=
  { s with now := s.now + 1, history := Function.update s.history (s.now + 1) stores }

/-- The system after a step of a call. -/
def advance (s : System) (i : Nat) (a : Attempt) (m : Moment) : System :=
  let p := a.call.step m s.cache
  { s.tick s.stores with
    cache := p.cache
    attempts := s.attempts.set i (a.after s.now p)
    requested := match p.effect with
      | some (.recorded ns _) => Function.update s.requested ns a.asked
      | _ => s.requested
    digested := s.digested ++ a.call.digests m
    combined := s.combined ++ a.call.combines m }

/-- A moment of the system: its stores, and all else as given. -/
def moment (s : System) (m : Moment) : Moment := { m with stores := s.stores }

def next (s : System) : Event → System
  | .change c => s.tick (s.stores.apply c).1
  | .launch l => { s.tick s.stores with attempts := s.attempts ++ [⟨l.call, 0⟩] }
  | .move i m =>
      match s.attempts[i]? with
      | none => s
      | some a => s.advance i a (s.moment m)
  | .watch w => { s.tick s.stores with cache := s.cache.addWatcher w }
  | .unwatch w => { s.tick s.stores with cache := s.cache.removeWatcher w }

/-- The states of a system that starts with empty stores and an empty cache and in which every event
is one that is allowed at its time. -/
inductive Reachable (allowed : System → Event → Prop) : System → Prop where
  | init : Reachable allowed {}
  | next {s : System} {e : Event} :
      Reachable allowed s → allowed s e → Reachable allowed (s.next e)

variable {allowed : System → Event → Prop} {s : System}

theorem Reachable.mono {allowed' : System → Event → Prop} (h : Reachable allowed s)
    (himp : ∀ s e, allowed s e → allowed' s e) : Reachable allowed' s := by
  induction h with
  | init => exact .init
  | next _ he ih => exact .next ih (himp _ _ he)

def run (s : System) (events : List Event) : System := events.foldl next s

theorem Reachable.run {events : List Event} (h : Reachable allowed s)
    (hall : ∀ e ∈ events, ∀ s, allowed s e) : Reachable allowed (s.run events) := by
  induction events generalizing s with
  | nil => exact h
  | cons e events ih =>
      rw [List.forall_mem_cons] at hall
      exact ih (.next h (hall.1 s)) hall.2

def anything (_ : System) (_ : Event) : Prop := True

/-- Every hash is one that the cache computed itself. -/
def ownHashes (_ : System) : Event → Prop
  | .launch (.refresh _ (some _)) => False
  | _ => True

@[simp] theorem stores_tick (s : System) (stores : Stores) : (s.tick stores).stores = stores :=
  Function.update_self _ _ _

theorem history_tick (s : System) (stores : Stores) {t : Nat} (ht : t ≤ s.now) :
    (s.tick stores).history t = s.history t :=
  Function.update_of_ne (by omega) _ _

@[simp] theorem stores_change (s : System) (c : Change) :
    (s.next (.change c)).stores = (s.stores.apply c).1 := stores_tick s _

@[simp] theorem stores_launch (s : System) (l : Launch) :
    (s.next (.launch l)).stores = s.stores := stores_tick s s.stores

@[simp] theorem stores_advance (s : System) (i : Nat) (a : Attempt) (m : Moment) :
    (s.advance i a m).stores = s.stores := stores_tick s s.stores

@[simp] theorem stores_move (s : System) (i : Nat) (m : Moment) :
    (s.next (.move i m)).stores = s.stores := by
  rw [next]
  split
  · rfl
  · exact stores_advance s i _ _

@[simp] theorem stores_watch (s : System) (w : String) :
    (s.next (.watch w)).stores = s.stores := stores_tick s s.stores

@[simp] theorem stores_unwatch (s : System) (w : String) :
    (s.next (.unwatch w)).stores = s.stores := stores_tick s s.stores

/-- A moment at which the reviewer knows one user and one group. -/
def sampleMoment (stores : Stores) : Moment :=
  { stores, reviewer := fun _ => .ok { users := ["u"], groups := ["g"] } }

/-- A moment at which no look fails and the reviewer names some users. -/
def reviewing (stores : Stores) (users : List String) : Moment :=
  { stores, reviewer := fun _ => .ok { users } }

/-- A namespace and a binding come in, and a pass reviews the namespace. -/
def sample : System :=
  (((System.next {} (.change (.apply .namespaces { name := some "a" }))).next
    (.change (.apply (.rbac .clusterRoleBinding)
      { name := some "b", uid := some "x", resourceVersion := some "1" }))).next
    (.launch .pass)).run (List.replicate 16 (.move 0 (sampleMoment {})))

theorem reachable_sample (hchange : ∀ s c, allowed s (.change c))
    (hlaunch : ∀ s, allowed s (.launch .pass))
    (hmove : ∀ s, allowed s (.move 0 (sampleMoment {}))) : Reachable allowed sample := by
  refine Reachable.run (.next (.next (.next .init (hchange _ _)) (hchange _ _)) (hlaunch _)) ?_
  intro e he
  rw [List.eq_of_mem_replicate he]
  exact hmove

end System

end Visibility
