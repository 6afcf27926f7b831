import Visibility.Proofs.ClusterHash

namespace Visibility

/-- Two caches with the same records and index, and the same measures of these. -/
structure Cache.Alike (c c' : Cache) : Prop where
  records : c'.records = c.records
  subjects : c'.subjects = c.subjects
  namespaces : c'.metrics.namespaces = c.metrics.namespaces
  users : c'.metrics.users = c.metrics.users
  groups : c'.metrics.groups = c.metrics.groups

theorem Cache.Alike.refl (c : Cache) : c.Alike c := ⟨rfl, rfl, rfl, rfl, rfl⟩

theorem Cache.remove_of_none {c : Cache} {ns : String} (h : c.records.get? ns = none) :
    c.remove ns = (c, none) := by rw [Cache.remove, h]

theorem Cache.remove_of_some {c : Cache} {ns : String} {r : Record}
    (h : c.records.get? ns = some r) :
    c.remove ns =
      ({ c with records := c.records.erase ns, subjects := c.subjects.forget ns }.measure,
        some r) := by rw [Cache.remove, h]

theorem Cache.get?_remove (c : Cache) (ns k : String) :
    (c.remove ns).1.records.get? k = if k = ns then none else c.records.get? k := by
  cases hr : c.records.get? ns with
  | none =>
      rw [remove_of_none hr]
      split
      · rename_i hk
        rw [hk, hr]
      · rfl
  | some r =>
      rw [remove_of_some hr]
      exact Table.get?_erase _ _ _

theorem Cache.get?_commit (c : Cache) (ns k : String) (r : Record) :
    (c.commit ns r).1.records.get? k = if k = ns then some r else c.records.get? k :=
  Table.get?_insert _ _ _ _

/-- Whether a record was stored or removed. -/
def Effect.isWrite : Effect → Bool
  | recorded _ _ | removed _ => true
  | asked _ | notified _ _ _ _ => false

/-- What a step can do to a cache, by the effect that it shows. -/
inductive Cache.Touch (c : Cache) : Option Effect → Cache → Prop where
  | commit (ns : String) (r : Record) : Touch c (some (.recorded ns r)) (c.commit ns r).1
  | remove (ns : String) (r : Record) (h : c.records.get? ns = some r) :
      Touch c (some (.removed ns)) (c.remove ns).1
  | keep {e : Option Effect} {c' : Cache} (he : e.any (·.isWrite) = false) (h : c.Alike c') :
      Touch c e c'

open ClusterHash (Computation)

def ClusterHash.Request.computation? : Request → Option Computation
  | compute c => some c
  | settle | done _ => none

def Refresh.computation? (r : Refresh) : Option Computation :=
  match r.phase with
  | .hashCluster request => request.computation?
  | _ => none

def Pass.Phase.computation? : Phase → Option Computation
  | hashCluster c => some c
  | refresh _ _ r => r.computation?
  | _ => none

/-- The computation of the digest that a call is in. -/
def Call.computation? : Call → Option Computation
  | refresh r => r.computation?
  | pass p => p.computation?

@[simp] theorem Refresh.computation?_start (ns : String) (hash : Option String) :
    (Refresh.start ns hash).computation? = none := by cases hash <;> rfl

@[simp] theorem Pass.computation?_visit (plan : Plan) (ts : List Target) :
    (visit plan ts).computation? = none := by
  cases ts with
  | nil => rfl
  | cons t left => exact Refresh.computation?_start t.1 t.2

@[simp] theorem Pass.computation?_hashNext (cluster : String) (full : Bool) (left : List String)
    (live : Table (Option String)) : (hashNext cluster full left live).computation? = none := by
  rw [hashNext]
  split <;> rfl

theorem ClusterHash.Request.touch (m : Moment) (h : ClusterHash) (r : Request) :
    h.Touch m r.computation? (r.step m h).1 (r.step m h).2.computation? := by
  cases r with
  | compute c =>
      have hstep : ∀ next, next = some (c.step m h).2 ∨
          next = none ∧ (c.step m h).2.running = false →
          h.Touch m (some c) (c.step m h).1 next := fun next hnext => .step c next hnext
      simp only [Request.step]
      split
      · rename_i h' hc
        rw [hc] at hstep
        exact hstep none (.inr ⟨rfl, rfl⟩)
      · rename_i h' result hne hc
        rw [hc] at hstep
        exact hstep none (.inr ⟨rfl, rfl⟩)
      · rename_i h' c' hne hne' hc
        rw [hc] at hstep
        exact hstep (some c') (.inl rfl)
  | settle => exact .idle
  | done result => exact .idle

/-- What passes keep in a cache is the same. -/
structure Cache.SamePasses (c c' : Cache) : Prop where
  syncing : c'.syncing = c.syncing
  lastPassHash : c'.lastPassHash = c.lastPassHash
  ready : c'.ready = c.ready

/-- What a step of a refresh does to the cache. -/
structure Refresh.Stepped (m : Moment) (c : Cache) (r : Refresh) (p : Progress Refresh) :
    Prop where
  touch : c.Touch p.effect p.cache
  hash : c.clusterHash.Touch m r.computation? p.cache.clusterHash p.next.computation?
  passes : c.SamePasses p.cache

theorem Refresh.stepped (m : Moment) (c : Cache) (r : Refresh) :
    Stepped m c r (r.step m c) := by
  have hsame : c.SamePasses c := ⟨rfl, rfl, rfl⟩
  obtain ⟨ns, phase⟩ := r
  simp only [Refresh.step]
  cases phase with
  | exists? =>
      simp only [Phase.step]
      split
      · exact ⟨.keep rfl (.refl c), .enter, hsame⟩
      · exact ⟨.keep rfl (.refl c), .idle, hsame⟩
      · exact ⟨.keep rfl (.refl c), .idle, hsame⟩
  | remove =>
      simp only [Phase.step]
      cases h : c.records.get? ns with
      | none =>
          rw [Cache.remove_of_none h]
          exact ⟨.keep rfl (.refl c), .idle, hsame⟩
      | some r =>
          have htouch := Cache.Touch.remove ns r h
          rw [Cache.remove_of_some h] at htouch ⊢
          dsimp only
          split
          · exact ⟨htouch, .idle, rfl, rfl, rfl⟩
          · exact ⟨htouch, .idle, rfl, rfl, rfl⟩
  | hashCluster request =>
      have htouch := request.touch m c.clusterHash
      simp only [Phase.step]
      split
      · rename_i h' hash hr
        rw [hr] at htouch
        exact ⟨.keep rfl ⟨rfl, rfl, rfl, rfl, rfl⟩, htouch, rfl, rfl, rfl⟩
      · rename_i h' e hr
        rw [hr] at htouch
        exact ⟨.keep rfl ⟨rfl, rfl, rfl, rfl, rfl⟩, htouch, rfl, rfl, rfl⟩
      · rename_i h' r' hne hne' hr
        rw [hr] at htouch
        exact ⟨.keep rfl ⟨rfl, rfl, rfl, rfl, rfl⟩, htouch, rfl, rfl, rfl⟩
  | hashNamespace cluster =>
      simp only [Phase.step]
      split
      · exact ⟨.keep rfl (.refl c), .idle, hsame⟩
      · exact ⟨.keep rfl (.refl c), .idle, hsame⟩
  | compare hash =>
      simp only [Phase.step]
      split
      · exact ⟨.keep rfl (.refl c), .idle, hsame⟩
      · exact ⟨.keep rfl (.refl c), .idle, hsame⟩
  | ask hash => exact ⟨.keep rfl ⟨rfl, rfl, rfl, rfl, rfl⟩, .idle, rfl, rfl, rfl⟩
  | hear hash answer =>
      cases answer with
      | error reason => exact ⟨.keep rfl ⟨rfl, rfl, rfl, rfl, rfl⟩, .idle, rfl, rfl, rfl⟩
      | ok review =>
          simp only [Phase.step]
          split
          · exact ⟨.keep rfl ⟨rfl, rfl, rfl, rfl, rfl⟩, .idle, rfl, rfl, rfl⟩
          · exact ⟨.keep rfl (.refl c), .idle, hsame⟩
  | commit hash review =>
      let record : Record := ⟨NameSet.ofList review.users, NameSet.ofList review.groups, hash⟩
      have htouch := Cache.Touch.commit (c := c) ns record
      have hhash : c.clusterHash.Touch m none (c.commit ns record).1.clusterHash none := .idle
      have hpasses : c.SamePasses (c.commit ns record).1 := ⟨rfl, rfl, rfl⟩
      simp only [Phase.step]
      split
      · rename_i c' users groups h
        rw [h] at htouch hhash hpasses
        exact ⟨htouch, hhash, hpasses⟩
      · rename_i c' h
        rw [h] at htouch hhash hpasses
        exact ⟨htouch, hhash, hpasses⟩
  | announce users groups => exact ⟨.keep rfl (.refl c), .idle, hsame⟩
  | notify watchers users groups =>
      cases watchers with
      | nil => exact ⟨.keep rfl (.refl c), .idle, hsame⟩
      | cons w watchers => exact ⟨.keep rfl (.refl c), .idle, hsame⟩
  | done result => exact ⟨.keep rfl (.refl c), .idle, hsame⟩

theorem Pass.touch (m : Moment) (c : Cache) (p : Pass.Phase) :
    c.Touch (p.step m c).effect (p.step m c).cache := by
  cases p with
  | enter =>
      simp only [Phase.step]
      split <;> exact .keep rfl ⟨rfl, rfl, rfl, rfl, rfl⟩
  | hashCluster computation =>
      simp only [Phase.step]
      split <;> exact .keep rfl ⟨rfl, rfl, rfl, rfl, rfl⟩
  | listNames cluster full =>
      simp only [Phase.step]
      split <;> exact .keep rfl (.refl c)
  | hashNamespaces cluster full left live => cases left <;> exact .keep rfl (.refl c)
  | compare cluster full live => exact .keep rfl (.refl c)
  | refresh plan left r =>
      have htouch := (r.stepped m c).touch
      simp only [Phase.step]
      split <;> exact htouch
  | finish plan => exact .keep rfl ⟨rfl, rfl, rfl, rfl, rfl⟩
  | done result => exact .keep rfl (.refl c)

theorem Call.touch (m : Moment) (c : Cache) (call : Call) :
    c.Touch (call.step m c).effect (call.step m c).cache := by
  cases call with
  | refresh r => exact (r.stepped m c).touch
  | pass p => exact Pass.touch m c p

theorem Pass.touch_hash (m : Moment) (c : Cache) (p : Pass.Phase) :
    c.clusterHash.Touch m p.computation? (p.step m c).cache.clusterHash
      (p.step m c).next.computation? := by
  cases p with
  | enter =>
      simp only [Phase.step]
      split
      · exact .idle
      · exact .enter
  | hashCluster computation =>
      have hstep : ∀ next, next = some (computation.step m c.clusterHash).2 ∨
          next = none ∧ (computation.step m c.clusterHash).2.running = false →
          c.clusterHash.Touch m (some computation) (computation.step m c.clusterHash).1 next :=
        fun next hnext => .step computation next hnext
      simp only [Phase.step]
      split
      · rename_i h' hash hc
        rw [hc] at hstep
        exact hstep none (.inr ⟨rfl, rfl⟩)
      · rename_i h' e hc
        rw [hc] at hstep
        exact hstep none (.inr ⟨rfl, rfl⟩)
      · rename_i h' c' hne hne' hc
        rw [hc] at hstep
        exact hstep (some c') (.inl rfl)
  | listNames cluster full =>
      simp only [Phase.step]
      split
      · rw [computation?_hashNext]
        exact .idle
      · exact .idle
  | hashNamespaces cluster full left live =>
      cases left with
      | nil => exact .idle
      | cons ns left =>
          simp only [Phase.step]
          rw [computation?_hashNext]
          exact .idle
  | compare cluster full live =>
      simp only [Phase.step]
      rw [computation?_visit]
      exact .idle
  | refresh plan left r =>
      have htouch := (r.stepped m c).hash
      simp only [Phase.step]
      split
      · rename_i result hresult
        rw [computation?_visit]
        have hnone : (r.step m c).next.computation? = none := by
          rw [Refresh.result?] at hresult
          split at hresult
          · rename_i hdone
            rw [Refresh.computation?, hdone]
          · cases hresult
        rwa [hnone] at htouch
      · exact htouch
  | finish plan => exact .idle
  | done result => exact .idle

theorem Call.touch_hash (m : Moment) (c : Cache) (call : Call) :
    c.clusterHash.Touch m call.computation? (call.step m c).cache.clusterHash
      (call.step m c).next.computation? := by
  cases call with
  | refresh r => exact (r.stepped m c).hash
  | pass p => exact Pass.touch_hash m c p

end Visibility
