import Visibility.Cache.Pass
import Visibility.Proofs.Stores.Edits

/-!
The digest of the cluster-scoped objects is right whenever its versions are those of the stores,
although the objects are listed at different times and the stores change in between.

The versions are read before the objects are listed, so a listing is never older than its version: if
the version is still the current one, the listing is too.
-/

namespace Visibility

open Rbac (Index Kind Ref)

namespace Rbac.Index

theorem Evolves.listCluster_eq {ix ix' : Index} (h : ix.Evolves ix') {k : Kind}
    (hk : ix'.version k = ix.version k) : ix'.listCluster k = ix.listCluster k := by
  cases k with
  | clusterRole =>
      have hget := h.get_eq .clusterRoles hk
      exact congrArg (fun t : Table Ref => Except.ok t.values) hget
  | clusterRoleBinding =>
      have hget := h.get_eq .clusterRoleBindings hk
      exact congrArg (fun t : Table Ref => Except.ok t.values) hget
  | role | roleBinding => rfl

/-- A listing of a kind that is no older than a version of the kind. -/
structure Listed (ix : Index) (k : Kind) (version : Nat) (refs : List Ref) : Prop where
  le : version ≤ ix.version k
  eq : version = ix.version k → ix.listCluster k = .ok refs

theorem Listed.evolves {ix ix' : Index} {k : Kind} {v : Nat} {refs : List Ref}
    (h : ix.Listed k v refs) (he : ix.Evolves ix') : ix'.Listed k v refs := by
  refine ⟨Nat.le_trans h.le (he.version_le k), fun hv => ?_⟩
  have hk : ix'.version k = ix.version k :=
    Nat.le_antisymm (hv ▸ h.le) (he.version_le k)
  rw [he.listCluster_eq hk, h.eq (hv.trans hk)]

end Rbac.Index

theorem Moment.cluster_eq_ok {m : Moment} {k : Kind} {refs : List Ref}
    (h : m.cluster k = .ok refs) : m.stores.rbac.listCluster k = .ok refs := by
  rw [Moment.cluster, Moment.ask] at h
  split at h
  · cases h
  · exact h

/-- A digest of listings that are no older than its versions. -/
def Hashed.Sound (x : Hashed) (ix : Index) : Prop :=
  ∃ roles bindings, x.hash = Ref.digest (roles ++ bindings) ∧
    ix.Listed .clusterRole x.versions.roles roles ∧
    ix.Listed .clusterRoleBinding x.versions.bindings bindings

theorem Hashed.Sound.evolves {x : Hashed} {ix ix' : Index} (h : x.Sound ix)
    (he : ix.Evolves ix') : x.Sound ix' := by
  obtain ⟨roles, bindings, hhash, hroles, hbindings⟩ := h
  exact ⟨roles, bindings, hhash, hroles.evolves he, hbindings.evolves he⟩

namespace ClusterHash

/-- The digest that is kept is one of listings that are no older than its versions. -/
def Sound (h : ClusterHash) (ix : Index) : Prop := ∀ x, h.last = some x → x.Sound ix

theorem Sound.evolves {h : ClusterHash} {ix ix' : Index} (hs : h.Sound ix)
    (he : ix.Evolves ix') : h.Sound ix' := fun x hx => (hs x hx).evolves he

theorem Sound.hash_eq {h : ClusterHash} {s : Stores} {x : Hashed} (hs : h.Sound s.rbac)
    (hx : h.last = some x)
    (hv : x.versions = ⟨s.rbac.version .clusterRole, s.rbac.version .clusterRoleBinding⟩) :
    x.hash = Ref.digest (s.rbac.clusterRoles.values ++ s.rbac.clusterRoleBindings.values) := by
  obtain ⟨roles, bindings, hhash, hroles, hbindings⟩ := hs x hx
  have h₁ := hroles.eq (by rw [hv])
  have h₂ := hbindings.eq (by rw [hv])
  cases h₁
  cases h₂
  exact hhash

namespace Computation

/-- What a computation has read and listed is no older than the versions that it read. -/
def Sound (ix : Index) : Computation → Prop
  | readBindingsVersion roles => roles ≤ ix.version .clusterRole
  | listRoles versions =>
      versions.roles ≤ ix.version .clusterRole ∧ versions.bindings ≤ ix.version .clusterRoleBinding
  | listBindings versions roles =>
      ix.Listed .clusterRole versions.roles roles ∧
        versions.bindings ≤ ix.version .clusterRoleBinding
  | enter | readRolesVersion | done _ => True

theorem Sound.evolves {ix ix' : Index} {c : Computation} (h : c.Sound ix)
    (he : ix.Evolves ix') : c.Sound ix' := by
  have hle := he.version_le
  cases c with
  | readBindingsVersion roles => exact Nat.le_trans h (hle _)
  | listRoles versions => exact ⟨Nat.le_trans h.1 (hle _), Nat.le_trans h.2 (hle _)⟩
  | listBindings versions roles => exact ⟨h.1.evolves he, Nat.le_trans h.2 (hle _)⟩
  | enter | readRolesVersion | done result => exact h

theorem sound_step {m : Moment} {h : ClusterHash} {c : Computation}
    (hs : h.Sound m.stores.rbac) (hc : c.Sound m.stores.rbac) :
    (c.step m h).1.Sound m.stores.rbac ∧ (c.step m h).2.Sound m.stores.rbac := by
  cases c with
  | enter =>
      rw [step]
      split
      · exact ⟨hs, trivial⟩
      · exact ⟨hs, trivial⟩
  | readRolesVersion => exact ⟨hs, Nat.le_refl _⟩
  | readBindingsVersion roles =>
      have hlist : (listRoles ⟨roles, m.version .clusterRoleBinding⟩).Sound m.stores.rbac :=
        ⟨hc, Nat.le_refl _⟩
      simp only [step]
      split
      · split
        · exact ⟨hs, trivial⟩
        · exact ⟨hs, hlist⟩
      · exact ⟨hs, hlist⟩
  | listRoles versions =>
      simp only [step]
      split
      · rename_i refs hrefs
        exact ⟨hs, ⟨hc.1, fun _ => Moment.cluster_eq_ok hrefs⟩, hc.2⟩
      · exact ⟨hs, trivial⟩
  | listBindings versions roles =>
      simp only [step]
      split
      · rename_i bindings hbindings
        refine ⟨fun x hx => ?_, trivial⟩
        cases hx
        exact ⟨roles, bindings, rfl, hc.1, hc.2, fun _ => Moment.cluster_eq_ok hbindings⟩
      · exact ⟨hs, trivial⟩
  | done result => exact ⟨hs, trivial⟩

/-- Whether a computation has entered and not left. -/
def running : Computation → Bool
  | enter | done _ => false
  | _ => true

theorem busy_step {m : Moment} {h : ClusterHash} {c : Computation}
    (hbusy : (c.step m h).1.busy = true) :
    (c.step m h).2.running = true ∨ h.busy = true ∧ c.running = false := by
  cases c with
  | enter =>
      by_cases hb : h.busy = true
      · exact .inr ⟨hb, rfl⟩
      · rw [step, if_neg hb]
        exact .inl rfl
  | readRolesVersion => exact .inl rfl
  | readBindingsVersion roles =>
      simp only [step] at hbusy ⊢
      split
      · split
        · rename_i x hx hv
          simp [hx, hv, leave] at hbusy
        · exact .inl rfl
      · exact .inl rfl
  | listRoles versions =>
      simp only [step] at hbusy ⊢
      split
      · exact .inl rfl
      · rename_i e he
        simp [he, leave] at hbusy
  | listBindings versions roles =>
      simp only [step] at hbusy
      split at hbusy <;> simp [leave] at hbusy
  | done result => exact .inr ⟨hbusy, rfl⟩

end Computation

/-- What a step of a call can do to the digest: leave it as it is, or make one step of the
computation that the call is in. -/
inductive Touch (m : Moment) (h : ClusterHash) :
    Option Computation → ClusterHash → Option Computation → Prop where
  /-- A call that is in no computation may come to the beginning of one. -/
  | idle : Touch m h none h none
  | enter : Touch m h none h (some .enter)
  | step (c : Computation) (next : Option Computation)
      (hnext : next = some (c.step m h).2 ∨ next = none ∧ (c.step m h).2.running = false) :
      Touch m h (some c) (c.step m h).1 next

theorem Touch.sound {m : Moment} {h h' : ClusterHash} {comp comp' : Option Computation}
    (ht : h.Touch m comp h' comp') (hs : h.Sound m.stores.rbac)
    (hc : ∀ c, comp = some c → c.Sound m.stores.rbac) :
    h'.Sound m.stores.rbac ∧ ∀ c, comp' = some c → c.Sound m.stores.rbac := by
  cases ht with
  | idle => exact ⟨hs, hc⟩
  | enter =>
      refine ⟨hs, fun c h => ?_⟩
      cases h
      trivial
  | step c next hnext =>
      have hstep := Computation.sound_step hs (hc c rfl)
      refine ⟨hstep.1, fun c' h => ?_⟩
      rcases hnext with rfl | ⟨rfl, -⟩
      · cases h
        exact hstep.2
      · cases h

end ClusterHash

end Visibility
