import Visibility.Proofs.ClusterHash
import Visibility.Proofs.System

namespace Visibility

open Rbac (Index Kind Ref)

def Stores.versions (s : Stores) : Versions :=
  ⟨s.rbac.version .clusterRole, s.rbac.version .clusterRoleBinding⟩

namespace Versions

attribute [ext] Versions

instance : LE Versions := ⟨fun v w => v.roles ≤ w.roles ∧ v.bindings ≤ w.bindings⟩

theorem le_refl (v : Versions) : v ≤ v := ⟨Nat.le_refl _, Nat.le_refl _⟩

theorem le_trans {u v w : Versions} (huv : u ≤ v) (hvw : v ≤ w) : u ≤ w :=
  ⟨Nat.le_trans huv.1 hvw.1, Nat.le_trans huv.2 hvw.2⟩

end Versions

theorem Stores.versions_le_apply (s : Stores) (c : Change) : s.versions ≤ (s.apply c).1.versions :=
  have hle := (s.edits_apply c).evolves.version_le
  ⟨hle .clusterRole, hle .clusterRoleBinding⟩

namespace ClusterHash

namespace Computation

def result? : Computation → Option (Except HashError String)
  | done result => some result
  | _ => none

/-- The versions that a computation has read once it lists objects. -/
def versions? : Computation → Option Versions
  | listRoles v | listBindings v _ => some v
  | _ => none

/-- What a computation has read is no older than the versions at which it began. -/
def ReadSince (began : Versions) : Computation → Prop
  | readBindingsVersion roles => began.roles ≤ roles
  | listRoles v | listBindings v _ => began ≤ v
  | enter | readRolesVersion | done _ => True

/-- What a computation knows that has found an index as it is from its beginning. -/
def Fresh (ix : Index) : Computation → Prop
  | readBindingsVersion roles => roles = ix.version .clusterRole
  | listRoles v => v = ⟨ix.version .clusterRole, ix.version .clusterRoleBinding⟩
  | listBindings v roles =>
      v = ⟨ix.version .clusterRole, ix.version .clusterRoleBinding⟩ ∧ roles = ix.clusterRoles.values
  | done (.ok hash) => hash = Ref.digest (ix.clusterRoles.values ++ ix.clusterRoleBindings.values)
  | enter | readRolesVersion | done (.error _) => True

theorem Fresh.step {m : Moment} {h : ClusterHash} {c : Computation} (hc : c.Fresh m.stores.rbac)
    (hs : h.Sound m.stores.rbac) : (c.step m h).2.Fresh m.stores.rbac := by
  cases c with
  | enter =>
      rw [Computation.step]
      split <;> trivial
  | readRolesVersion => rfl
  | readBindingsVersion roles =>
      simp only [Computation.step]
      cases hlast : h.last with
      | none => exact congrArg (Versions.mk · _) hc
      | some x =>
          dsimp only
          split
          · rename_i hv
            exact hs.hash_eq hlast (hv.trans (congrArg (Versions.mk · _) hc))
          · exact congrArg (Versions.mk · _) hc
  | listRoles v =>
      simp only [Computation.step]
      split
      · rename_i refs hrefs
        exact ⟨hc, (Except.ok.inj (Moment.cluster_eq_ok hrefs)).symm⟩
      · trivial
  | listBindings v roles =>
      simp only [Computation.step]
      split
      · rename_i bindings hbindings
        obtain ⟨-, rfl⟩ := hc
        rw [← Except.ok.inj (Moment.cluster_eq_ok hbindings)]
        rfl
      · trivial
  | done result => exact hc

/-- What is known of the computation that has the lock: where it began, what it has read since, and that it
lists objects only if the kept versions are not those that it has read. -/
structure Holding (h : ClusterHash) (s : Stores) (began : Versions) (c : Computation) : Prop where
  sound : c.Sound s.rbac
  began_le : began ≤ s.versions
  last_le : ∀ x, h.last = some x → x.versions ≤ began
  read : c.ReadSince began
  moved : ∀ v, c.versions? = some v → ∀ x, h.last = some x → x.versions ≠ v

/-- How a step of the computation that has the lock can end. Only one that succeeds may change what is kept. -/
inductive Turn (s : Stores) (began : Versions) (h h' : ClusterHash) (c' : Computation) : Prop where
  | goOn (hlast : h'.last = h.last) (hbusy : h'.busy = true) (hrun : c'.running = true)
      (hold : Holding h' s began c')
  | fail (hlast : h'.last = h.last) (hbusy : h'.busy = false) (e : HashError)
      (hdone : c' = done (.error e)) (hne : e ≠ .inProgress)
  | succeed (x : Hashed) (hlast : h'.last = some x) (hbusy : h'.busy = false)
      (hdone : c' = done (.ok x.hash)) (hle : began ≤ x.versions)

theorem Holding.turn {m : Moment} {h : ClusterHash} {began : Versions} {c : Computation}
    (hold : Holding h m.stores began c) (hs : h.Sound m.stores.rbac) (hbusy : h.busy = true)
    (hrun : c.running = true) : Turn m.stores began h (c.step m h).1 (c.step m h).2 := by
  have hsound := (sound_step hs hold.sound).2
  cases c with
  | enter | done result => cases hrun
  | readRolesVersion =>
      exact .goOn rfl hbusy rfl ⟨hsound, hold.began_le, hold.last_le, hold.began_le.1, fun _ h => by cases h⟩
  | readBindingsVersion roles =>
      have hread : began ≤ ⟨roles, m.version .clusterRoleBinding⟩ := ⟨hold.read, hold.began_le.2⟩
      simp only [step] at hsound ⊢
      cases hlast : h.last with
      | none =>
          simp only [hlast] at hsound ⊢
          refine .goOn rfl hbusy rfl ⟨hsound, hold.began_le, hold.last_le, hread, ?_⟩
          intro v _ x hx
          rw [hlast] at hx
          cases hx
      | some x =>
          simp only [hlast] at hsound ⊢
          by_cases hv : x.versions = ⟨roles, m.version .clusterRoleBinding⟩
          · rw [if_pos hv]
            exact .succeed x hlast rfl rfl (hv ▸ hread)
          · rw [if_neg hv] at hsound ⊢
            refine .goOn rfl hbusy rfl ⟨hsound, hold.began_le, hold.last_le, hread, ?_⟩
            rintro v ⟨⟩ x' hx'
            rw [hlast] at hx'
            cases hx'
            exact hv
  | listRoles v =>
      simp only [step] at hsound ⊢
      cases hroles : m.cluster .clusterRole with
      | ok refs =>
          simp only [hroles] at hsound ⊢
          exact .goOn rfl hbusy rfl ⟨hsound, hold.began_le, hold.last_le, hold.read, hold.moved⟩
      | error e => exact .fail rfl rfl _ rfl fun h => by cases h
  | listBindings v roles =>
      simp only [step]
      cases hbindings : m.cluster .clusterRoleBinding with
      | ok refs => exact .succeed ⟨v, _⟩ rfl rfl rfl hold.read
      | error e => exact .fail rfl rfl _ rfl fun h => by cases h

theorem Holding.of_le {h : ClusterHash} {s s' : Stores} {began : Versions} {c : Computation}
    (hold : Holding h s began c) (hevolves : s.rbac.Evolves s'.rbac) (hle : s.versions ≤ s'.versions) :
    Holding h s' began c :=
  { hold with sound := hold.sound.evolves hevolves, began_le := Versions.le_trans hold.began_le hle }

theorem result?_eq_none {c : Computation} (hrun : c.running = true) : c.result? = none := by
  cases c with
  | done result => cases hrun
  | _ => rfl

theorem ReadSince.le_versions {began v : Versions} {c : Computation} (h : c.ReadSince began)
    (hv : c.versions? = some v) : began ≤ v := by
  cases c with
  | listRoles | listBindings =>
      cases hv
      exact h
  | _ => cases hv

theorem Sound.le_versions {s : Stores} {v : Versions} {c : Computation} (h : c.Sound s.rbac)
    (hv : c.versions? = some v) : v ≤ s.versions := by
  cases c with
  | listRoles =>
      cases hv
      exact h
  | listBindings =>
      cases hv
      exact ⟨h.1.le, h.2⟩
  | _ => cases hv

end Computation

theorem Sound.versions_le {h : ClusterHash} {s : Stores} (hs : h.Sound s.rbac) {x : Hashed}
    (hx : h.last = some x) : x.versions ≤ s.versions := by
  obtain ⟨_, _, -, hroles, hbindings⟩ := hs x hx
  exact ⟨hroles.le, hbindings.le⟩

/-- A call for the digest: one that insists on a computation of its own, or one that settles for the kept
digest while another computation is running. -/
inductive Inquiry where
  | compute (c : Computation)
  | request (r : Request)

namespace Inquiry

def computation? : Inquiry → Option Computation
  | compute c | request (.compute c) => some c
  | request _ => none

def query? : Inquiry → Option Query
  | compute c => c.query?
  | request r => r.query?

def result? : Inquiry → Option (Except HashError String)
  | compute c => c.result?
  | request (.done result) => some result
  | request _ => none

def step (m : Moment) (h : ClusterHash) : Inquiry → ClusterHash × Inquiry
  | compute c => ((c.step m h).1, compute (c.step m h).2)
  | request r => ((r.step m h).1, request (r.step m h).2)

/-- What the computation of a call returns if it succeeds in its next step. -/
def succeeds? (m : Moment) (h : ClusterHash) (q : Inquiry) : Option String :=
  match q.computation? with
  | some c =>
      if c.running then (c.step m h).2.result?.bind Except.toOption else none
  | none => none

variable {m : Moment} {h : ClusterHash} {q : Inquiry} {c : Computation}

theorem step_of_computation?_eq_none (hq : q.computation? = none) :
    (q.step m h).1 = h ∧ (q.step m h).2.computation? = none := by
  cases q with
  | compute c => cases hq
  | request r =>
      cases r with
      | compute c => cases hq
      | settle | done result => exact ⟨rfl, rfl⟩

theorem step_of_computation? (hq : q.computation? = some c) :
    (q.step m h).1 = (c.step m h).1 ∧
      (∀ c', (q.step m h).2.computation? = some c' → c' = (c.step m h).2) ∧
      ∀ result, result ≠ .error .inProgress → (c.step m h).2 = .done result →
        (q.step m h).2.result? = some result := by
  cases q with
  | compute c' =>
      cases hq
      refine ⟨rfl, fun c' hc' => (Option.some.inj hc').symm, fun result _ hdone => ?_⟩
      rw [step, hdone]
      rfl
  | request r =>
      cases r with
      | settle | done result => cases hq
      | compute c' =>
          cases hq
          simp only [step, Request.step]
          generalize c.step m h = p
          obtain ⟨h', c'⟩ := p
          cases c' with
          | done result =>
              cases result with
              | ok hash => exact ⟨rfl, nofun, fun _ _ hdone => by cases hdone; rfl⟩
              | error e =>
                  cases e with
                  | inProgress => exact ⟨rfl, nofun, fun _ hne hdone => by cases hdone; exact absurd rfl hne⟩
                  | list k e => exact ⟨rfl, nofun, fun _ _ hdone => by cases hdone; rfl⟩
          | _ => exact ⟨rfl, fun c' hc' => (Option.some.inj hc').symm, nofun⟩

/-- What a call knows whose computation has found an index as it is from its beginning. -/
def Fresh (ix : Index) (q : Inquiry) : Prop := ∀ c, q.computation? = some c → c.Fresh ix

theorem Fresh.step (hq : q.Fresh m.stores.rbac) (hs : h.Sound m.stores.rbac) :
    (q.step m h).2.Fresh m.stores.rbac := by
  cases hc : q.computation? with
  | none =>
      intro c' hc'
      rw [(step_of_computation?_eq_none hc).2] at hc'
      cases hc'
  | some c =>
      intro c' hc'
      rw [(step_of_computation? hc).2.1 c' hc']
      exact (hq c hc).step hs

theorem succeeds?_eq_some {hash : String} (hsucceeds : q.succeeds? m h = some hash) :
    ∃ c, q.computation? = some c ∧ c.running = true ∧ (c.step m h).2 = .done (.ok hash) := by
  rw [succeeds?] at hsucceeds
  split at hsucceeds
  · rename_i c hc
    split at hsucceeds
    · rename_i hrun
      refine ⟨c, hc, hrun, ?_⟩
      generalize (c.step m h).2 = c' at hsucceeds
      cases c' with
      | done result =>
          cases result with
          | ok hash' =>
              cases hsucceeds
              rfl
          | error e => cases hsucceeds
      | _ => cases hsucceeds
    · cases hsucceeds
  · cases hsucceeds

theorem Fresh.succeeds {hash : String} (hq : q.Fresh m.stores.rbac) (hs : h.Sound m.stores.rbac)
    (hsucceeds : q.succeeds? m h = some hash) : hash = Ref.digest m.stores.clusterRefs := by
  obtain ⟨c, hc, -, hdone⟩ := succeeds?_eq_some hsucceeds
  have hfresh := (hq c hc).step hs
  rw [hdone] at hfresh
  exact hfresh

end Inquiry

end ClusterHash

end Visibility
