import Visibility.Proofs.Cache.LonePass
import Visibility.Proofs.Stores.Keys
import Visibility.Proofs.System

/-!
Calls that leave a namespace with a record of the current hash.

All that a call has to know about the stores to bring the record of one namespace up to date is an aspect
of them. A call that was on the right way, with what it read so far still the current aspect, stays on it
with every step while nothing fails; so when it ends, the record is current.
-/

namespace Visibility

open ClusterHash (Computation Request)
open Rbac (Ref)

/-- What the record of one namespace depends on. -/
structure Aspect where
  live : Bool
  /-- The digest of the cluster-scoped objects. -/
  cluster : String
  hash : String
  roles : List Ref
  /-- The version of the cluster roles. -/
  version : Nat

namespace Stores

/-- What a refresh of the namespace finds in these stores. -/
def aspect (s : Stores) (ns : String) : Aspect where
  live := s.live ns
  cluster := Ref.digest s.clusterRefs
  hash := s.hash ns
  roles := s.rbac.clusterRoles.values
  version := s.rbac.version .clusterRole

theorem aspect_apply {s : Stores} {c : Change} {keys : List ChangeKey} (h : c.keys? = some keys)
    {ns : String} (hcluster : .cluster ∉ keys) (hns : .ns ns ∉ keys) :
    (s.apply c).1.aspect ns = s.aspect ns := by
  have hspares := s.spares_apply h
  have hroles : (s.apply c).1.rbac.clusterRoles = s.rbac.clusterRoles :=
    hspares.get_eq .clusterRoles hcluster
  have hbindings : (s.apply c).1.rbac.clusterRoleBindings = s.rbac.clusterRoleBindings :=
    hspares.get_eq .clusterRoleBindings hcluster
  have hversion : (s.apply c).1.rbac.version .clusterRole = s.rbac.version .clusterRole :=
    hspares.version_eq .clusterRoles rfl hcluster
  have hlocal : (s.apply c).1.rbac.listNamespaced ns = s.rbac.listNamespaced ns := by
    have hr := hspares.get_eq (.roles ns) hns
    have hb := hspares.get_eq (.roleBindings ns) hns
    simp only [Rbac.Index.get] at hr hb
    rw [Rbac.Index.listNamespaced, Rbac.Index.listNamespaced, Rbac.Local.refs, Rbac.Local.refs, hr, hb]
  have hobject := s.get?_apply h hns
  have hlive : (s.apply c).1.live ns = s.live ns := congrArg Option.isSome hobject
  rw [aspect, aspect, hash, hash, clusterRefs, clusterRefs, hlive, hroles, hbindings, hversion, hlocal]

end Stores

/-- Whether the record of a namespace is there, with the current hash, exactly if the namespace is. -/
structure Cache.Current (c : Cache) (x : Aspect) (ns : String) : Prop where
  live : x.live = true → ∃ r, c.records.get? ns = some r ∧ r.hash = x.hash
  gone : x.live = false → c.records.get? ns = none

/-- What a computation has read is still so. -/
def ClusterHash.Computation.Current (x : Aspect) : Computation → Prop
  | enter | readRolesVersion | listRoles _ => True
  | readBindingsVersion roles => roles = x.version
  | listBindings _ roles => roles = x.roles
  | done (.ok hash) => hash = x.cluster
  | done (.error _) => False

/-- What a request has read, or was told, is still so. -/
def ClusterHash.Request.Current (x : Aspect) : Request → Prop
  | compute c => c.Current x
  | done (.ok hash) => hash = x.cluster
  | settle | done (.error _) => False

/-- Whether a refresh is on the way to a current record of its namespace. -/
def Refresh.Current (x : Aspect) (c : Cache) (r : Refresh) : Prop :=
  match r.phase with
  | .exists? => True
  | .remove => x.live = false
  | .hashCluster request => x.live = true ∧ request.Current x
  | .hashNamespace cluster => x.live = true ∧ cluster = x.cluster
  | .compare hash | .ask hash | .commit hash _ => x.live = true ∧ hash = x.hash
  | .hear hash answer =>
      x.live = true ∧ hash = x.hash ∧ ∃ users groups, answer = .ok ⟨users, groups, none⟩
  | .announce _ _ | .notify _ _ _ | .done (.ok _) => c.Current x r.ns
  | .done (.error _) => False

namespace Pass

/-- Whether the hash of a namespace, among those of the live ones, is the current one. -/
def HashedRight (x : Aspect) (ns : String) (live : Table (Option String)) : Prop :=
  live.get? ns = if x.live then some (some x.hash) else none

/-- Whether the targets treat a namespace right, if they contain it. -/
def TargetsRight (x : Aspect) (ns : String) (ts : List Target) : Prop :=
  ∀ hash, (ns, some hash) ∈ ts → x.live = true ∧ hash = x.hash

/-- Whether the record of a namespace is current or will be refreshed. -/
def Planned (x : Aspect) (c : Cache) (ns : String) (ts : List Target) : Prop :=
  c.Current x ns ∨ ∃ hash, (ns, hash) ∈ ts

/-- Whether a pass is on the way to a current record of a namespace. -/
def Phase.Current (x : Aspect) (c : Cache) (ns : String) : Phase → Prop
  | enter => True
  | hashCluster computation => computation.Current x
  | listNames cluster _ => cluster = x.cluster
  | hashNamespaces cluster _ left live =>
      cluster = x.cluster ∧
        if ns ∈ left then x.live = true else HashedRight x ns live
  | compare _ _ live => ∃ t, live = some t ∧ HashedRight x ns t
  | refresh _ left r =>
      TargetsRight x ns left ∧ if r.ns = ns then r.Current x c else Planned x c ns left
  | finish _ | done (.ok _) => c.Current x ns
  | done (.error _) => False

end Pass

/-- A call that will leave the namespace with a current record if its aspect stays as it is. -/
def Call.Current (x : Aspect) (c : Cache) (ns : String) : Call → Prop
  | refresh r => if r.ns = ns then r.Current x c else c.Current x ns
  | pass p => p.Current x c ns

variable {s : Stores} {m : Moment} {ns : String}

theorem ClusterHash.Computation.current_step {h : ClusterHash} {c : Computation}
    (hm : m.Faultless s) (hs : h.Sound s.rbac) (hfree : c = .enter → h.busy = false)
    (hc : c.Current (s.aspect ns)) : (c.step m h).2.Current (s.aspect ns) := by
  cases c with
  | enter =>
      rw [step, hfree rfl]
      exact trivial
  | readRolesVersion => exact hm.version .clusterRole
  | readBindingsVersion roles =>
      simp only [step]
      split
      · rename_i x hx
        split
        · rename_i hv
          refine hs.hash_eq hx ?_
          rw [hv, hm.version]
          exact congrArg (Versions.mk · _) hc
        · exact trivial
      · exact trivial
  | listRoles versions =>
      simp only [step, hm.cluster]
      exact rfl
  | listBindings versions roles =>
      simp only [step, hm.cluster]
      exact congrArg (fun roles => Ref.digest (roles ++ _)) hc
  | done result => exact hc

theorem ClusterHash.Request.current_step {h : ClusterHash} {r : Request} (hm : m.Faultless s)
    (hs : h.Sound s.rbac) (hfree : r.computation? = some .enter → h.busy = false)
    (hr : r.Current (s.aspect ns)) : (r.step m h).2.Current (s.aspect ns) := by
  cases r with
  | compute c =>
      have hnext := Computation.current_step hm hs (fun hc => hfree (congrArg some hc)) hr
      simp only [step]
      split
      · rename_i h' hc
        rw [hc] at hnext
        exact hnext.elim
      · rename_i h' result hne hc
        rw [hc] at hnext
        cases result with
        | ok hash => exact hnext
        | error e => exact hnext.elim
      · rename_i h' c' hne hne' hc
        rw [hc] at hnext
        exact hnext
  | settle => exact hr.elim
  | done result => exact hr

theorem Cache.Current.of_get?_eq {c c' : Cache} {x : Aspect} (h : c.Current x ns)
    (heq : c'.records.get? ns = c.records.get? ns) : c'.Current x ns :=
  ⟨fun hlive => heq ▸ h.live hlive, fun hgone => heq.trans (h.gone hgone)⟩

theorem Refresh.current_step {c : Cache} {r : Refresh} (hm : m.Calm s)
    (hs : c.clusterHash.Sound s.rbac)
    (hfree : r.computation? = some .enter → c.clusterHash.busy = false)
    (hr : r.Current (s.aspect r.ns) c) :
    (r.step m c).next.Current (s.aspect r.ns) (r.step m c).cache := by
  obtain ⟨ns, phase⟩ := r
  simp only [step]
  cases phase with
  | exists? =>
      simp only [Phase.step, hm.object]
      cases ho : s.namespaces.get? ns with
      | none =>
          have hgone : s.live ns = false := congrArg Option.isSome ho
          exact hgone
      | some o =>
          have hlive : s.live ns = true := congrArg Option.isSome ho
          exact ⟨hlive, trivial⟩
  | remove =>
      have hcurrent : (c.remove ns).1.Current (s.aspect ns) ns := by
        refine ⟨fun hlive => ?_, fun _ => (c.get?_remove ns ns).trans (if_pos rfl)⟩
        rw [hr] at hlive
        cases hlive
      simp only [Phase.step]
      split
      · rename_i c' hc
        rw [hc] at hcurrent
        exact hcurrent
      · rename_i c' record hc
        rw [hc] at hcurrent
        split
        · exact hcurrent
        · exact hcurrent
  | hashCluster request =>
      have hnext := request.current_step hm.toFaultless hs hfree hr.2
      simp only [Phase.step]
      split
      · rename_i h' hash hh
        rw [hh] at hnext
        exact ⟨hr.1, hnext⟩
      · rename_i h' e hh
        rw [hh] at hnext
        exact hnext
      · rename_i h' request' hne hne' hh
        rw [hh] at hnext
        exact ⟨hr.1, hnext⟩
  | hashNamespace cluster =>
      simp only [Phase.step, hm.inNamespace]
      exact ⟨hr.1, congrArg (Digest.combine · _) hr.2⟩
  | compare hash =>
      simp only [Phase.step]
      split
      · rename_i hrecord
        obtain ⟨record, hget, hhash⟩ := Option.map_eq_some_iff.1 hrecord
        refine ⟨fun _ => ⟨record, hget, hhash.trans hr.2⟩, fun hgone => ?_⟩
        rw [hr.1] at hgone
        cases hgone
      · exact hr
  | ask hash =>
      obtain ⟨users, groups, hreview⟩ := hm.reviewer ns hr.1
      exact ⟨hr.1, hr.2, users, groups, hreview⟩
  | hear hash answer =>
      obtain ⟨hlive, hhash, users, groups, rfl⟩ := hr
      exact ⟨hlive, hhash⟩
  | commit hash review =>
      let record : Record := ⟨NameSet.ofList review.users, NameSet.ofList review.groups, hash⟩
      have hcurrent : (c.commit ns record).1.Current (s.aspect ns) ns := by
        refine ⟨fun _ => ⟨record, ?_, hr.2⟩, fun hgone => ?_⟩
        · exact (c.get?_commit ns ns record).trans (if_pos rfl)
        · rw [hr.1] at hgone
          cases hgone
      simp only [Phase.step]
      split
      · rename_i c' users groups hc
        rw [hc] at hcurrent
        exact hcurrent
      · rename_i c' hc
        rw [hc] at hcurrent
        exact hcurrent
  | announce users groups => exact hr
  | notify watchers users groups =>
      cases watchers with
      | nil => exact hr
      | cons w rest => exact hr
  | done result => exact hr

theorem Refresh.get?_step_of_ne {c : Cache} {r : Refresh} (h : ns ≠ r.ns) :
    (r.step m c).cache.records.get? ns = c.records.get? ns := by
  obtain ⟨k, phase⟩ := r
  simp only [step]
  cases phase with
  | exists? =>
      simp only [Phase.step]
      split <;> rfl
  | remove =>
      have hget := (c.get?_remove k ns).trans (if_neg h)
      simp only [Phase.step]
      split
      · rename_i c' hc
        rwa [hc] at hget
      · rename_i c' record hc
        rw [hc] at hget
        split <;> exact hget
  | hashCluster request =>
      simp only [Phase.step]
      split <;> rfl
  | hashNamespace cluster =>
      simp only [Phase.step]
      split <;> rfl
  | compare hash =>
      simp only [Phase.step]
      split <;> rfl
  | hear hash answer =>
      cases answer with
      | error reason => rfl
      | ok review =>
          simp only [Phase.step]
          split <;> rfl
  | commit hash review =>
      have hget (record : Record) := (c.get?_commit k ns record).trans (if_neg h)
      simp only [Phase.step]
      split
      · rename_i c' users groups hc
        have hrecord := hget ⟨NameSet.ofList review.users, NameSet.ofList review.groups, hash⟩
        rwa [hc] at hrecord
      · rename_i c' hc
        have hrecord := hget ⟨NameSet.ofList review.users, NameSet.ofList review.groups, hash⟩
        rwa [hc] at hrecord
  | notify watchers users groups =>
      cases watchers with
      | nil => rfl
      | cons w rest => rfl
  | ask hash | announce users groups | done result => rfl

theorem Refresh.Current.of_get?_eq {x : Aspect} {c c' : Cache} {r : Refresh} (h : r.Current x c)
    (heq : c'.records.get? r.ns = c.records.get? r.ns) : r.Current x c' := by
  obtain ⟨k, phase⟩ := r
  cases phase with
  | announce users groups => exact Cache.Current.of_get?_eq h heq
  | notify watchers users groups => exact Cache.Current.of_get?_eq h heq
  | done result =>
      cases result with
      | ok value => exact Cache.Current.of_get?_eq h heq
      | error e => exact h.elim
  | _ => exact h

theorem Refresh.current_start {x : Aspect} {c : Cache} {ts : List Pass.Target} {hash : Option String}
    (hts : Pass.TargetsRight x ns ts) (hmem : (ns, hash) ∈ ts) :
    (Refresh.start ns hash).Current x c := by
  cases hash with
  | none => exact trivial
  | some hash => exact hts hash hmem

theorem Refresh.current_of_result {x : Aspect} {c : Cache} {r : Refresh} (h : r.Current x c)
    (hresult : r.result?.isSome = true) : c.Current x r.ns := by
  obtain ⟨k, phase⟩ := r
  cases phase with
  | done result =>
      cases result with
      | ok value => exact h
      | error e => exact h.elim
  | _ => cases hresult

/-! Whoever makes refreshes asks for something else, `P`, while the refresh is that of another namespace. -/

section

variable {x : Aspect} {c c' : Cache} {r : Refresh} {P P' : Prop}

theorem Refresh.ite_current_step (hm : m.Calm s) (hs : c.clusterHash.Sound s.rbac)
    (hfree : r.computation? = some .enter → c.clusterHash.busy = false)
    (h : if r.ns = ns then r.Current (s.aspect ns) c else P)
    (hP : (r.step m c).cache.records.get? ns = c.records.get? ns → P → P') :
    if r.ns = ns then (r.step m c).next.Current (s.aspect ns) (r.step m c).cache else P' := by
  by_cases hns : r.ns = ns
  · subst hns
    rw [if_pos rfl] at h ⊢
    exact current_step hm hs hfree h
  · rw [if_neg hns] at h ⊢
    exact hP (get?_step_of_ne (Ne.symm hns)) h

theorem Refresh.ite_current_of_get?_eq (h : if r.ns = ns then r.Current x c else P)
    (heq : c'.records.get? ns = c.records.get? ns) (hP : P → P') :
    if r.ns = ns then r.Current x c' else P' := by
  by_cases hns : r.ns = ns
  · subst hns
    rw [if_pos rfl] at h ⊢
    exact h.of_get?_eq heq
  · rw [if_neg hns] at h ⊢
    exact hP h

theorem Refresh.current_or_of_result (h : if r.ns = ns then r.Current x c else P)
    (hresult : r.result?.isSome = true) : c.Current x ns ∨ P := by
  by_cases hns : r.ns = ns
  · subst hns
    rw [if_pos rfl] at h
    exact .inl (current_of_result h hresult)
  · rw [if_neg hns] at h
    exact .inr h

end

namespace Pass

theorem current_visit {x : Aspect} {c : Cache} {plan : Plan} {ts : List Target}
    (hts : TargetsRight x ns ts) (hplanned : Planned x c ns ts) :
    (visit plan ts).Current x c ns := by
  cases ts with
  | nil =>
      rcases hplanned with hcurrent | ⟨hash, hmem⟩
      · exact hcurrent
      · cases hmem
  | cons t left =>
      obtain ⟨k, hash⟩ := t
      refine ⟨fun h hmem => hts h (List.mem_cons_of_mem _ hmem), ?_⟩
      by_cases hk : k = ns
      · subst hk
        have hstart := Refresh.current_start (c := c) hts List.mem_cons_self
        exact (if_pos rfl).mpr hstart
      · refine (if_neg hk).mpr ?_
        refine hplanned.imp_right ?_
        rintro ⟨hash', hmem⟩
        rcases List.mem_cons.1 hmem with heq | hmem
        · exact absurd (Prod.ext_iff.1 heq).1.symm hk
        · exact ⟨hash', hmem⟩

theorem current_hashNext {x : Aspect} {c : Cache} {cluster : String} {full : Bool}
    {left : List String} {live : Table (Option String)} (hcluster : cluster = x.cluster)
    (h : if ns ∈ left then x.live = true else HashedRight x ns live) :
    (hashNext cluster full left live).Current x c ns := by
  cases left with
  | nil => exact ⟨live, rfl, h⟩
  | cons k left => exact ⟨hcluster, h⟩

/-- The targets of a plan treat a namespace right, and leave out only what is current. -/
theorem planned_targets {x : Aspect} {c : Cache} {live : Table (Option String)}
    (h : HashedRight x ns live) (m : Moment) :
    TargetsRight x ns (targets m c.records live) ∧ Planned x c ns (targets m c.records live) := by
  have hmem : ∀ hash, (ns, hash) ∈ targets m c.records live →
      (live.get? ns).join = hash := by
    intro hash hmem
    obtain ⟨k, -, hk⟩ := List.mem_map.1 hmem
    obtain ⟨rfl, rfl⟩ := Prod.mk.inj hk
    rfl
  have htarget : ns ∈ stale c.records live ∨ ns ∈ gone c.records live →
      ∃ hash, (ns, hash) ∈ targets m c.records live := by
    intro hns
    refine ⟨_, List.mem_map_of_mem (List.mem_append.2 ?_)⟩
    exact hns.imp (m.order_perm _).mem_iff.2 (m.order_perm _).mem_iff.2
  by_cases hlive : x.live = true
  · rw [HashedRight, if_pos hlive] at h
    refine ⟨fun hash ht => ⟨hlive, ?_⟩, ?_⟩
    · have hjoin := hmem _ ht
      rw [h] at hjoin
      exact (Option.some.inj hjoin).symm
    · by_cases hrecord : (c.records.get? ns).map (·.hash) = some x.hash
      · obtain ⟨record, hget, hhash⟩ := Option.map_eq_some_iff.1 hrecord
        refine .inl ⟨fun _ => ⟨record, hget, hhash⟩, fun hgone => ?_⟩
        rw [hlive] at hgone
        cases hgone
      · refine .inr (htarget (.inl ?_))
        refine List.mem_map.2 ⟨(ns, some x.hash), List.mem_filter.2 ⟨Table.mem_entries_iff.2 h, ?_⟩, rfl⟩
        simp [hrecord]
  · rw [HashedRight, if_neg hlive] at h
    refine ⟨fun hash ht => ?_, ?_⟩
    · have hjoin := hmem _ ht
      rw [h] at hjoin
      cases hjoin
    · cases hget : c.records.get? ns with
      | none => exact .inl ⟨fun hlive' => absurd hlive' hlive, fun _ => hget⟩
      | some record =>
          refine .inr (htarget (.inr (List.mem_filter.2 ⟨?_, ?_⟩)))
          · exact Table.mem_keys_iff.2 (Table.contains_eq_true_iff.2 ⟨record, hget⟩)
          · rw [Table.contains, h]
            rfl

theorem current_step {c : Cache} {p : Phase} (hm : m.Calm s) (hs : c.clusterHash.Sound s.rbac)
    (hbusy : p.computation? = some .enter → c.clusterHash.busy = false)
    (hsyncing : p = .enter → c.syncing = false) (hp : p.Current (s.aspect ns) c ns) :
    (p.step m c).next.Current (s.aspect ns) (p.step m c).cache ns := by
  cases p with
  | enter =>
      rw [Phase.step, hsyncing rfl]
      exact trivial
  | hashCluster computation =>
      have hnext := Computation.current_step hm.toFaultless hs (fun hc => hbusy (congrArg some hc)) hp
      simp only [Phase.step]
      split
      · rename_i h' hash hc
        rw [hc] at hnext
        exact hnext
      · rename_i h' e hc
        rw [hc] at hnext
        exact hnext
      · rename_i h' computation' hne hne' hc
        rw [hc] at hnext
        exact hnext
  | listNames cluster full =>
      simp only [Phase.step, hm.names]
      refine current_hashNext hp ?_
      have hmem : ns ∈ m.order s.namespaces.names ↔ s.live ns = true :=
        (m.order_perm _).mem_iff.trans Table.mem_keys_iff
      split
      · rename_i hns
        exact hmem.1 hns
      · rename_i hns
        have hgone : ¬(s.aspect ns).live = true := fun hlive => hns (hmem.2 hlive)
        rw [HashedRight, if_neg hgone]
        rfl
  | hashNamespaces cluster full left live =>
      obtain ⟨hcluster, hns⟩ := hp
      cases left with
      | nil => exact ⟨live, rfl, hns⟩
      | cons k left =>
          simp only [Phase.step, hm.inNamespace]
          refine current_hashNext hcluster ?_
          by_cases hleft : ns ∈ left
          · rw [if_pos (List.mem_cons_of_mem k hleft)] at hns
            rw [if_pos hleft]
            exact hns
          · rw [if_neg hleft, HashedRight, Table.get?_insert]
            by_cases hk : ns = k
            · subst hk
              rw [if_pos List.mem_cons_self] at hns
              rw [if_pos rfl, if_pos hns, hcluster]
              rfl
            · rw [if_neg (fun hmem => hleft ((List.mem_cons.1 hmem).resolve_left hk))] at hns
              rw [if_neg hk]
              exact hns
  | compare cluster full live =>
      obtain ⟨t, rfl, ht⟩ := hp
      obtain ⟨hright, hplanned⟩ := planned_targets (c := c) ht m
      exact current_visit hright hplanned
  | refresh plan left r =>
      obtain ⟨hright, hr⟩ := hp
      have hnext : if r.ns = ns then (r.step m c).next.Current (s.aspect ns) (r.step m c).cache
          else Planned (s.aspect ns) (r.step m c).cache ns left :=
        Refresh.ite_current_step hm hs hbusy hr fun heq => .imp_left (·.of_get?_eq heq)
      simp only [Phase.step]
      split
      · rename_i result hresult
        have hended : (r.step m c).next.result?.isSome = true := by
          rw [hresult]
          rfl
        refine current_visit hright ?_
        -- a refresh of another namespace leaves the plan as it is
        rcases Refresh.current_or_of_result (r := (r.step m c).next) hnext hended with
          hcurrent | hplanned
        · exact .inl hcurrent
        · exact hplanned
      · exact ⟨hright, hnext⟩
  | finish plan => exact hp.of_get?_eq rfl
  | done result => exact hp

end Pass

namespace Call

theorem Current.of_get?_eq {x : Aspect} {c c' : Cache} {call : Call} (h : call.Current x c ns)
    (heq : c'.records.get? ns = c.records.get? ns) : call.Current x c' ns := by
  cases call with
  | refresh r => exact Refresh.ite_current_of_get?_eq h heq (·.of_get?_eq heq)
  | pass p =>
      cases p with
      | refresh plan left r =>
          obtain ⟨hright, hr⟩ := h
          exact ⟨hright, Refresh.ite_current_of_get?_eq hr heq (.imp_left (·.of_get?_eq heq))⟩
      | finish plan => exact Cache.Current.of_get?_eq h heq
      | done result =>
          cases result with
          | ok outcome => exact Cache.Current.of_get?_eq h heq
          | error e => exact h.elim
      | _ => exact h

theorem current_step {c : Cache} {call : Call} (hm : m.Calm s) (hs : c.clusterHash.Sound s.rbac)
    (hbusy : call.computation? = some .enter → c.clusterHash.busy = false)
    (hsyncing : call = .pass .enter → c.syncing = false)
    (hcall : call.Current (s.aspect ns) c ns) :
    (call.step m c).next.Current (s.aspect ns) (call.step m c).cache ns := by
  cases call with
  | refresh r => exact Refresh.ite_current_step hm hs hbusy hcall fun heq => (·.of_get?_eq heq)
  | pass p => exact Pass.current_step hm hs hbusy (fun hp => hsyncing (congrArg pass hp)) hcall

theorem current_of_ended {x : Aspect} {c : Cache} {call : Call} (h : call.Current x c ns)
    (hended : call.ended = true) : c.Current x ns := by
  cases call with
  | refresh r =>
      rcases Refresh.current_or_of_result h hended with hcurrent | hcurrent
      · exact hcurrent
      · exact hcurrent
  | pass p =>
      cases p with
      | done result =>
          cases result with
          | ok outcome => exact h
          | error e => exact h.elim
      | _ => cases hended

end Call

end Visibility
