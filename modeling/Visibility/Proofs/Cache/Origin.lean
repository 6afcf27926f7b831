import Visibility.Proofs.Cache.Locks

/-!
Where the hashes in a system come from: every hash that the cache computes is that of objects as they
were at times of the run, and none of these times is later than the review that the hash is stored
with.
-/

namespace Visibility

open ClusterHash (Computation Request)
open Rbac (Ref)

namespace System

/-- The roles of the cluster at a time of the run. -/
def roles (s : System) (t : Nat) : List Ref := (s.history t).rbac.clusterRoles.values

def bindings (s : System) (t : Nat) : List Ref := (s.history t).rbac.clusterRoleBindings.values

def refs (s : System) (t : Nat) (ns : String) : List Ref := (s.history t).rbac.listNamespaced ns

/-- A digest that the run computed of roles and bindings listed no later than a time. The two kinds
may be listed at different times. -/
def ClusterBy (s : System) (t : Nat) (digest : String) : Prop :=
  ∃ i ≤ t, ∃ j ≤ t, s.roles i ++ s.bindings j ∈ s.digested ∧
    digest = Ref.digest (s.roles i ++ s.bindings j)

/-- A hash of a namespace that the run computed of objects listed no later than a time. -/
def HashBy (s : System) (t : Nat) (ns hash : String) : Prop :=
  ∃ cluster, s.ClusterBy t cluster ∧ ∃ k ≤ t, s.refs k ns ∈ s.digested ∧
    (cluster, Ref.digest (s.refs k ns)) ∈ s.combined ∧
    hash = Digest.combine cluster (Ref.digest (s.refs k ns))

/-- A later state of the run: what was so up to the earlier one has not changed. -/
structure Extends (s s' : System) : Prop where
  now_le : s.now ≤ s'.now
  history_eq : ∀ t ≤ s.now, s'.history t = s.history t
  digested : s.digested ⊆ s'.digested
  combined : s.combined ⊆ s'.combined

namespace Extends

variable {s s' : System} {t t' : Nat}

theorem clusterBy (h : s.Extends s') (ht : t ≤ s.now) (htt' : t ≤ t') {digest : String}
    (hd : s.ClusterBy t digest) : s'.ClusterBy t' digest := by
  obtain ⟨i, hi, j, hj, hmem, hdigest⟩ := hd
  have hroles : s'.roles i = s.roles i := by
    rw [roles, h.history_eq i (by omega), roles]
  have hbindings : s'.bindings j = s.bindings j := by
    rw [bindings, h.history_eq j (by omega), bindings]
  refine ⟨i, by omega, j, by omega, ?_, ?_⟩
  · rw [hroles, hbindings]
    exact h.digested hmem
  · rw [hroles, hbindings, hdigest]

theorem hashBy (h : s.Extends s') (ht : t ≤ s.now) (htt' : t ≤ t') {ns hash : String}
    (hh : s.HashBy t ns hash) : s'.HashBy t' ns hash := by
  obtain ⟨cluster, hcluster, k, hk, hmem, hpair, hhash⟩ := hh
  have hrefs : s'.refs k ns = s.refs k ns := by
    rw [refs, h.history_eq k (by omega), refs]
  refine ⟨cluster, h.clusterBy ht htt' hcluster, k, by omega, ?_, ?_, ?_⟩
  · rw [hrefs]
    exact h.digested hmem
  · rw [hrefs]
    exact h.combined hpair
  · rw [hrefs, hhash]

theorem now_clusterBy (h : s.Extends s') {digest : String} (hd : s.ClusterBy s.now digest) :
    s'.ClusterBy s'.now digest := h.clusterBy (Nat.le_refl _) h.now_le hd

theorem now_hashBy (h : s.Extends s') {ns hash : String} (hh : s.HashBy s.now ns hash) :
    s'.HashBy s'.now ns hash := h.hashBy (Nat.le_refl _) h.now_le hh

end Extends

theorem extends_tick (s : System) (stores : Stores) : s.Extends (s.tick stores) where
  now_le := Nat.le_succ _
  history_eq _ ht := history_tick s stores ht
  digested := List.Subset.refl _
  combined := List.Subset.refl _

theorem extends_advance (s : System) (i : Nat) (a : Attempt) (m : Moment) :
    s.Extends (s.advance i a m) where
  now_le := Nat.le_succ _
  history_eq _ ht := history_tick s s.stores ht
  digested := List.subset_append_left _ _
  combined := List.subset_append_left _ _

end System

/-- The digest that is kept was computed in the run. -/
def ClusterHash.Carries (h : ClusterHash) (s : System) : Prop :=
  ∀ x, h.last = some x → s.ClusterBy s.now x.hash

/-- What a computation has listed, it listed in the run. -/
def ClusterHash.Computation.Carries (s : System) : Computation → Prop
  | listBindings _ roles => ∃ i ≤ s.now, roles = s.roles i
  | done (.ok digest) => s.ClusterBy s.now digest
  | _ => True

def ClusterHash.Request.Carries (s : System) : Request → Prop
  | compute c => c.Carries s
  | done (.ok digest) => s.ClusterBy s.now digest
  | _ => True

/-- What a refresh knows, it knows from the run; a hash that waits for a review, or that a review
answers to, is no newer than the time at which the reviewer was asked. What a reviewer may answer is
given by `admits`. -/
def Refresh.Carries (admits : Stores → String → Review → Prop) (s : System) (asked : Nat)
    (r : Refresh) : Prop :=
  match r.phase with
  | .hashCluster request => request.Carries s
  | .hashNamespace cluster => s.ClusterBy s.now cluster
  | .compare hash | .ask hash => s.HashBy s.now r.ns hash
  | .hear hash answer => s.HashBy asked r.ns hash ∧
      ∀ review, answer = .ok review → admits (s.history asked) r.ns review
  | .commit hash review => s.HashBy asked r.ns hash ∧ admits (s.history asked) r.ns review ∧
      review.evaluationError = none
  | _ => True

namespace Pass

/-- The hashes of the live namespaces were computed in the run. -/
def LiveBy (s : System) (live : Table (Option String)) : Prop :=
  ∀ ns hash, live.get? ns = some (some hash) → s.HashBy s.now ns hash

/-- The hashes of the targets were computed in the run. -/
def TargetsBy (s : System) (ts : List Target) : Prop :=
  ∀ ns hash, (ns, some hash) ∈ ts → s.HashBy s.now ns hash

def Phase.Carries (admits : Stores → String → Review → Prop) (s : System) (asked : Nat) :
    Phase → Prop
  | hashCluster c => c.Carries s
  | listNames cluster _ => s.ClusterBy s.now cluster
  | hashNamespaces cluster _ _ live => s.ClusterBy s.now cluster ∧ LiveBy s live
  | compare _ _ live => ∀ table, live = some table → LiveBy s table
  | refresh _ left r => TargetsBy s left ∧ r.Carries admits s asked
  | _ => True

end Pass

/-- What a call knows, it knows from the run. -/
def Call.Carries (admits : Stores → String → Review → Prop) (s : System) (asked : Nat) :
    Call → Prop
  | refresh r => r.Carries admits s asked
  | pass p => p.Carries admits s asked

/-- What a step at a moment hashes is noted in the later state, and the stores of the moment are those
of the earlier one. -/
structure System.Notes (s s' : System) (m : Moment) (digests : List (List Ref))
    (combines : List (String × String)) : Prop where
  ext : s.Extends s'
  stores_eq : m.stores = s.stores
  digests : digests ⊆ s'.digested
  combines : combines ⊆ s'.combined

section Steps

variable {admits : Stores → String → Review → Prop} {s s' : System} {m : Moment}
  {combines : List (String × String)} {asked : Nat}

theorem System.Notes.roles_eq {digests : List (List Ref)} (h : s.Notes s' m digests combines)
    {refs : List Ref} (hrefs : m.cluster .clusterRole = .ok refs) : refs = s'.roles s.now := by
  have hlist := Moment.cluster_eq_ok hrefs
  rw [h.stores_eq] at hlist
  cases hlist
  rw [System.roles, h.ext.history_eq s.now (Nat.le_refl _), System.stores]

theorem System.Notes.bindings_eq {digests : List (List Ref)} (h : s.Notes s' m digests combines)
    {refs : List Ref} (hrefs : m.cluster .clusterRoleBinding = .ok refs) :
    refs = s'.bindings s.now := by
  have hlist := Moment.cluster_eq_ok hrefs
  rw [h.stores_eq] at hlist
  cases hlist
  rw [System.bindings, h.ext.history_eq s.now (Nat.le_refl _), System.stores]

theorem System.Notes.refs_eq {digests : List (List Ref)} (h : s.Notes s' m digests combines)
    {ns : String} {refs : List Ref} (hrefs : m.inNamespace ns = .ok refs) :
    refs = s'.refs s.now ns := by
  rw [Moment.inNamespace, Moment.ask] at hrefs
  split at hrefs
  · cases hrefs
  · cases hrefs
    rw [System.refs, h.ext.history_eq s.now (Nat.le_refl _), h.stores_eq, System.stores]

theorem ClusterHash.Carries.extends {h : ClusterHash} (hh : h.Carries s) (hext : s.Extends s') :
    h.Carries s' := fun x hx => hext.now_clusterBy (hh x hx)

theorem ClusterHash.Computation.Carries.extends {c : Computation} (hc : c.Carries s)
    (hext : s.Extends s') : c.Carries s' := by
  cases c with
  | listBindings versions roles =>
      obtain ⟨i, hi, rfl⟩ := hc
      refine ⟨i, Nat.le_trans hi hext.now_le, ?_⟩
      rw [System.roles, System.roles, hext.history_eq i hi]
  | done result =>
      cases result with
      | ok digest => exact hext.now_clusterBy hc
      | error e => trivial
  | enter | readRolesVersion | readBindingsVersion roles | listRoles versions => trivial

theorem ClusterHash.Request.Carries.extends {r : Request} (hr : r.Carries s)
    (hext : s.Extends s') : r.Carries s' := by
  cases r with
  | compute c => exact Computation.Carries.extends hr hext
  | settle => trivial
  | done result =>
      cases result with
      | ok digest => exact hext.now_clusterBy hr
      | error e => trivial

theorem Refresh.Carries.extends {r : Refresh} (hr : r.Carries admits s asked)
    (hext : s.Extends s') (hasked : asked ≤ s.now) : r.Carries admits s' asked := by
  obtain ⟨ns, phase⟩ := r
  have hhist : s'.history asked = s.history asked := hext.history_eq asked hasked
  cases phase with
  | hashCluster request => exact ClusterHash.Request.Carries.extends hr hext
  | hashNamespace cluster => exact hext.now_clusterBy hr
  | compare hash => exact hext.now_hashBy hr
  | ask hash => exact hext.now_hashBy hr
  | hear hash answer =>
      exact ⟨hext.hashBy hasked (Nat.le_refl _) hr.1, fun review h => hhist ▸ hr.2 review h⟩
  | commit hash review =>
      exact ⟨hext.hashBy hasked (Nat.le_refl _) hr.1, hhist ▸ hr.2.1, hr.2.2⟩
  | exists? | remove | announce users groups | notify watchers users groups | done result => trivial

theorem Pass.LiveBy.extends {live : Table (Option String)} (h : LiveBy s live)
    (hext : s.Extends s') : LiveBy s' live := fun ns hash hh => hext.now_hashBy (h ns hash hh)

theorem Pass.TargetsBy.extends {ts : List Target} (h : TargetsBy s ts)
    (hext : s.Extends s') : TargetsBy s' ts := fun ns hash hh => hext.now_hashBy (h ns hash hh)

theorem Call.Carries.extends {call : Call} (hcall : call.Carries admits s asked)
    (hext : s.Extends s') (hasked : asked ≤ s.now) : call.Carries admits s' asked := by
  cases call with
  | refresh r => exact Refresh.Carries.extends hcall hext hasked
  | pass p =>
      cases p with
      | hashCluster c => exact ClusterHash.Computation.Carries.extends hcall hext
      | listNames cluster full => exact hext.now_clusterBy hcall
      | hashNamespaces cluster full left live =>
          exact ⟨hext.now_clusterBy hcall.1, hcall.2.extends hext⟩
      | compare cluster full live => exact fun table h => (hcall table h).extends hext
      | refresh plan left r => exact ⟨hcall.1.extends hext, hcall.2.extends hext hasked⟩
      | enter | finish plan | done result => trivial

theorem ClusterHash.Computation.carries_step {h : ClusterHash} {c : Computation}
    (hn : s.Notes s' m (c.digests m) combines) (hh : h.Carries s) (hc : c.Carries s) :
    (c.step m h).1.Carries s' ∧ (c.step m h).2.Carries s' := by
  have hh' : h.Carries s' := hh.extends hn.ext
  cases c with
  | enter =>
      rw [step]
      split
      · exact ⟨hh', trivial⟩
      · exact ⟨hh', trivial⟩
  | readRolesVersion => exact ⟨hh', trivial⟩
  | readBindingsVersion roles =>
      simp only [step]
      split
      · rename_i x hx
        split
        · exact ⟨hh', hh' x hx⟩
        · exact ⟨hh', trivial⟩
      · exact ⟨hh', trivial⟩
  | listRoles versions =>
      simp only [step]
      split
      · rename_i refs hrefs
        exact ⟨hh', s.now, hn.ext.now_le, hn.roles_eq hrefs⟩
      · exact ⟨hh', trivial⟩
  | listBindings versions roles =>
      obtain ⟨i, hi, rfl⟩ := hc
      have hroles : s'.roles i = s.roles i := by
        rw [System.roles, hn.ext.history_eq i hi, System.roles]
      simp only [step]
      split
      · rename_i refs hrefs
        have hmem : s.roles i ++ refs ∈ s'.digested := hn.digests (by simp [digests, hrefs, Except.toOption])
        have hby : s'.ClusterBy s'.now (Ref.digest (s.roles i ++ refs)) := by
          rw [hn.bindings_eq hrefs] at hmem ⊢
          exact ⟨i, Nat.le_trans hi hn.ext.now_le, s.now, hn.ext.now_le, by rwa [hroles], by rw [hroles]⟩
        refine ⟨fun x hx => ?_, hby⟩
        cases hx
        exact hby
      · exact ⟨hh', trivial⟩
  | done result => exact ⟨hh', hc.extends hn.ext⟩

theorem ClusterHash.Request.carries_step {h : ClusterHash} {r : Request}
    (hn : s.Notes s' m (r.digests m) combines) (hh : h.Carries s) (hr : r.Carries s) :
    (r.step m h).1.Carries s' ∧ (r.step m h).2.Carries s' := by
  cases r with
  | compute c =>
      have hstep := Computation.carries_step hn hh hr
      simp only [step]
      split
      · rename_i h' hc
        rw [hc] at hstep
        exact hstep
      · rename_i h' result hne hc
        rw [hc] at hstep
        cases result with
        | ok digest => exact hstep
        | error e => exact ⟨hstep.1, trivial⟩
      · rename_i h' c' hne hne' hc
        rw [hc] at hstep
        exact hstep
  | settle =>
      refine ⟨hh.extends hn.ext, ?_⟩
      rw [step, lastHash]
      cases hlast : h.last with
      | none => exact trivial
      | some x => exact hn.ext.now_clusterBy (hh x hlast)
  | done result => exact ⟨hh.extends hn.ext, hr.extends hn.ext⟩

theorem System.Notes.hashBy {digests : List (List Ref)} (hn : s.Notes s' m digests combines)
    {cluster ns : String} {refs : List Ref} (hcluster : s.ClusterBy s.now cluster)
    (hrefs : m.inNamespace ns = .ok refs) (hd : refs ∈ digests)
    (hc : (cluster, Ref.digest refs) ∈ combines) :
    s'.HashBy s'.now ns (Digest.combine cluster (Ref.digest refs)) := by
  have hmem := hn.digests hd
  have hpair := hn.combines hc
  rw [hn.refs_eq hrefs] at hmem hpair ⊢
  exact ⟨cluster, hn.ext.now_clusterBy hcluster, s.now, hn.ext.now_le, hmem, hpair, rfl⟩

/-- A hash that waits for a review becomes one that is no newer than the review when the reviewer is
asked; all else that a refresh knows stays known. -/
theorem Refresh.carries_step {c : Cache} {r : Refresh}
    (hn : s.Notes s' m (r.digests m) (r.combines m)) (hasked : asked ≤ s.now)
    (hh : c.clusterHash.Carries s)
    (hadmits : ∀ ns review, m.reviewer ns = .ok review → admits s.stores ns review)
    (hr : r.Carries admits s asked) :
    (r.step m c).next.Carries admits s' (Effect.askedAt s.now asked (r.step m c).effect) := by
  obtain ⟨ns, phase⟩ := r
  have hhist : s'.history asked = s.history asked := hn.ext.history_eq asked hasked
  cases phase with
  | exists? =>
      simp only [Refresh.step, Phase.step]
      split <;> exact trivial
  | remove =>
      simp only [Refresh.step, Phase.step]
      split
      · exact trivial
      · split <;> exact trivial
  | hashCluster request =>
      have hstep := (ClusterHash.Request.carries_step hn hh hr).2
      simp only [Refresh.step, Phase.step]
      split
      · rename_i h' hash hrequest
        rwa [hrequest] at hstep
      · exact trivial
      · rename_i h' r' hne hne' hrequest
        rwa [hrequest] at hstep
  | hashNamespace cluster =>
      simp only [Refresh.step, Phase.step]
      split
      · rename_i refs hrefs
        exact hn.hashBy hr hrefs (by simp [digests, hrefs, Except.toOption])
          (by simp [combines, hrefs, Except.toOption])
      · exact trivial
  | compare hash =>
      simp only [Refresh.step, Phase.step]
      split
      · exact trivial
      · exact hn.ext.now_hashBy hr
  -- From here on the bound of the hash is the time of the request and no longer the present.
  | ask hash =>
      refine ⟨hn.ext.hashBy (Nat.le_refl _) (Nat.le_refl _) hr, fun review hreview => ?_⟩
      rw [Refresh.step, Phase.step, Effect.askedAt, hn.ext.history_eq _ (Nat.le_refl _)]
      exact hadmits ns review hreview
  | hear hash answer =>
      obtain ⟨hhash, hanswer⟩ := hr
      cases answer with
      | error reason => exact trivial
      | ok review =>
          simp only [Refresh.step, Phase.step]
          split
          · exact trivial
          · rename_i hnone
            exact ⟨hn.ext.hashBy hasked (Nat.le_refl _) hhash, hhist ▸ hanswer review rfl, hnone⟩
  | commit hash review =>
      simp only [Refresh.step, Phase.step]
      split <;> exact trivial
  | announce users groups => exact trivial
  | notify watchers users groups => cases watchers <;> exact trivial
  | done result => exact trivial

theorem Pass.carries_visit {plan : Plan} {ts : List Target} (hts : TargetsBy s ts) :
    (visit plan ts).Carries admits s asked := by
  cases ts with
  | nil => exact trivial
  | cons t left =>
      obtain ⟨ns, hash⟩ := t
      refine ⟨fun k h hk => hts k h (List.mem_cons_of_mem _ hk), ?_⟩
      cases hash with
      | none => exact trivial
      | some hash => exact hts ns hash List.mem_cons_self

theorem Pass.carries_hashNext {cluster : String} {full : Bool} {left : List String}
    {live : Table (Option String)} (hcluster : s.ClusterBy s.now cluster) (hlive : LiveBy s live) :
    (hashNext cluster full left live).Carries admits s asked := by
  rw [hashNext]
  split
  · rintro table ⟨⟩
    exact hlive
  · exact ⟨hcluster, hlive⟩

theorem Pass.carries_step {c : Cache} {p : Phase}
    (hn : s.Notes s' m (p.digests m) (p.combines m)) (hasked : asked ≤ s.now)
    (hh : c.clusterHash.Carries s)
    (hadmits : ∀ ns review, m.reviewer ns = .ok review → admits s.stores ns review)
    (hp : p.Carries admits s asked) :
    (p.step m c).next.Carries admits s' (Effect.askedAt s.now asked (p.step m c).effect) := by
  cases p with
  | enter =>
      simp only [Phase.step]
      split <;> exact trivial
  | hashCluster computation =>
      have hstep := (ClusterHash.Computation.carries_step hn hh hp).2
      simp only [Phase.step]
      split
      · rename_i h' hash hc
        rwa [hc] at hstep
      · exact trivial
      · rename_i h' c' hne hne' hc
        rwa [hc] at hstep
  | listNames cluster full =>
      simp only [Phase.step]
      split
      · refine carries_hashNext (hn.ext.now_clusterBy hp) fun ns hash h => ?_
        cases h
      · rintro table ⟨⟩
  | hashNamespaces cluster full left live =>
      obtain ⟨hcluster, hlive⟩ := hp
      cases left with
      | nil =>
          rintro table ⟨⟩
          exact hlive.extends hn.ext
      | cons ns left =>
          refine carries_hashNext (hn.ext.now_clusterBy hcluster) fun k hash h => ?_
          rw [Table.get?_insert] at h
          split at h
          · rename_i hk
            subst hk
            cases hrefs : m.inNamespace k with
            | error e => simp [hrefs, Except.toOption] at h
            | ok refs =>
                rw [hrefs] at h
                cases h
                exact hn.hashBy hcluster hrefs (by simp [Phase.digests, hrefs, Except.toOption])
                  (by simp [Phase.combines, hrefs, Except.toOption])
          · exact hn.ext.now_hashBy (hlive k hash h)
  | compare cluster full live =>
      refine carries_visit fun ns hash h => ?_
      cases live with
      | none => simp [recheck] at h
      | some table =>
          obtain ⟨k, -, hk⟩ := List.mem_map.1 h
          rw [Prod.mk.injEq] at hk
          obtain ⟨rfl, hjoin⟩ := hk
          have hget : table.get? k = some (some hash) := Option.join_eq_some_iff.1 hjoin
          exact hn.ext.now_hashBy (hp table rfl k hash hget)
  | refresh plan left r =>
      obtain ⟨hleft, hr⟩ := hp
      have hstep := r.carries_step (c := c) hn hasked hh hadmits hr
      simp only [Phase.step]
      split
      · exact carries_visit (hleft.extends hn.ext)
      · exact ⟨hleft.extends hn.ext, hstep⟩
  | finish plan => exact trivial
  | done result => exact trivial

theorem Call.carries_step {c : Cache} {call : Call}
    (hn : s.Notes s' m (call.digests m) (call.combines m)) (hasked : asked ≤ s.now)
    (hh : c.clusterHash.Carries s)
    (hadmits : ∀ ns review, m.reviewer ns = .ok review → admits s.stores ns review)
    (hcall : call.Carries admits s asked) :
    (call.step m c).next.Carries admits s' (Effect.askedAt s.now asked (call.step m c).effect) := by
  cases call with
  | refresh r => exact r.carries_step hn hasked hh hadmits hcall
  | pass p => exact Pass.carries_step hn hasked hh hadmits hcall

theorem Refresh.carries_computation {r : Refresh} (hr : r.Carries admits s asked) {c : Computation}
    (hc : r.computation? = some c) : c.Carries s ∧ c.digests m = r.digests m := by
  obtain ⟨ns, phase⟩ := r
  cases phase with
  | hashCluster request =>
      cases request with
      | compute c' =>
          cases hc
          exact ⟨hr, rfl⟩
      | _ => cases hc
  | _ => cases hc

theorem Call.carries_computation {call : Call} (hcall : call.Carries admits s asked) {c : Computation}
    (hc : call.computation? = some c) : c.Carries s ∧ c.digests m = call.digests m := by
  cases call with
  | refresh r => exact r.carries_computation hcall hc
  | pass p =>
      cases p with
      | hashCluster c' =>
          cases hc
          exact ⟨hcall, rfl⟩
      | refresh plan left r => exact r.carries_computation hcall.2 hc
      | _ => cases hc

theorem Call.carries_clusterHash {c : Cache} {call : Call}
    (hn : s.Notes s' m (call.digests m) (call.combines m)) (hh : c.clusterHash.Carries s)
    (hcall : call.Carries admits s asked) : (call.step m c).cache.clusterHash.Carries s' := by
  have hcomp : ∀ comp, call.computation? = some comp →
      comp.Carries s ∧ comp.digests m = call.digests m :=
    fun comp h => call.carries_computation hcall h
  have htouch := call.touch_hash m c
  generalize call.computation? = before at hcomp htouch
  generalize (call.step m c).next.computation? = after at htouch
  generalize (call.step m c).cache.clusterHash = h' at htouch ⊢
  cases htouch with
  | idle => exact hh.extends hn.ext
  | enter => exact hh.extends hn.ext
  | step comp next hnext =>
      obtain ⟨hcarries, hdigests⟩ := hcomp comp rfl
      rw [← hdigests] at hn
      exact (ClusterHash.Computation.carries_step hn hh hcarries).1

end Steps

end Visibility
