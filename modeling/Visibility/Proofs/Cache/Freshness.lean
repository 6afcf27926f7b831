import Visibility.Proofs.Cache.Origin

namespace Visibility

open Rbac (Ref)

theorem Refresh.recorded_of_effect {m : Moment} {c : Cache} {r : Refresh} {ns : String}
    {record : Record} (he : (r.step m c).effect = some (.recorded ns record)) :
    r.ns = ns ∧ ∃ hash review, r.phase = .commit hash review ∧
      record = ⟨NameSet.ofList review.users, NameSet.ofList review.groups, hash⟩ := by
  obtain ⟨k, phase⟩ := r
  simp only [Refresh.step] at he
  cases phase with
  | exists? =>
      simp only [Phase.step] at he
      split at he <;> cases he
  | remove =>
      simp only [Phase.step] at he
      split at he
      · cases he
      · split at he <;> cases he
  | hashCluster request =>
      simp only [Phase.step] at he
      split at he <;> cases he
  | hashNamespace cluster =>
      simp only [Phase.step] at he
      split at he <;> cases he
  | compare hash =>
      simp only [Phase.step] at he
      split at he <;> cases he
  | ask hash => cases he
  | hear hash answer =>
      cases answer with
      | error reason => cases he
      | ok review =>
          simp only [Phase.step] at he
          split at he <;> cases he
  | commit hash review =>
      simp only [Phase.step] at he
      split at he
      · cases he
        exact ⟨rfl, hash, review, rfl, rfl⟩
      · cases he
        exact ⟨rfl, hash, review, rfl, rfl⟩
  | announce users groups => cases he
  | notify watchers users groups => cases watchers <;> cases he
  | done result => cases he

theorem Pass.exists_refresh_of_effect {m : Moment} {c : Cache} {p : Phase} {e : Effect}
    (he : (p.step m c).effect = some e) :
    ∃ plan left r, p = .refresh plan left r ∧ (r.step m c).effect = some e := by
  cases p with
  | enter =>
      simp only [Phase.step] at he
      split at he <;> cases he
  | hashCluster computation =>
      simp only [Phase.step] at he
      split at he <;> cases he
  | listNames cluster full =>
      simp only [Phase.step] at he
      split at he <;> cases he
  | hashNamespaces cluster full left live => cases left <;> cases he
  | compare cluster full live => cases he
  | refresh plan left r =>
      refine ⟨plan, left, r, rfl, ?_⟩
      simp only [Phase.step] at he
      split at he <;> exact he
  | finish plan => cases he
  | done result => cases he

namespace System

/-- A record of a review that was requested at a time: the hash is no newer than the review, and what
the record says the reviewer said then. -/
def Tells (admits : Stores → String → Review → Prop) (s : System) (t : Nat) (ns : String)
    (r : Record) : Prop :=
  s.HashBy t ns r.hash ∧ ∃ review, admits (s.history t) ns review ∧ review.evaluationError = none ∧
    r.users = NameSet.ofList review.users ∧ r.groups = NameSet.ofList review.groups

/-- What the calls and the cache of a system know, they know from its run. -/
structure Traced (admits : Stores → String → Review → Prop) (s : System) : Prop where
  asked_le : ∀ a ∈ s.attempts, a.asked ≤ s.now
  calls : ∀ a ∈ s.attempts, a.call.Carries admits s a.asked
  kept : s.cache.clusterHash.Carries s
  requested_le : ∀ ns, s.requested ns ≤ s.now
  records : ∀ ns r, s.cache.records.get? ns = some r → s.Tells admits (s.requested ns) ns r
  kinded : ∀ t ≤ s.now, (s.history t).rbac.Kinded

variable {admits : Stores → String → Review → Prop} {s s' : System}

theorem Tells.extends {t : Nat} {ns : String} {r : Record} (h : s.Tells admits t ns r)
    (hext : s.Extends s') (ht : t ≤ s.now) : s'.Tells admits t ns r := by
  obtain ⟨hhash, review, hadmits, herror, husers, hgroups⟩ := h
  exact ⟨hext.hashBy ht (Nat.le_refl _) hhash, review, hext.history_eq t ht ▸ hadmits, herror, husers,
    hgroups⟩

theorem records_advance {i : Nat} {a : Attempt} {m : Moment} {ns : String} {r : Record}
    (h : (s.advance i a m).cache.records.get? ns = some r) :
    s.cache.records.get? ns = some r ∧ (s.advance i a m).requested ns = s.requested ns ∨
      (a.call.step m s.cache).effect = some (.recorded ns r) ∧
        (s.advance i a m).requested ns = a.asked := by
  have htouch := a.call.touch m s.cache
  simp only [advance] at h ⊢
  generalize (a.call.step m s.cache).effect = e at htouch h ⊢
  generalize (a.call.step m s.cache).cache = c' at htouch h
  cases htouch with
  -- The only step that changes when the review of a record was requested.
  | commit k r' =>
      rw [Cache.get?_commit] at h
      by_cases hk : ns = k
      · subst hk
        rw [if_pos rfl] at h
        cases h
        exact .inr ⟨rfl, Function.update_self _ _ _⟩
      · rw [if_neg hk] at h
        exact .inl ⟨h, Function.update_of_ne hk _ _⟩
  | remove k r' hr =>
      rw [Cache.get?_remove] at h
      split at h
      · cases h
      · exact .inl ⟨h, rfl⟩
  | keep he halike =>
      rw [halike.records] at h
      refine .inl ⟨h, ?_⟩
      split
      · cases he
      · rfl

theorem requested_advance (s : System) (i : Nat) (a : Attempt) (m : Moment) (ns : String) :
    (s.advance i a m).requested ns = s.requested ns ∨
      (s.advance i a m).requested ns = a.asked := by
  simp only [advance]
  generalize (a.call.step m s.cache).effect = e
  split
  · rename_i k _
    by_cases hk : ns = k
    · subst hk
      exact .inr (Function.update_self _ _ _)
    · exact .inl (Function.update_of_ne hk _ _)
  · exact .inl rfl

end System

theorem Call.tells {admits : Stores → String → Review → Prop} {s : System} {asked : Nat} {m : Moment}
    {c : Cache} {call : Call} {ns : String} {record : Record} (hcall : call.Carries admits s asked)
    (he : (call.step m c).effect = some (.recorded ns record)) :
    s.Tells admits asked ns record := by
  have hrefresh : ∀ r : Refresh, r.Carries admits s asked →
      (r.step m c).effect = some (.recorded ns record) → s.Tells admits asked ns record := by
    intro r hr he
    obtain ⟨rfl, hash, review, hphase, rfl⟩ := Refresh.recorded_of_effect he
    rw [Refresh.Carries, hphase] at hr
    exact ⟨hr.1, review, hr.2.1, hr.2.2, rfl, rfl⟩
  cases call with
  | refresh r => exact hrefresh r hcall he
  | pass p =>
      obtain ⟨plan, left, r, rfl, hr⟩ := Pass.exists_refresh_of_effect he
      exact hrefresh r hcall.2 hr

namespace System

variable {admits : Stores → String → Review → Prop} {s s' : System}

theorem Traced.tick (h : s.Traced admits) (stores : Stores) (hstores : stores.rbac.Kinded) :
    (s.tick stores).Traced admits where
  asked_le a ha := Nat.le_succ_of_le (h.asked_le a ha)
  calls a ha := (h.calls a ha).extends (s.extends_tick stores) (h.asked_le a ha)
  kept := h.kept.extends (s.extends_tick stores)
  requested_le ns := Nat.le_succ_of_le (h.requested_le ns)
  records ns r hr := (h.records ns r hr).extends (s.extends_tick stores) (h.requested_le ns)
  kinded t ht := by
    rcases Nat.lt_or_eq_of_le ht with hlt | rfl
    · rw [history_tick s stores (Nat.le_of_lt_succ hlt)]
      exact h.kinded t (Nat.le_of_lt_succ hlt)
    · exact (congrArg (fun st : Stores => st.rbac.Kinded) (s.stores_tick stores)).mpr hstores

theorem Traced.advance (h : s.Traced admits) {i : Nat} {a : Attempt} {m : Moment}
    (ha : a ∈ s.attempts) (hm : m.stores = s.stores)
    (hadmits : ∀ ns review, m.reviewer ns = .ok review → admits s.stores ns review) :
    (s.advance i a m).Traced admits := by
  have hext := s.extends_advance i a m
  have hasked := h.asked_le a ha
  have hn : s.Notes (s.advance i a m) m (a.call.digests m) (a.call.combines m) :=
    ⟨hext, hm, List.subset_append_right _ _, List.subset_append_right _ _⟩
  have hcall := a.call.carries_step (c := s.cache) hn hasked h.kept hadmits (h.calls a ha)
  refine ⟨fun b hb => ?_, fun b hb => ?_, ?_, fun ns => ?_, fun ns r hr => ?_, ?_⟩
  · rcases List.mem_or_eq_of_mem_set hb with hb | rfl
    · exact Nat.le_succ_of_le (h.asked_le b hb)
    · exact Effect.askedAt_le hasked
  · rcases List.mem_or_eq_of_mem_set hb with hb | rfl
    · exact (h.calls b hb).extends hext (h.asked_le b hb)
    · exact hcall
  · exact a.call.carries_clusterHash hn h.kept (h.calls a ha)
  · rcases s.requested_advance i a m ns with heq | heq
    · rw [heq]
      exact Nat.le_succ_of_le (h.requested_le ns)
    · rw [heq]
      exact Nat.le_succ_of_le hasked
  · rcases records_advance hr with ⟨hold, heq⟩ | ⟨heffect, heq⟩
    · rw [heq]
      exact (h.records ns r hold).extends hext (h.requested_le ns)
    · rw [heq]
      exact (Call.tells (h.calls a ha) heffect).extends hext hasked
  · exact (h.tick s.stores (h.kinded s.now (Nat.le_refl _))).kinded

/-- The hashes are those that the cache computes itself, and the reviewer answers only what `admits`
allows. -/
def faithful (admits : Stores → String → Review → Prop) (s : System) : Event → Prop
  | .launch (.refresh _ (some _)) => False
  | .move _ m => ∀ ns review, m.reviewer ns = .ok review → admits s.stores ns review
  | _ => True

theorem Reachable.moves (h : Reachable (faithful admits) s) (i : Nat) {m : Moment}
    (hm : ∀ ns review, m.reviewer ns = .ok review → admits s.stores ns review) (n : Nat) :
    Reachable (faithful admits) (s.run (List.replicate n (.move i m))) := by
  induction n generalizing s with
  | zero => exact h
  | succ n ih => exact ih (.next h hm) (by rwa [stores_move])

theorem Reachable.traced (h : Reachable (faithful admits) s) : s.Traced admits := by
  induction h with
  | init =>
      refine ⟨fun a ha => ?_, fun a ha => ?_, fun x hx => ?_, fun ns => Nat.le_refl _,
        fun ns r hr => ?_, fun t _ => Rbac.Index.kinded_empty⟩
      · cases ha
      · cases ha
      · cases hx
      · cases hr
  | @next s e _ he ih =>
      have hstores : s.stores.rbac.Kinded := ih.kinded s.now (Nat.le_refl _)
      have htick := ih.tick s.stores hstores
      cases e with
      | change c => exact ih.tick _ ((s.stores.edits_apply c).kinded hstores)
      | launch l =>
          refine ⟨fun a ha => ?_, fun a ha => ?_, htick.kept, htick.requested_le, htick.records,
            htick.kinded⟩
          · rcases List.mem_append.1 ha with ha | ha
            · exact htick.asked_le a ha
            · cases List.mem_singleton.1 ha
              exact Nat.zero_le _
          · rcases List.mem_append.1 ha with ha | ha
            · exact htick.calls a ha
            · cases List.mem_singleton.1 ha
              cases l with
              | pass => trivial
              | refresh ns hash =>
                  cases hash with
                  | none => trivial
                  | some hash => exact he.elim
      | move i m =>
          simp only [System.next]
          cases hi : s.attempts[i]? with
          | none => exact ih
          | some a => exact ih.advance (List.mem_of_getElem? hi) rfl he
      | watch w => exact ⟨htick.1, htick.2, htick.3, htick.4, htick.5, htick.6⟩
      | unwatch w => exact ⟨htick.1, htick.2, htick.3, htick.4, htick.5, htick.6⟩

/-- No content came back after it had been left. A content is a list of references in any order. -/
structure NeverReturns (s : System) : Prop where
  roles : ∀ i j k, i ≤ j → j ≤ k → k ≤ s.now →
    (s.roles i).Perm (s.roles k) → (s.roles j).Perm (s.roles k)
  bindings : ∀ i j k, i ≤ j → j ≤ k → k ≤ s.now →
    (s.bindings i).Perm (s.bindings k) → (s.bindings j).Perm (s.bindings k)
  refs : ∀ ns i j k, i ≤ j → j ≤ k → k ≤ s.now →
    (s.refs i ns).Perm (s.refs k ns) → (s.refs j ns).Perm (s.refs k ns)

/-- What the run hashed, and what the hash of a namespace in the stores is made from. -/
def inputs (s : System) (ns : String) : List (List Ref) :=
  s.stores.clusterRefs :: s.stores.rbac.listNamespaced ns :: s.digested

/-- The pairs of digests that were combined, and the one of the stores. -/
def pairs (s : System) (ns : String) : List (String × String) :=
  (Ref.digest s.stores.clusterRefs, Ref.digest (s.stores.rbac.listNamespaced ns)) :: s.combined

/-- Neither hash collides on the inputs of the run and the contents of the stores. -/
structure CollisionFree (s : System) (ns : String) : Prop where
  digest : ∀ l ∈ s.inputs ns, ∀ l' ∈ s.inputs ns, Ref.digest l = Ref.digest l' → l.Perm l'
  combine : ∀ p ∈ s.pairs ns, ∀ q ∈ s.pairs ns,
    Digest.combine p.1 p.2 = Digest.combine q.1 q.2 → p = q

theorem kind_of_mem_roles {t : Nat} (h : (s.history t).rbac.Kinded) {r : Ref}
    (hr : r ∈ s.roles t) : r.kind = .clusterRole := by
  obtain ⟨name, hname⟩ := Table.mem_values_iff.1 hr
  exact h .clusterRoles name r hname

theorem kind_of_mem_bindings {t : Nat} (h : (s.history t).rbac.Kinded) {r : Ref}
    (hr : r ∈ s.bindings t) : r.kind = .clusterRoleBinding := by
  obtain ⟨name, hname⟩ := Table.mem_values_iff.1 hr
  exact h .clusterRoleBindings name r hname

theorem perm_and_perm_of_append {i j k : Nat} (hi : (s.history i).rbac.Kinded)
    (hj : (s.history j).rbac.Kinded) (hk : (s.history k).rbac.Kinded)
    (h : (s.roles i ++ s.bindings j).Perm (s.roles k ++ s.bindings k)) :
    (s.roles i).Perm (s.roles k) ∧ (s.bindings j).Perm (s.bindings k) := by
  have hroles : ∀ t, (s.history t).rbac.Kinded →
      (s.roles t).filter (fun r => r.kind = .clusterRole) = s.roles t ∧
        (s.roles t).filter (fun r => r.kind = .clusterRoleBinding) = [] := by
    intro t ht
    refine ⟨List.filter_eq_self.2 fun r hr => ?_, List.filter_eq_nil_iff.2 fun r hr => ?_⟩
    · simp [kind_of_mem_roles ht hr]
    · simp [kind_of_mem_roles ht hr]
  have hbindings : ∀ t, (s.history t).rbac.Kinded →
      (s.bindings t).filter (fun r => r.kind = .clusterRoleBinding) = s.bindings t ∧
        (s.bindings t).filter (fun r => r.kind = .clusterRole) = [] := by
    intro t ht
    refine ⟨List.filter_eq_self.2 fun r hr => ?_, List.filter_eq_nil_iff.2 fun r hr => ?_⟩
    · simp [kind_of_mem_bindings ht hr]
    · simp [kind_of_mem_bindings ht hr]
  constructor
  · have hfilter := h.filter (fun r => r.kind = .clusterRole)
    rwa [List.filter_append, List.filter_append, (hroles i hi).1, (hroles k hk).1,
      (hbindings j hj).2, (hbindings k hk).2, List.append_nil, List.append_nil] at hfilter
  · have hfilter := h.filter (fun r => r.kind = .clusterRoleBinding)
    rwa [List.filter_append, List.filter_append, (hroles i hi).2, (hroles k hk).2,
      (hbindings j hj).1, (hbindings k hk).1, List.nil_append, List.nil_append] at hfilter

/-- A hash that was computed by some time and is that of the stores was computed of listings of the
present contents. -/
theorem HashBy.exists_perm {t : Nat} {ns : String} (h : s.HashBy t ns (s.stores.hash ns))
    (ht : t ≤ s.now) (hfree : s.CollisionFree ns)
    (hkinded : ∀ t ≤ s.now, (s.history t).rbac.Kinded) :
    (∃ i ≤ t, (s.roles i).Perm (s.roles s.now)) ∧
      (∃ j ≤ t, (s.bindings j).Perm (s.bindings s.now)) ∧
      ∃ k ≤ t, (s.refs k ns).Perm (s.refs s.now ns) := by
  obtain ⟨cluster, ⟨i, hi, j, hj, hmem, rfl⟩, k, hk, hrefs, hpair, hhash⟩ := h
  have hpairs := hfree.combine _ List.mem_cons_self _ (List.mem_cons_of_mem _ hpair) hhash
  rw [Prod.mk.injEq] at hpairs
  have hcluster := hfree.digest _ (List.mem_cons_of_mem _ (List.mem_cons_of_mem _ hmem)) _
    List.mem_cons_self hpairs.1.symm
  have hlocal := hfree.digest _ (List.mem_cons_of_mem _ (List.mem_cons_of_mem _ hrefs)) _
    (List.mem_cons_of_mem _ List.mem_cons_self) hpairs.2.symm
  obtain ⟨hroles, hbindings⟩ := perm_and_perm_of_append (hkinded i (by omega))
    (hkinded j (by omega)) (hkinded s.now (Nat.le_refl _)) hcluster
  exact ⟨⟨i, hi, hroles⟩, ⟨j, hj, hbindings⟩, k, hk, hlocal⟩

/-- What a record tells is as new as the stores if it carries their hash. -/
theorem Traced.unchanged (h : s.Traced admits) (hnever : s.NeverReturns) {ns : String}
    (hfree : s.CollisionFree ns) {r : Record} (hr : s.cache.records.get? ns = some r)
    (hhash : r.hash = s.stores.hash ns) {t : Nat} (ht : s.requested ns ≤ t) (hnow : t ≤ s.now) :
    (s.roles t).Perm (s.roles s.now) ∧ (s.bindings t).Perm (s.bindings s.now) ∧
      (s.refs t ns).Perm (s.refs s.now ns) := by
  have hby := (h.records ns r hr).1
  rw [hhash] at hby
  obtain ⟨⟨i, hi, hroles⟩, ⟨j, hj, hbindings⟩, k, hk, hrefs⟩ :=
    hby.exists_perm (h.requested_le ns) hfree h.kinded
  exact ⟨hnever.roles i t s.now (by omega) hnow (Nat.le_refl _) hroles,
    hnever.bindings j t s.now (by omega) hnow (Nat.le_refl _) hbindings,
    hnever.refs ns k t s.now (by omega) hnow (Nat.le_refl _) hrefs⟩

theorem faithful_of_ownHashes {e : Event} (he : ownHashes s e) :
    faithful (fun _ _ _ => True) s e := by
  cases e with
  | launch l =>
      cases l with
      | pass => trivial
      | refresh ns hash => cases hash <;> exact he
  | move i m => exact fun _ _ _ => trivial
  | change c | watch w | unwatch w => trivial

/-- If no content ever returns and no hash collides, a record that carries the hash of the stores is
as new as the stores: neither the cluster-scoped objects nor those of the namespace have changed since
its review was requested. -/
theorem unchanged_since_review (h : Reachable ownHashes s) (hnever : s.NeverReturns) {ns : String}
    (hfree : s.CollisionFree ns) {r : Record} (hr : s.cache.records.get? ns = some r)
    (hhash : r.hash = s.stores.hash ns) :
    ∀ t, s.requested ns ≤ t → t ≤ s.now →
      (s.roles t).Perm (s.roles s.now) ∧ (s.bindings t).Perm (s.bindings s.now) ∧
        (s.refs t ns).Perm (s.refs s.now ns) := by
  intro t ht hnow
  have htraced := (h.mono fun _ _ => faithful_of_ownHashes).traced
  exact htraced.unchanged hnever hfree hr hhash ht hnow

theorem neverReturns_sample : sample.NeverReturns := by
  have hnow : sample.now = 19 := by decide +kernel
  have hroles : ∀ t < 20, sample.roles t = [] := by decide +kernel
  have hbindings : ∀ t < 20,
      sample.bindings t = if t < 2 then [] else [⟨.clusterRoleBinding, "x", "1"⟩] := by
    decide +kernel
  have hrefs : ∀ t < 20, ∀ ns, sample.refs t ns = [] := by
    intro t ht ns
    have hnone : ∀ t < 20, (sample.history t).rbac.namespaces = ∅ := by decide +kernel
    rw [refs, Rbac.Index.listNamespaced, Rbac.Index.inNamespace, hnone t ht]
    rfl
  refine ⟨fun i j k hij hjk hk _ => ?_, fun i j k hij hjk hk h => ?_,
    fun ns i j k hij hjk hk _ => ?_⟩
  · rw [hroles j (by omega), hroles k (by omega)]
  · rw [hbindings i (by omega), hbindings k (by omega)] at h
    rw [hbindings j (by omega), hbindings k (by omega)]
    have hlength := h.length_eq
    by_cases hi : i < 2
    · have hk' : k < 2 := by
        by_contra hk'
        simp [hi, hk'] at hlength
      simp [hk', show j < 2 by omega]
    · simp [show ¬j < 2 by omega, show ¬k < 2 by omega]
  · rw [hrefs j (by omega), hrefs k (by omega)]

theorem unchanged_since_review_sample :
    sample.requested "a" = 13 ∧ sample.now = 19 ∧
      ∀ t, 13 ≤ t → t ≤ 19 → (sample.bindings t).Perm (sample.bindings 19) := by
  have hreachable : Reachable ownHashes sample :=
    reachable_sample (fun _ _ => trivial) (fun _ => trivial) fun _ => trivial
  have hfree : sample.CollisionFree "a" := ⟨by decide +kernel, by decide +kernel⟩
  have hrequested : sample.requested "a" = 13 := by decide +kernel
  have hnow : sample.now = 19 := by decide +kernel
  let record : Record := ⟨NameSet.ofList ["u"], NameSet.ofList ["g"], sample.stores.hash "a"⟩
  have hr : sample.cache.records.get? "a" = some record := by decide +kernel
  have hunchanged := unchanged_since_review hreachable neverReturns_sample hfree hr rfl
  rw [hrequested, hnow] at hunchanged
  exact ⟨hrequested, hnow, fun t h₁ h₂ => (hunchanged t h₁ h₂).2.1⟩

end System

end Visibility
