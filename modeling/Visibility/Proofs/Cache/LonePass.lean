import Visibility.Proofs.Alone

namespace Visibility

open ClusterHash (Computation)
open Rbac (Ref)

/-- A moment with the given stores at which no look fails. -/
structure Moment.Faultless (stores : Stores) (m : Moment) : Prop where
  stores_eq : m.stores = stores
  fault : ∀ q, m.fault q = none

/-- A faultless moment at which the reviewer answers about every live namespace, without doubts. -/
structure Moment.Calm (stores : Stores) (m : Moment) : Prop extends Faultless stores m where
  reviewer : ∀ ns, stores.live ns = true → ∃ users groups, m.reviewer ns = .ok ⟨users, groups, none⟩

namespace Moment.Faultless

variable {stores : Stores} {m : Moment}

theorem cluster (h : m.Faultless stores) (k : Rbac.Kind) :
    m.cluster k = stores.rbac.listCluster k := by
  rw [Moment.cluster, ask, h.fault, h.stores_eq]

theorem inNamespace (h : m.Faultless stores) (ns : String) :
    m.inNamespace ns = .ok (stores.rbac.listNamespaced ns) := by
  rw [Moment.inNamespace, ask, h.fault, h.stores_eq]

theorem names (h : m.Faultless stores) : m.names = .ok stores.namespaces.names := by
  rw [Moment.names, ask, h.fault, h.stores_eq]

theorem object (h : m.Faultless stores) (ns : String) :
    m.object ns = .ok (stores.namespaces.get? ns) := by
  rw [Moment.object, ask, h.fault, h.stores_eq]

theorem version (h : m.Faultless stores) (k : Rbac.Kind) :
    m.version k = stores.rbac.version k := by
  rw [Moment.version, h.stores_eq]

end Moment.Faultless

/-- The cache has these records now; the digest is the one it was, and so is what passes keep. -/
structure Cache.Rewritten (c c' : Cache) (records : Table Record) : Prop where
  records : c'.records = records
  clusterHash : c'.clusterHash = c.clusterHash
  passes : c.SamePasses c'

theorem Cache.SamePasses.trans {a b c : Cache} (hab : a.SamePasses b) (hbc : b.SamePasses c) :
    a.SamePasses c := ⟨hbc.1.trans hab.1, hbc.2.trans hab.2, hbc.3.trans hab.3⟩

theorem Cache.Rewritten.refl (c : Cache) : c.Rewritten c c.records := ⟨rfl, rfl, rfl, rfl, rfl⟩

theorem Cache.Rewritten.trans {a b c : Cache} {t t' : Table Record} (hab : a.Rewritten b t)
    (hbc : b.Rewritten c t') : a.Rewritten c t' where
  records := hbc.records
  clusterHash := hbc.clusterHash.trans hab.clusterHash
  passes := hab.passes.trans hbc.passes

/-- What a reviewer says at some good moment, as a record. -/
def Said (good : Moment → Prop) (ns hash : String) (r : Record) : Prop :=
  ∃ m users groups, good m ∧ m.reviewer ns = .ok ⟨users, groups, none⟩ ∧
    r = ⟨NameSet.ofList users, NameSet.ofList groups, hash⟩

variable {stores : Stores} {good : Moment → Prop}

namespace Refresh

open Effect (asks)

theorem ends_notify (c : Cache) (ns : String) (watchers : List String) (users groups : NameSet)
    (es : List Effect) :
    Alone.Ends Refresh.step good (fun a => a.phase.result?.isSome = true ∧ a.cache = c ∧
        asks a.effects = asks es)
      ⟨c, ⟨ns, .notify watchers users groups⟩, es⟩ := by
  induction watchers generalizing es with
  | nil =>
      exact .silent c ⟨ns, .done (.ok ())⟩ (fun _ _ => rfl) (.now ⟨rfl, rfl, rfl⟩)
  | cons w watchers ih =>
      refine .step c ⟨ns, .notify watchers users groups⟩
        (some (.notified w ns users groups)) (fun _ _ => rfl) ((ih _).mono ?_)
      rintro b ⟨hresult, hcache, hasks⟩
      exact ⟨hresult, hcache, by simpa [asks] using hasks⟩

theorem ends_announce (c : Cache) (ns : String) (users groups : NameSet) (es : List Effect) :
    Alone.Ends Refresh.step good (fun a => a.phase.result?.isSome = true ∧ a.cache = c ∧
        asks a.effects = asks es)
      ⟨c, ⟨ns, .announce users groups⟩, es⟩ := by
  exact .silent c ⟨ns, .notify c.watchers users groups⟩ (fun _ _ => rfl)
    (ends_notify c ns _ users groups es)

theorem ends_commit (c : Cache) (ns hash : String) (review : Review) (es : List Effect) :
    Alone.Ends Refresh.step good (fun a => a.phase.result?.isSome = true ∧
        c.Rewritten a.cache (c.records.insert ns
          ⟨NameSet.ofList review.users, NameSet.ofList review.groups, hash⟩) ∧
        asks a.effects = asks es)
      ⟨c, ⟨ns, .commit hash review⟩, es⟩ := by
  have hkept : c.Rewritten (c.commit ns
      ⟨NameSet.ofList review.users, NameSet.ofList review.groups, hash⟩).1
      (c.records.insert ns ⟨NameSet.ofList review.users, NameSet.ofList review.groups, hash⟩) :=
    ⟨rfl, rfl, rfl, rfl, rfl⟩
  cases h : c.commit ns ⟨NameSet.ofList review.users, NameSet.ofList review.groups, hash⟩ with
  | mk c' told =>
      rw [h] at hkept
      cases told with
      | none =>
          refine .step c' ⟨ns, .done (.ok ())⟩ (some (.recorded ns _))
            (fun m _ => by simp only [Refresh.step, Phase.step, h]; rfl) (.now ⟨rfl, hkept, ?_⟩)
          simp [asks]
      | some told =>
          refine .step c' ⟨ns, .announce told.1 told.2⟩
            (some (.recorded ns _)) (fun m _ => by simp only [Refresh.step, Phase.step, h]; rfl)
            ((ends_announce c' ns _ _ _).mono ?_)
          rintro b ⟨hresult, rfl, hasks⟩
          exact ⟨hresult, hkept, by simpa [asks] using hasks⟩

theorem ends_stale (hgood : ∀ m, good m → m.Calm stores) {c : Cache} {ns hash : String}
    (hlive : stores.live ns = true) (hne : (c.records.get? ns).map (·.hash) ≠ some hash)
    (es : List Effect) :
    Alone.Ends Refresh.step good (fun a => a.phase.result?.isSome = true ∧
        (∃ r, Said good ns hash r ∧ c.Rewritten a.cache (c.records.insert ns r)) ∧
        asks a.effects = asks es ++ [ns])
      ⟨c, .start ns (some hash), es⟩ := by
  refine .silent c ⟨ns, .ask hash⟩
    (fun m _ => by rw [Refresh.step, start, Option.elim_some, Phase.step, if_neg hne]) ?_
  refine .later fun m hm => ?_
  obtain ⟨users, groups, hreview⟩ := (hgood m hm).reviewer ns hlive
  simp only [Alone.step, Refresh.step, Phase.step, hreview]
  refine .silent c.countReview ⟨ns, .commit hash ⟨users, groups, none⟩⟩
    (fun _ _ => rfl) ((ends_commit c.countReview ns hash ⟨users, groups, none⟩ _).mono ?_)
  rintro b ⟨hresult, hkept, hasks⟩
  exact ⟨hresult, ⟨_, ⟨m, users, groups, hm, hreview, rfl⟩, hkept.records,
    hkept.clusterHash, hkept.passes.syncing, hkept.passes.lastPassHash, hkept.passes.ready⟩,
    by simpa [asks] using hasks⟩

theorem ends_gone (hgood : ∀ m, good m → m.Calm stores) (c : Cache) {ns : String}
    (hlive : stores.live ns = false) (es : List Effect) :
    Alone.Ends Refresh.step good (fun a => a.phase.result?.isSome = true ∧
        c.Rewritten a.cache (c.records.erase ns) ∧ asks a.effects = asks es)
      ⟨c, .start ns none, es⟩ := by
  have hobject : ∀ m, good m → m.object ns = .ok none := by
    intro m hm
    rw [(hgood m hm).object]
    simpa [Stores.live, Table.contains, Namespaces.get?] using hlive
  refine .silent c ⟨ns, .remove⟩ (fun m hm => by
    simp only [start, Option.elim_none, Refresh.step, Phase.step, hobject m hm]) ?_
  cases hr : c.records.get? ns with
  | none =>
      have herase : c.records.erase ns = c.records := by
        refine Table.ext_get? fun k => ?_
        rw [Table.get?_erase]
        split
        · rename_i hk
          rw [hk, hr]
        · rfl
      refine .silent c ⟨ns, .done (.ok ())⟩ (fun _ _ => by
        simp only [Refresh.step, Phase.step, Cache.remove_of_none hr]) (.now ⟨rfl, ?_, rfl⟩)
      rw [herase]
      exact .refl c
  | some r =>
      have hkept : c.Rewritten (c.remove ns).1 (c.records.erase ns) := by
        rw [Cache.remove_of_some hr]
        exact ⟨rfl, rfl, rfl, rfl, rfl⟩
      by_cases hempty : (r.users.isEmpty && r.groups.isEmpty) = true
      · refine .step (c.remove ns).1 ⟨ns, .done (.ok ())⟩
          (some (.removed ns)) (fun _ _ => by
            simp only [Refresh.step, Phase.step, Cache.remove_of_some hr, if_pos hempty])
          (.now ⟨rfl, hkept, ?_⟩)
        simp [asks]
      · refine .step (c.remove ns).1 ⟨ns, .announce ∅ ∅⟩
          (some (.removed ns)) (fun _ _ => by
            simp only [Refresh.step, Phase.step, Cache.remove_of_some hr, if_neg hempty])
          ((ends_announce _ ns ∅ ∅ _).mono ?_)
        rintro b ⟨hresult, hcache, hasks⟩
        rw [hcache]
        exact ⟨hresult, hkept, by simpa [asks] using hasks⟩

end Refresh

namespace Pass

open Effect (asks)

/-- The digest, which no other call is computing, comes out as that of the stores. -/
theorem ends_hashCluster (hgood : ∀ m, good m → m.Calm stores) {c : Cache}
    (hbusy : c.clusterHash.busy = false) (hsound : c.clusterHash.Sound stores.rbac)
    (es : List Effect) :
    Alone.Ends Phase.step good (fun a => ∃ h : ClusterHash, h.busy = false ∧ h.Sound stores.rbac ∧
        a = ⟨{ c with clusterHash := h }, .listNames (Ref.digest stores.clusterRefs)
          (c.lastPassHash ≠ some (Ref.digest stores.clusterRefs)), es⟩)
      ⟨c, .hashCluster .enter, es⟩ := by
  let versions : Versions :=
    ⟨stores.rbac.version .clusterRole, stores.rbac.version .clusterRoleBinding⟩
  let busy : Cache := { c with clusterHash := { c.clusterHash with busy := true } }
  refine .silent busy (.hashCluster .readRolesVersion)
    (fun m _ => by simp only [Phase.step, Computation.step, hbusy]; rfl) ?_
  refine .silent busy (.hashCluster (.readBindingsVersion versions.roles))
    (fun m hm => by simp only [Phase.step, Computation.step, (hgood m hm).version, versions]) ?_
  -- The kept digest is taken over if its versions are still current; it is right then, being sound.
  by_cases hlast : ∃ x, c.clusterHash.last = some x ∧ x.versions = versions
  · obtain ⟨x, hx, hv⟩ := hlast
    have hhash : x.hash = Ref.digest stores.clusterRefs := hsound.hash_eq hx hv
    refine .silent _ _ (fun m hm => ?_) (.now ⟨⟨false, some x⟩, rfl, hx ▸ hsound, rfl⟩)
    simp only [Phase.step, Computation.step, (hgood m hm).version, busy, hx]
    rw [if_pos hv, Computation.leave, hhash]
  · have hlist : ∀ m, good m → Phase.step m busy (.hashCluster (.readBindingsVersion versions.roles)) =
        ⟨busy, .hashCluster (.listRoles versions), none⟩ := by
      intro m hm
      simp only [Phase.step, Computation.step, (hgood m hm).version, busy]
      cases hx : c.clusterHash.last with
      | none => rfl
      | some x =>
          have hv : x.versions ≠ versions := fun hv => hlast ⟨x, hx, hv⟩
          dsimp only
          rw [if_neg hv]
    refine .silent _ _ hlist (.silent busy
      (.hashCluster (.listBindings versions stores.rbac.clusterRoles.values))
      (fun m hm => by simp only [Phase.step, Computation.step, (hgood m hm).cluster]; rfl) ?_)
    let hashed : Hashed := ⟨versions, Ref.digest stores.clusterRefs⟩
    refine .silent _ _ (fun m hm => ?_) (.now ⟨⟨false, some hashed⟩, rfl, ?_, rfl⟩)
    · simp only [Phase.step, Computation.step, (hgood m hm).cluster, Rbac.Index.listCluster]
      rfl
    · intro x hx
      cases hx
      exact ⟨_, _, rfl, ⟨Nat.le_refl _, fun _ => rfl⟩, ⟨Nat.le_refl _, fun _ => rfl⟩⟩

theorem ends_hashNext (hgood : ∀ m, good m → m.Calm stores) (c : Cache) (cluster : String)
    (full : Bool) (left : List String) (live : Table (Option String)) (es : List Effect) :
    Alone.Ends Phase.step good (fun a => ∃ live', a = ⟨c, .compare cluster full (some live'), es⟩ ∧
        ∀ ns, live'.get? ns = if ns ∈ left then
          some (some (Digest.combine cluster (Ref.digest (stores.rbac.listNamespaced ns))))
          else live.get? ns)
      ⟨c, hashNext cluster full left live, es⟩ := by
  induction left generalizing live with
  | nil => exact .now ⟨live, rfl, fun ns => by simp⟩
  | cons ns left ih =>
      refine .silent _ _ (fun m hm => ?_) ((ih (live.insert ns (some (Digest.combine cluster
        (Ref.digest (stores.rbac.listNamespaced ns)))))).mono ?_)
      · rw [hashNext, if_neg (by simp), Phase.step, (hgood m hm).inNamespace]
        rfl
      · rintro b ⟨live', rfl, hlive'⟩
        refine ⟨live', rfl, fun k => ?_⟩
        rw [hlive', Table.get?_insert]
        by_cases hk : k = ns
        · simp [hk]
        · simp [hk]

/-- Each of the namespaces has a record of what the reviewer said, and the other records are as they
were. -/
structure Asked (good : Moment → Prop) (hash : String → String) (names : List String)
    (c c' : Cache) : Prop where
  said : ∀ ns ∈ names, ∃ r, Said good ns (hash ns) r ∧ c'.records.get? ns = some r
  others : ∀ ns, ns ∉ names → c'.records.get? ns = c.records.get? ns
  clusterHash : c'.clusterHash = c.clusterHash
  passes : c.SamePasses c'

theorem Asked.cons {hash : String → String} {ns : String} {names : List String} {r : Record}
    {c b c' : Cache} (hr : Said good ns (hash ns) r)
    (hb : c.Rewritten b (c.records.insert ns r)) (h : Asked good hash names b c')
    (hns : ns ∉ names) : Asked good hash (ns :: names) c c' where
  said k hk := by
    rcases List.mem_cons.1 hk with rfl | hk
    · exact ⟨r, hr, by rw [h.others k hns, hb.records, Table.get?_insert, if_pos rfl]⟩
    · exact h.said k hk
  others k hk := by
    rw [List.mem_cons, not_or] at hk
    rw [h.others k hk.2, hb.records, Table.get?_insert, if_neg hk.1]
  clusterHash := h.clusterHash.trans hb.clusterHash
  passes := hb.passes.trans h.passes

theorem ends_visit_stale (hgood : ∀ m, good m → m.Calm stores) (plan : Plan)
    (hash : String → String) (rest : List Target) {names : List String} (hnodup : names.Nodup)
    (hlive : ∀ ns ∈ names, stores.live ns = true) {c : Cache}
    (hne : ∀ ns ∈ names, (c.records.get? ns).map (·.hash) ≠ some (hash ns)) (es : List Effect) :
    Alone.Ends Phase.step good (fun a => a.phase = visit plan rest ∧
        Asked good hash names c a.cache ∧ asks a.effects = asks es ++ names ∧
        (names = [] → a.effects = es))
      ⟨c, visit plan (names.map (fun ns => (ns, some (hash ns))) ++ rest), es⟩ := by
  induction names generalizing c es with
  | nil =>
      exact .now ⟨rfl, ⟨fun _ h => (by cases h), fun _ _ => rfl, rfl, rfl, rfl, rfl⟩, by simp, fun _ => rfl⟩
  | cons ns names ih =>
      rw [List.nodup_cons] at hnodup
      rw [List.forall_mem_cons] at hlive hne
      refine ends_refresh ((Refresh.ends_stale hgood hlive.1 hne.1 es).mono ?_) rfl
      rintro b ⟨hresult, ⟨r, hsaid, hb⟩, hasks⟩
      have hne' : ∀ k ∈ names, (b.cache.records.get? k).map (·.hash) ≠ some (hash k) := by
        intro k hk
        have hkns : k ≠ ns := fun h => hnodup.1 (h ▸ hk)
        rw [hb.records, Table.get?_insert, if_neg hkns]
        exact hne.2 k hk
      refine ⟨hresult, (ih hnodup.2 hlive.2 hne' b.effects).mono ?_⟩
      rintro a ⟨hphase, hasked, hall, -⟩
      refine ⟨hphase, .cons hsaid hb hasked hnodup.1, ?_, nofun⟩
      rw [hall, hasks, List.append_assoc, List.singleton_append]

/-- The records of the namespaces are gone, and the others are as they were. -/
structure Removed (names : List String) (c c' : Cache) : Prop where
  get?_eq : ∀ ns, c'.records.get? ns = if ns ∈ names then none else c.records.get? ns
  clusterHash : c'.clusterHash = c.clusterHash
  passes : c.SamePasses c'

theorem ends_visit_gone (hgood : ∀ m, good m → m.Calm stores) (plan : Plan) {names : List String}
    (hlive : ∀ ns ∈ names, stores.live ns = false) (c : Cache) (es : List Effect) :
    Alone.Ends Phase.step good (fun a => a.phase = .finish plan ∧ Removed names c a.cache ∧
        asks a.effects = asks es ∧ (names = [] → a.effects = es))
      ⟨c, visit plan (names.map fun ns => (ns, none)), es⟩ := by
  induction names generalizing c es with
  | nil => exact .now ⟨rfl, ⟨fun _ => by simp, rfl, rfl, rfl, rfl⟩, rfl, fun _ => rfl⟩
  | cons ns names ih =>
      rw [List.forall_mem_cons] at hlive
      refine ends_refresh ((Refresh.ends_gone hgood c hlive.1 es).mono ?_) rfl
      rintro b ⟨hresult, hb, hasks⟩
      refine ⟨hresult, (ih hlive.2 b.cache b.effects).mono ?_⟩
      rintro a ⟨hphase, hremoved, hall, -⟩
      refine ⟨hphase, ⟨fun k => ?_, hremoved.clusterHash.trans hb.clusterHash,
        hb.passes.trans hremoved.passes⟩, hall.trans hasks, nofun⟩
      rw [hremoved.get?_eq, hb.records, Table.get?_erase]
      by_cases hk : k = ns <;> simp [hk]

end Pass

end Visibility
