import Visibility.Proofs.Cache.LonePass

namespace Visibility

open Effect (asks)
open Rbac (Ref)

namespace Cache

/-- The live namespaces whose record is missing or does not carry the hash of the stores. -/
def stale (c : Cache) (stores : Stores) : List String :=
  stores.namespaces.names.filter fun ns => (c.records.get? ns).map (·.hash) ≠ some (stores.hash ns)

/-- The namespaces that have a record and are not live. -/
def gone (c : Cache) (stores : Stores) : List String :=
  c.records.keys.filter fun ns => !stores.live ns

theorem mem_stale {c : Cache} {stores : Stores} {ns : String} :
    ns ∈ c.stale stores ↔ stores.live ns = true ∧
      (c.records.get? ns).map (·.hash) ≠ some (stores.hash ns) := by
  rw [stale, List.mem_filter, Namespaces.names, Table.mem_keys_iff, decide_eq_true_iff]
  rfl

theorem mem_gone {c : Cache} {stores : Stores} {ns : String} :
    ns ∈ c.gone stores ↔ c.records.contains ns = true ∧ stores.live ns = false := by
  rw [gone, List.mem_filter, Table.mem_keys_iff, Bool.not_eq_true']

theorem nodup_stale (c : Cache) (stores : Stores) : (c.stale stores).Nodup :=
  (Table.nodup_keys _).filter _

/-- No call is inside a pass or a computation, and the kept digest is sound. -/
structure Settled (c : Cache) (stores : Stores) : Prop where
  syncing : c.syncing = false
  busy : c.clusterHash.busy = false
  sound : c.clusterHash.Sound stores.rbac

/-- What a pass that ran alone has made of the records. -/
structure Synchronized (c c' : Cache) (stores : Stores) (good : Moment → Prop) : Prop where
  fresh : ∀ ns ∈ c.stale stores,
    ∃ r, Said good ns (stores.hash ns) r ∧ c'.records.get? ns = some r
  kept : ∀ ns, stores.live ns = true → ns ∉ c.stale stores →
    c'.records.get? ns = c.records.get? ns
  removed : ∀ ns, stores.live ns = false → c'.records.get? ns = none

namespace Synchronized

variable {c c' : Cache} {stores : Stores} {good : Moment → Prop}

theorem hash_eq (h : c.Synchronized c' stores good) {ns : String} (hns : stores.live ns = true) :
    (c'.records.get? ns).map (·.hash) = some (stores.hash ns) := by
  by_cases hs : ns ∈ c.stale stores
  · obtain ⟨r, ⟨m, users, groups, -, -, rfl⟩, hr⟩ := h.fresh ns hs
    rw [hr, Option.map_some]
  · rw [h.kept ns hns hs]
    by_contra hne
    exact hs (mem_stale.2 ⟨hns, hne⟩)

theorem contains_eq (h : c.Synchronized c' stores good) (ns : String) :
    c'.records.contains ns = stores.live ns := by
  cases hns : stores.live ns with
  | false => rw [Table.contains, h.removed ns hns, Option.isSome_none]
  | true =>
      obtain ⟨r, hr, -⟩ := Option.map_eq_some_iff.1 (h.hash_eq hns)
      rw [Table.contains, hr, Option.isSome_some]

/-- The records of the live namespaces that are not stale are those that a pass does not look into
again. -/
theorem exists_kept (h : c.Synchronized c' stores good) {ns : String}
    (hns : stores.live ns = true) (hkeep : ns ∉ c.stale stores) :
    ∃ r, c.records.get? ns = some r ∧ r.hash = stores.hash ns ∧
      c'.records.get? ns = some r := by
  have hhash := h.hash_eq hns
  rw [h.kept ns hns hkeep] at hhash ⊢
  obtain ⟨r, hr, hhash⟩ := Option.map_eq_some_iff.1 hhash
  exact ⟨r, hr, hhash, hr⟩

theorem stale_eq_nil (h : c.Synchronized c' stores good) : c'.stale stores = [] := by
  refine List.eq_nil_iff_forall_not_mem.2 fun ns hns => ?_
  obtain ⟨hlive, hne⟩ := mem_stale.1 hns
  exact hne (h.hash_eq hlive)

theorem gone_eq_nil (h : c.Synchronized c' stores good) : c'.gone stores = [] := by
  refine List.eq_nil_iff_forall_not_mem.2 fun ns hns => ?_
  obtain ⟨hrecord, hlive⟩ := mem_gone.1 hns
  rw [h.contains_eq, hlive] at hrecord
  cases hrecord

theorem records_eq (h : c.Synchronized c' stores good) (hstale : c.stale stores = [])
    (hgone : c.gone stores = []) : c'.records = c.records := by
  refine Table.ext_get? fun ns => ?_
  cases hns : stores.live ns with
  | true => exact h.kept ns hns (by rw [hstale]; exact List.not_mem_nil)
  | false =>
      rw [h.removed ns hns]
      cases hr : c.records.get? ns with
      | none => rfl
      | some r =>
          have hmem : ns ∈ c.gone stores := mem_gone.2 ⟨by rw [Table.contains, hr]; rfl, hns⟩
          rw [hgone] at hmem
          cases hmem

end Synchronized

end Cache

namespace Pass

variable {stores : Stores} {good : Moment → Prop}

/-- A table of the live namespaces with their hashes. -/
def Hashes (live : Table (Option String)) (stores : Stores) : Prop :=
  ∀ ns, live.get? ns = if stores.live ns = true then some (some (stores.hash ns)) else none

theorem Hashes.stale_perm {live : Table (Option String)} (h : Hashes live stores) (c : Cache) :
    (stale c.records live).Perm (c.stale stores) := by
  have hnodup : (stale c.records live).Nodup :=
    (List.filter_sublist.map Prod.fst).nodup live.nodup_keys
  refine (List.perm_ext_iff_of_nodup hnodup (c.nodup_stale stores)).2 fun ns => ?_
  rw [Cache.mem_stale, stale, List.mem_map]
  constructor
  · rintro ⟨⟨k, hash⟩, he, rfl⟩
    rw [List.mem_filter] at he
    have hget := Table.mem_entries_iff.1 he.1
    rw [h] at hget
    split at hget
    · rename_i hlive
      cases hget
      exact ⟨hlive, by simpa using he.2⟩
    · cases hget
  · rintro ⟨hlive, hne⟩
    refine ⟨(ns, some (stores.hash ns)), List.mem_filter.2 ⟨?_, by simpa using hne⟩, rfl⟩
    rw [Table.mem_entries_iff, h, if_pos hlive]

theorem Hashes.gone_eq {live : Table (Option String)} (h : Hashes live stores) (c : Cache) :
    gone c.records live = c.gone stores := by
  refine List.filter_congr fun ns _ => ?_
  rw [Table.contains, h]
  cases stores.live ns <;> rfl

theorem Hashes.targets_eq {live : Table (Option String)} (h : Hashes live stores) (m : Moment)
    (c : Cache) :
    targets m c.records live =
      (m.order (stale c.records live)).map (fun ns => (ns, some (stores.hash ns))) ++
        (m.order (c.gone stores)).map fun ns => (ns, none) := by
  rw [targets, List.map_append, h.gone_eq]
  congr 1
  · refine List.map_congr_left fun ns hns => ?_
    rw [(m.order_perm _).mem_iff, (h.stale_perm c).mem_iff, Cache.mem_stale] at hns
    rw [h, if_pos hns.1, Option.join_some]
  · refine List.map_congr_left fun ns hns => ?_
    rw [(m.order_perm _).mem_iff, Cache.mem_gone] at hns
    rw [h, if_neg (by simp [hns.2])]
    rfl

theorem Asked.synchronized {names names' : List String} {c b c' : Cache}
    (ha : Asked good stores.hash names c b) (hr : Removed names' b c')
    (hstale : names.Perm (c.stale stores)) (hgone : names'.Perm (c.gone stores)) :
    c.Synchronized c' stores good := by
  have hlive : ∀ ns, stores.live ns = true → c'.records.get? ns = b.records.get? ns := by
    intro ns hns
    have hnot : ns ∉ names' := by
      intro hmem
      rw [(Cache.mem_gone.1 (hgone.mem_iff.1 hmem)).2] at hns
      cases hns
    rw [hr.get?_eq, if_neg hnot]
  refine ⟨fun ns hns => ?_, fun ns hns hkeep => ?_, fun ns hns => ?_⟩
  · rw [hlive ns (Cache.mem_stale.1 hns).1]
    exact ha.said ns (hstale.mem_iff.2 hns)
  · rw [hlive ns hns]
    exact ha.others ns fun h => hkeep (hstale.mem_iff.1 h)
  · rw [hr.get?_eq]
    split
    · rfl
    · rename_i hnot
      have hasked : ns ∉ names := by
        intro hmem
        rw [(Cache.mem_stale.1 (hstale.mem_iff.1 hmem)).1] at hns
        cases hns
      rw [ha.others ns hasked]
      by_contra hrecord
      refine hnot (hgone.mem_iff.2 (Cache.mem_gone.2 ⟨?_, hns⟩))
      exact Option.isSome_iff_ne_none.2 hrecord

theorem ends_compare (hgood : ∀ m, good m → m.Calm stores) {live : Table (Option String)}
    (hlive : Hashes live stores) (c : Cache) (cluster : String) (full : Bool) (es : List Effect) :
    Alone.Ends Phase.step good (fun a =>
        a.phase = .finish ⟨cluster, full, (c.stale stores).length + (c.gone stores).length⟩ ∧
        c.Synchronized a.cache stores good ∧ a.cache.clusterHash = c.clusterHash ∧
        (asks a.effects).Perm (asks es ++ c.stale stores) ∧
        (c.stale stores = [] → c.gone stores = [] → a.effects = es))
      ⟨c, .compare cluster full (some live), es⟩ := by
  refine .later fun m _ => ?_
  have hstale := (m.order_perm (stale c.records live)).trans (hlive.stale_perm c)
  have hgone := m.order_perm (c.gone stores)
  have hlength : (targets m c.records live).length =
      (c.stale stores).length + (c.gone stores).length := by
    rw [hlive.targets_eq, List.length_append, List.length_map, List.length_map, hstale.length_eq,
      hgone.length_eq]
  simp only [Alone.step, Phase.step, Option.elim_some, hlength, Option.toList_none, List.append_nil]
  rw [hlive.targets_eq]
  have hmem : ∀ ns ∈ m.order (stale c.records live), stores.live ns = true ∧
      (c.records.get? ns).map (·.hash) ≠ some (stores.hash ns) :=
    fun ns hns => Cache.mem_stale.1 (hstale.mem_iff.1 hns)
  refine (ends_visit_stale hgood _ stores.hash _ (hstale.nodup_iff.2 (c.nodup_stale stores))
    (fun ns hns => (hmem ns hns).1) (fun ns hns => (hmem ns hns).2) es).trans ?_
  rintro ⟨b, phase, bs⟩ ⟨hphase, hasked, hasks, hnone⟩
  cases hphase
  refine (ends_visit_gone hgood _ (fun ns hns => (Cache.mem_gone.1 (hgone.mem_iff.1 hns)).2)
    b bs).mono ?_
  rintro a ⟨hphase, hremoved, hasks', hnone'⟩
  refine ⟨hphase, hasked.synchronized hremoved hstale hgone,
    hremoved.clusterHash.trans hasked.clusterHash, ?_, fun hs hg => ?_⟩
  · rw [hasks', hasks]
    exact hstale.append_left _
  · rw [hs] at hstale
    have hgone' : m.order (c.gone stores) = [] :=
      List.eq_nil_of_length_eq_zero (by rw [hgone.length_eq, hg]; rfl)
    exact (hnone' hgone').trans (hnone hstale.eq_nil)

/-- Where a pass that ran alone has come to, and what it has done on its way. -/
structure Completed (stores : Stores) (good : Moment → Prop) (c : Cache) (a : Alone Phase) :
    Prop where
  phase : a.phase = .done (.ok (Plan.outcome ⟨Ref.digest stores.clusterRefs,
    c.lastPassHash ≠ some (Ref.digest stores.clusterRefs),
    (c.stale stores).length + (c.gone stores).length⟩))
  synchronized : c.Synchronized a.cache stores good
  settled : a.cache.Settled stores
  asks_perm : (asks a.effects).Perm (c.stale stores)
  silent : c.stale stores = [] → c.gone stores = [] → a.effects = []

theorem ends_enter (hgood : ∀ m, good m → m.Calm stores) {c : Cache} (hc : c.Settled stores) :
    Alone.Ends Phase.step good (Completed stores good c) ⟨c, .enter, []⟩ := by
  refine .silent { c with syncing := true } (.hashCluster .enter)
    (fun m _ => by rw [Phase.step, if_neg (by simp [hc.syncing])]) ?_
  refine (ends_hashCluster hgood (c := { c with syncing := true }) hc.busy hc.sound []).trans ?_
  rintro _ ⟨h, hbusy, hsound, rfl⟩
  refine .later fun m hm => ?_
  simp only [Alone.step, Phase.step, (hgood m hm).names, Option.toList_none, List.append_nil]
  refine (ends_hashNext hgood _ _ _ _ _ []).trans ?_
  rintro _ ⟨live, rfl, hget⟩
  have hlive : Hashes live stores := by
    intro ns
    have hmem : ns ∈ m.order stores.namespaces.names ↔ stores.live ns = true := by
      rw [(m.order_perm _).mem_iff, Namespaces.names, Table.mem_keys_iff]
      rfl
    rw [hget, Table.get?_empty]
    exact if_congr hmem rfl rfl
  refine (ends_compare hgood hlive _ _ _ []).trans ?_
  rintro ⟨b, phase, bs⟩ ⟨hphase, hsync, hhash, hasks, hnone⟩
  cases hphase
  refine .later fun m _ => .now ⟨rfl, ?_, ?_, ?_, ?_⟩
  · exact ⟨hsync.fresh, hsync.kept, hsync.removed⟩
  · refine ⟨rfl, ?_, ?_⟩
    · exact (congrArg ClusterHash.busy hhash).trans hbusy
    · exact (congrArg (ClusterHash.Sound · stores.rbac) hhash).mpr hsound
  · rw [Alone.step, Phase.step, Option.toList_none, List.append_nil]
    exact hasks
  · intro hs hg
    rw [Alone.step, Phase.step, Option.toList_none, List.append_nil]
    exact hnone hs hg

theorem exists_completed (good : Moment → Prop) {c : Cache} (hc : c.Settled stores)
    {ms : Nat → Moment} (hms : ∀ k, (ms k).Calm stores ∧ good (ms k)) :
    ∃ n, Completed stores (fun m => m.Calm stores ∧ good m) c (alone n ms c) :=
  (ends_enter (fun _ hm => hm.1) hc).exists_run hms

end Pass

namespace System

variable {s : System}

theorem Reachable.settled {allowed : System → Event → Prop} (h : Reachable allowed s)
    (hfree : s.Free) : s.cache.Settled s.stores :=
  ⟨h.syncing_eq_false hfree, h.busy_eq_false hfree, h.sound.1⟩

/-- A pass that runs alone over unchanging stores and in which nothing fails leaves records for exactly
the live namespaces, each with the hash of the stores. It asks once about each live namespace whose
record was missing or carried another hash and about no other, and leaves the other live records as
they were; the next pass finds nothing to do. -/
theorem synchronized_of_lone_pass (h : Reachable anything s) (hfree : s.Free) {ms ms' : Nat → Moment}
    (hms : ∀ k, (ms k).Calm s.stores) (hms' : ∀ k, (ms' k).Calm s.stores) :
    ∃ n, let a := Pass.alone n ms s.cache
      a.phase = .done (.ok (Pass.Plan.outcome ⟨Ref.digest s.stores.clusterRefs,
        s.cache.lastPassHash ≠ some (Ref.digest s.stores.clusterRefs),
        (s.cache.stale s.stores).length + (s.cache.gone s.stores).length⟩)) ∧
      (∀ ns, a.cache.records.contains ns = s.stores.live ns) ∧
      (∀ ns r, a.cache.records.get? ns = some r → r.hash = s.stores.hash ns) ∧
      (∀ ns, (asks a.effects).count ns = if ns ∈ s.cache.stale s.stores then 1 else 0) ∧
      (∀ ns, s.stores.live ns = true → ns ∉ s.cache.stale s.stores →
        a.cache.records.get? ns = s.cache.records.get? ns) ∧
      ∃ n', let b := Pass.alone n' ms' a.cache
        b.phase = .done (.ok .skipped) ∧ b.effects = [] ∧ b.cache.records = a.cache.records := by
  obtain ⟨n, ha⟩ := Pass.exists_completed (fun _ => True) (h.settled hfree) fun k =>
    ⟨hms k, trivial⟩
  obtain ⟨n', hb⟩ := Pass.exists_completed (fun _ => True) ha.settled fun k => ⟨hms' k, trivial⟩
  have hsync := ha.synchronized
  have hphase := hb.phase
  rw [hsync.stale_eq_nil, hsync.gone_eq_nil] at hphase
  refine ⟨n, ha.phase, hsync.contains_eq, fun ns r hr => ?_, fun ns => ?_, hsync.kept, n', hphase,
    hb.silent hsync.stale_eq_nil hsync.gone_eq_nil,
    hb.synchronized.records_eq hsync.stale_eq_nil hsync.gone_eq_nil⟩
  · have hlive : s.stores.live ns = true := by
      rw [← hsync.contains_eq, Table.contains, hr, Option.isSome_some]
    have hhash := hsync.hash_eq hlive
    rw [hr] at hhash
    exact Option.some.inj hhash
  · rw [ha.asks_perm.count_eq, (s.cache.nodup_stale s.stores).count]

/-- The sample after another namespace has come in. -/
def grownSample : System := sample.next (.change (.apply .namespaces { name := some "c" }))

theorem synchronized_of_lone_pass_grown :
    Reachable anything grownSample ∧ grownSample.Free ∧
      ∃ n, let a := Pass.alone n (fun _ => sampleMoment grownSample.stores) grownSample.cache
        a.phase = .done (.ok (.refreshed false 1)) ∧ (asks a.effects).count "c" = 1 := by
  have h : Reachable anything grownSample := by
    refine .next (reachable_sample ?_ ?_ ?_) trivial
    · exact fun _ _ => trivial
    · exact fun _ => trivial
    · exact fun _ => trivial
  have hfree : grownSample.Free := by
    rw [Free]
    decide +kernel
  have hcalm : ∀ _ : Nat, (sampleMoment grownSample.stores).Calm grownSample.stores :=
    fun _ => ⟨⟨rfl, fun _ => rfl⟩, fun _ _ => ⟨_, _, rfl⟩⟩
  have hstale : grownSample.cache.stale grownSample.stores = ["c"] := by decide +kernel
  obtain ⟨n, hphase, -, -, hasks, -⟩ := synchronized_of_lone_pass h hfree hcalm hcalm
  refine ⟨h, hfree, n, ?_, ?_⟩
  · rw [hphase]
    exact congrArg (fun o => Pass.Phase.done (.ok o)) (by decide +kernel)
  · rw [hasks, hstale]
    rfl

end System

end Visibility
