import Mathlib.Algebra.GroupWithZero.Nat
import Visibility.Proofs.Cache.Steady

/-!
A pass does not depend on the order in which it visits namespaces.

While nothing else changes, every visit has a verdict that can be told from the cache at the beginning: it
depends on the record of its own namespace alone, and no other visit touches that. So the records come out the
same in any order, and with them the index and the measures, and the effects come out the same but for their
order.
-/

namespace Visibility

open Rbac (Ref)
open ClusterHash (Computation)

theorem Subjects.Mirrors.unique {g g' : Grants} {records : Table Record} {subjects : Record → NameSet}
    (h : Mirrors g records subjects) (h' : Mirrors g' records subjects) : g' = g := by
  have hsees : ∀ a n, sees g' a n = sees g a n := fun a n => by
    rw [Bool.eq_iff_iff, h.sees_iff, h'.sees_iff]
  refine Table.ext_get? fun a => ?_
  cases hg : g.get? a with
  | none =>
      cases hg' : g'.get? a with
      | none => rfl
      | some names =>
          obtain ⟨n, hn⟩ := NameSet.isEmpty_eq_false_iff.1 (h'.inhabited a names hg')
          have hsame := hsees a n
          rw [sees, sees, hg, hg'] at hsame
          cases (hn.symm.trans hsame : true = false)
  | some names =>
      cases hg' : g'.get? a with
      | none =>
          obtain ⟨n, hn⟩ := NameSet.isEmpty_eq_false_iff.1 (h.inhabited a names hg)
          have hsame := hsees a n
          rw [sees, sees, hg, hg'] at hsame
          cases (hn.symm.trans hsame.symm : true = false)
      | some names' =>
          refine congrArg some (NameSet.ext_contains fun n => ?_)
          have hsame := hsees a n
          rwa [sees, sees, hg, hg'] at hsame

theorem Cache.Consistent.eq_of_records {c c' : Cache} (h : c.Consistent) (h' : c'.Consistent)
    (hrecords : c'.records = c.records) (hhash : c'.clusterHash = c.clusterHash)
    (hwatchers : c'.watchers = c.watchers) (hpasses : c.SamePasses c')
    (hcounts : c'.metrics.passes = c.metrics.passes) (hreviews : c'.metrics.reviews = c.metrics.reviews)
    (hfailures : c'.metrics.reviewFailures = c.metrics.reviewFailures) : c' = c := by
  have husers : c'.subjects.users = c.subjects.users := h.users.unique (hrecords ▸ h'.users)
  have hgroups : c'.subjects.groups = c.subjects.groups := h.groups.unique (hrecords ▸ h'.groups)
  obtain ⟨-, -, hnamespaces, husers', hgroups'⟩ := h
  obtain ⟨-, -, hnamespaces', husers'', hgroups''⟩ := h'
  obtain ⟨hsyncing, hlast, hready⟩ := hpasses
  rw [hrecords, ← hnamespaces] at hnamespaces'
  rw [husers, ← husers'] at husers''
  rw [hgroups, ← hgroups'] at hgroups''
  obtain ⟨records, ⟨users, groups⟩, hash, last, syncing, ready, watchers, ⟨⟩⟩ := c
  obtain ⟨records', ⟨users', groups'⟩, hash', last', syncing', ready', watchers', ⟨⟩⟩ := c'
  dsimp only at *
  subst_vars
  rfl

namespace Pass

open Refresh (Verdict)

/-- What the visits of some targets do to the cache, given their verdicts. -/
structure Visited (v : Target → Verdict) (ts : List Target) (c c' : Cache) : Prop where
  visited : ∀ t ∈ ts, c'.records.get? t.1 = (v t).record
  others : ∀ ns, ns ∉ ts.map (·.1) → c'.records.get? ns = c.records.get? ns
  clusterHash : c'.clusterHash = c.clusterHash
  watchers : c'.watchers = c.watchers
  passes : c.SamePasses c'
  counts : c'.metrics.passes = c.metrics.passes
  reviews : c'.metrics.reviews = c.metrics.reviews + (ts.map fun t => (v t).reviews).sum
  failures : c'.metrics.reviewFailures = c.metrics.reviewFailures + (ts.map fun t => (v t).failures).sum
  consistent : c.Consistent → c'.Consistent

variable {v : Target → Verdict} {t : Target} {ts ts' : List Target} {c c' b : Cache}

theorem Visited.cons (hb : (v t).Carried t.1 c b) (h : Visited v ts b c') (ht : t.1 ∉ ts.map (·.1)) :
    Visited v (t :: ts) c c' := by
  obtain ⟨hothers, hwatchers, ⟨hsyncing, hlast, hready⟩, hcounts, hreviews, hfailures⟩ := hb.gains
  constructor
  · intro u hu
    rcases List.mem_cons.1 hu with rfl | hu
    · exact (h.others _ ht).trans hb.record
    · exact h.visited u hu
  · intro ns hns
    rw [List.map_cons, List.mem_cons, not_or] at hns
    exact (h.others ns hns.2).trans (hothers ns hns.1)
  · exact h.clusterHash.trans hb.clusterHash
  · exact h.watchers.trans hwatchers
  · exact ⟨h.passes.1.trans hsyncing, h.passes.2.trans hlast, h.passes.3.trans hready⟩
  · exact h.counts.trans hcounts
  · rw [h.reviews, hreviews, List.map_cons, List.sum_cons, Nat.add_assoc]
  · rw [h.failures, hfailures, List.map_cons, List.sum_cons, Nat.add_assoc]
  · exact fun hc => h.consistent (hb.consistent hc)

theorem Visited.eq_of_perm (h : Visited v ts c b) (h' : Visited v ts' c c') (hperm : ts'.Perm ts)
    (hc : c.Consistent) : c' = b := by
  have hnames := hperm.map (·.1)
  refine (h.consistent hc).eq_of_records (h'.consistent hc) (Table.ext_get? fun ns => ?_)
    (h'.clusterHash.trans h.clusterHash.symm) (h'.watchers.trans h.watchers.symm) ?_
    (h'.counts.trans h.counts.symm) ?_ ?_
  · by_cases hns : ns ∈ ts.map (·.1)
    · obtain ⟨t, ht, rfl⟩ := List.mem_map.1 hns
      rw [h.visited t ht, h'.visited t (hperm.mem_iff.2 ht)]
    · rw [h.others ns hns, h'.others ns (mt hnames.mem_iff.1 hns)]
  · exact ⟨h'.passes.1.trans h.passes.1.symm, h'.passes.2.trans h.passes.2.symm,
      h'.passes.3.trans h.passes.3.symm⟩
  · rw [h.reviews, h'.reviews, (hperm.map _).sum_nat]
  · rw [h.failures, h'.failures, (hperm.map _).sum_nat]

theorem ends_visit {m₀ : Moment} {c₀ : Cache}
    (hv : ∀ t c es, c₀.SameAt t.1 c → Alone.Ends Refresh.step m₀.Steady
      (fun b => b.phase.result?.isSome = true ∧ (v t).Carried t.1 c b.cache ∧
        b.effects = es ++ (v t).effects) ⟨c, .start t.1 t.2, es⟩)
    (plan : Plan) (hnodup : (ts.map (·.1)).Nodup) (hc : ∀ t ∈ ts, c₀.SameAt t.1 c) (es : List Effect) :
    Alone.Ends Phase.step m₀.Steady (fun a => a.phase = .finish plan ∧ Visited v ts c a.cache ∧
      a.effects = es ++ ts.flatMap fun t => (v t).effects) ⟨c, visit plan ts, es⟩ := by
  induction ts generalizing c es with
  | nil =>
      exact .now ⟨rfl, ⟨nofun, fun _ _ => rfl, rfl, rfl, ⟨rfl, rfl, rfl⟩, rfl, rfl, rfl, id⟩,
        (List.append_nil es).symm⟩
  | cons t ts ih =>
      rw [List.map_cons, List.nodup_cons] at hnodup
      rw [List.forall_mem_cons] at hc
      refine ends_refresh ((hv t c es hc.1).mono ?_) (result?_start t)
      rintro b ⟨hresult, hb, heffects⟩
      -- the targets that are left find what they depend on as it was
      have hleft : ∀ u ∈ ts, c₀.SameAt u.1 b.cache := by
        intro u hu
        refine (hc.2 u hu).trans ⟨hb.gains.others _ ?_, hb.clusterHash, hb.gains.watchers⟩
        rintro heq
        exact hnodup.1 (heq ▸ List.mem_map_of_mem hu)
      refine ⟨hresult, (ih hnodup.2 hleft b.effects).mono ?_⟩
      rintro a ⟨hphase, hvisited, hall⟩
      refine ⟨hphase, .cons hb hvisited hnodup.1, ?_⟩
      rw [hall, heffects, List.flatMap_cons, List.append_assoc]

theorem map_fst_targets (m : Moment) (records : Table Record) (live : Table (Option String)) :
    (targets m records live).map (·.1) = m.order (stale records live) ++ m.order (gone records live) := by
  rw [targets, List.map_map]
  exact List.map_id _

theorem nodup_targets (m : Moment) (records : Table Record) (live : Table (Option String)) :
    ((targets m records live).map (·.1)).Nodup := by
  have hstale : (stale records live).Nodup := (List.filter_sublist.map Prod.fst).nodup live.nodup_keys
  have hgone : (gone records live).Nodup := records.nodup_keys.filter _
  rw [map_fst_targets, List.nodup_append]
  refine ⟨(m.order_perm _).nodup_iff.2 hstale, (m.order_perm _).nodup_iff.2 hgone, ?_⟩
  rintro ns hns _ hns' rfl
  rw [(m.order_perm _).mem_iff] at hns hns'
  obtain ⟨⟨k, hash⟩, he, rfl⟩ := List.mem_map.1 hns
  have hlive : live.contains k = true := by
    rw [← Table.mem_keys_iff]
    exact List.mem_map_of_mem (List.mem_filter.1 he).1
  have hnot := (List.mem_filter.1 hns').2
  rw [hlive] at hnot
  cases hnot

/-- The targets of a pass, whether the live namespaces are known or not. -/
def planned (m : Moment) (records : Table Record) (live : Option (Table (Option String))) : List Target :=
  live.elim (recheck m records) (targets m records)

theorem planned_perm (m m' : Moment) (records : Table Record) (live : Option (Table (Option String))) :
    (planned m records live).Perm (planned m' records live) := by
  have horder : ∀ names, (m.order names).Perm (m'.order names) :=
    fun names => (m.order_perm names).trans (m'.order_perm names).symm
  cases live with
  | none => exact (horder _).map _
  | some live => exact ((horder _).append (horder _)).map _

theorem nodup_planned (m : Moment) (records : Table Record) (live : Option (Table (Option String))) :
    ((planned m records live).map (·.1)).Nodup := by
  cases live with
  | none =>
      rw [planned, Option.elim_none, recheck, List.map_map]
      exact (List.map_id _).symm ▸ (m.order_perm _).nodup_iff.2 records.nodup_keys
  | some live => exact nodup_targets m records live

/-- The hash of a namespace as a pass finds it, given the digest of the cluster. -/
def hashed? (m : Moment) (cluster ns : String) : Option String :=
  (m.inNamespace ns).toOption.map fun refs => Digest.combine cluster (Ref.digest refs)

/-- The table of hashes, after some names were hashed into it. -/
def hashes (m : Moment) (cluster : String) (names : List String) (live : Table (Option String)) :
    Table (Option String) := names.foldl (fun live ns => live.insert ns (hashed? m cluster ns)) live

theorem get?_hashes (m : Moment) (cluster : String) (names : List String) (live : Table (Option String))
    (ns : String) :
    (hashes m cluster names live).get? ns =
      if ns ∈ names then some (hashed? m cluster ns) else live.get? ns := by
  induction names generalizing live with
  | nil => rfl
  | cons k names ih =>
      rw [hashes, List.foldl_cons, ← hashes, ih, Table.get?_insert]
      by_cases hk : ns = k
      · simp [hk]
      · simp [hk]

theorem hashes_perm (m : Moment) (cluster : String) {names names' : List String}
    (hperm : names.Perm names') (live : Table (Option String)) :
    hashes m cluster names live = hashes m cluster names' live := by
  refine Table.ext_get? fun ns => ?_
  rw [get?_hashes, get?_hashes]
  exact if_congr hperm.mem_iff rfl rfl

/-- Whether a pass comes to one and the same end, in whatever order it goes through namespaces: the cache and
the result are fixed, and so are the effects but for their order. -/
def Determined (m₀ : Moment) (a : Alone Phase) : Prop :=
  ∃ c result es, Alone.Ends Phase.step m₀.Steady
    (fun b => b.cache = c ∧ b.phase = .done result ∧ b.effects.Perm es) a

variable {m₀ : Moment} {a : Alone Phase} {es : List Effect} {cluster : String} {full : Bool}

theorem Determined.of_ends (hends : Alone.Ends Phase.step m₀.Steady (fun b => b = ⟨c', p, es⟩) a)
    (h : Determined m₀ ⟨c', p, es⟩) : Determined m₀ a := by
  obtain ⟨c, result, es', hend⟩ := h
  refine ⟨c, result, es', hends.trans ?_⟩
  rintro _ rfl
  exact hend

theorem determined_done (result : Except HashError Outcome) (c : Cache) (es : List Effect) :
    Determined m₀ ⟨c, .done result, es⟩ := ⟨c, result, es, .now ⟨rfl, rfl, .refl _⟩⟩

theorem Determined.step {p : Phase} (hstep : ∀ m, m₀.Steady m → p.step m c = p.step m₀ c)
    (h : Determined m₀ (Alone.step Phase.step ⟨c, p, es⟩ m₀)) : Determined m₀ ⟨c, p, es⟩ := by
  obtain ⟨c', result, es', hend⟩ := h
  refine ⟨c', result, es', .later fun m hm => ?_⟩
  rw [Alone.step, hstep m hm]
  exact hend

theorem ends_finish (plan : Plan) (c : Cache) (es : List Effect) :
    Alone.Ends Phase.step m₀.Steady (fun b => b =
      ⟨((Phase.finish plan).step m₀ c).cache, .done (.ok plan.outcome), es⟩) ⟨c, .finish plan, es⟩ := by
  refine .later fun m hm => .now ?_
  simp only [Alone.step, Phase.step, Moment.synced, hm.stores, Option.toList_none, List.append_nil]

/-- A pass carries out the same visits in any order, and comes to the same end. -/
theorem determined_compare (hc : c.Consistent) (hfresh : c.clusterHash.Fresh m₀)
    (live : Option (Table (Option String))) (es : List Effect) :
    Determined m₀ ⟨c, .compare cluster full live, es⟩ := by
  choose v hv using Refresh.exists_verdict hfresh
  let ts₀ := planned m₀ c.records live
  let plan : Plan := ⟨cluster, full, ts₀.length⟩
  have hends : ∀ m, Alone.Ends Phase.step m₀.Steady (fun b => b.phase = .finish plan ∧
      Visited v (planned m c.records live) c b.cache ∧
      b.effects = es ++ (planned m c.records live).flatMap fun t => (v t).effects)
      ⟨c, visit plan (planned m c.records live), es⟩ := fun m =>
    ends_visit hv plan (nodup_planned m c.records live) (fun t _ => .refl _ _) es
  -- the cache that the visits lead to in one order is the one that they lead to in every order
  obtain ⟨n, -, hvisited, -⟩ := (hends m₀).exists_run fun _ : Nat => Moment.Steady.refl m₀
  generalize (Alone.run Phase.step n (fun _ => m₀) _).cache = c₁ at hvisited
  refine ⟨((Phase.finish plan).step m₀ c₁).cache, .ok plan.outcome,
    es ++ ts₀.flatMap fun t => (v t).effects, .later fun m _ => ?_⟩
  have hperm := planned_perm m m₀ c.records live
  have hstep : Alone.step Phase.step ⟨c, .compare cluster full live, es⟩ m =
      ⟨c, visit plan (planned m c.records live), es⟩ := by
    simp only [Alone.step, Phase.step, Option.toList_none, List.append_nil, plan, ts₀,
      ← hperm.length_eq]
    rfl
  rw [hstep]
  refine (hends m).trans ?_
  rintro ⟨b, phase, bs⟩ ⟨hphase, hvisited', heffects⟩
  obtain rfl : phase = .finish plan := hphase
  obtain rfl : b = c₁ := hvisited.eq_of_perm hvisited' hperm hc
  refine (ends_finish plan b bs).mono ?_
  rintro _ rfl
  refine ⟨rfl, rfl, ?_⟩
  rw [show bs = _ from heffects]
  exact (hperm.flatMap_right _).append_left es

theorem ends_hashNext_steady (c : Cache) (left : List String) (live : Table (Option String))
    (es : List Effect) :
    Alone.Ends Phase.step m₀.Steady (fun b => b =
      ⟨c, .compare cluster full (some (hashes m₀ cluster left live)), es⟩)
      ⟨c, hashNext cluster full left live, es⟩ := by
  induction left generalizing live with
  | nil => exact .now rfl
  | cons ns left ih =>
      refine .silent _ _ (fun m hm => ?_) (ih (live.insert ns (hashed? m₀ cluster ns)))
      have hsame : m.inNamespace ns = m₀.inNamespace ns := by
        simp only [Moment.inNamespace, Moment.ask, hm.fault, hm.stores]
      rw [hashNext, if_neg (by simp), Phase.step, hsame]
      rfl

theorem determined_listNames (hc : c.Consistent) (hfresh : c.clusterHash.Fresh m₀) (es : List Effect) :
    Determined m₀ ⟨c, .listNames cluster full, es⟩ := by
  have hsame : ∀ m, m₀.Steady m → m.names = m₀.names := fun m hm => by
    simp only [Moment.names, Moment.ask, hm.fault, hm.stores]
  cases hnames : m₀.names with
  | error e =>
      refine .step (fun m hm => ?_) ?_
      · simp only [Phase.step, hsame m hm, hnames]
      · simp only [Alone.step, Phase.step, hnames]
        exact determined_compare hc hfresh none _
  | ok names =>
      have hcompare : Determined m₀ ⟨c, .compare cluster full (some (hashes m₀ cluster names ∅)), es⟩ :=
        determined_compare hc hfresh _ es
      refine .of_ends (.later fun m hm => ?_) hcompare
      simp only [Alone.step, Phase.step, hsame m hm, hnames, Option.toList_none, List.append_nil]
      rw [← hashes_perm m₀ cluster (m.order_perm names)]
      exact ends_hashNext_steady c _ ∅ es

/-! The digest of the cluster is computed by steps that do not depend on the order. -/

theorem Determined.hash {computation : Computation}
    (h : Determined m₀ (Alone.step Phase.step ⟨c, .hashCluster computation, es⟩ m₀)) :
    Determined m₀ ⟨c, .hashCluster computation, es⟩ :=
  .step (fun m hm => by simp only [Phase.step, hm.computation_step]) h

variable {versions : Versions}

theorem determined_listBindings (hc : c.Consistent)
    (hversions : versions = ⟨m₀.version .clusterRole, m₀.version .clusterRoleBinding⟩) (roles : List Ref)
    (es : List Effect) : Determined m₀ ⟨c, .hashCluster (.listBindings versions roles), es⟩ := by
  refine .hash ?_
  simp only [Alone.step, Phase.step, Computation.step]
  cases m₀.cluster .clusterRoleBinding with
  | error e => exact determined_done _ _ _
  | ok bindings =>
      refine determined_listNames ?_ ?_ _
      · exact hc.alike ⟨rfl, rfl, rfl, rfl, rfl⟩
      · exact ⟨rfl, _, rfl, hversions⟩

theorem determined_listRoles (hc : c.Consistent)
    (hversions : versions = ⟨m₀.version .clusterRole, m₀.version .clusterRoleBinding⟩) (es : List Effect) :
    Determined m₀ ⟨c, .hashCluster (.listRoles versions), es⟩ := by
  refine .hash ?_
  simp only [Alone.step, Phase.step, Computation.step]
  cases m₀.cluster .clusterRole with
  | error e => exact determined_done _ _ _
  | ok roles => exact determined_listBindings hc hversions roles _

theorem determined_readBindingsVersion (hc : c.Consistent) (es : List Effect) :
    Determined m₀ ⟨c, .hashCluster (.readBindingsVersion (m₀.version .clusterRole)), es⟩ := by
  refine .hash ?_
  simp only [Alone.step, Phase.step, Computation.step]
  cases hx : c.clusterHash.last with
  | none => exact determined_listRoles hc rfl _
  | some x =>
      by_cases hversions : x.versions = ⟨m₀.version .clusterRole, m₀.version .clusterRoleBinding⟩
      · simp only [if_pos hversions]
        refine determined_listNames ?_ ?_ _
        · exact hc.alike ⟨rfl, rfl, rfl, rfl, rfl⟩
        · exact ⟨rfl, x, hx, hversions⟩
      · simp only [if_neg hversions]
        exact determined_listRoles hc rfl _

theorem determined_hashCluster (hc : c.Consistent) (es : List Effect) :
    Determined m₀ ⟨c, .hashCluster .enter, es⟩ := by
  refine .hash ?_
  simp only [Alone.step, Phase.step, Computation.step]
  by_cases hbusy : c.clusterHash.busy = true
  · simp only [if_pos hbusy]
    exact determined_done _ _ _
  · simp only [if_neg hbusy]
    refine .hash (determined_readBindingsVersion ?_ _)
    exact hc.alike ⟨rfl, rfl, rfl, rfl, rfl⟩

theorem determined_enter (hc : c.Consistent) (es : List Effect) : Determined m₀ ⟨c, .enter, es⟩ := by
  refine .step (fun _ _ => rfl) ?_
  simp only [Alone.step, Phase.step]
  split
  · exact determined_done _ _ _
  · refine determined_hashCluster ?_ _
    exact hc.alike ⟨rfl, rfl, rfl, rfl, rfl⟩

theorem alone_add_of_done {n : Nat} {ms : Nat → Moment} {result : Except HashError Outcome}
    (hdone : (alone n ms c).phase = .done result) (k : Nat) : alone (n + k) ms c = alone n ms c := by
  induction k with
  | zero => rfl
  | succ k ih =>
      have hrun : alone (n + (k + 1)) ms c = (alone (n + k) ms c).step Phase.step (ms (n + k)) :=
        Alone.run_succ (n + k) ms _
      rw [hrun, ih]
      generalize alone n ms c = a at hdone
      obtain ⟨b, phase, es⟩ := a
      obtain rfl : phase = .done result := hdone
      simp only [Alone.step, Phase.step, Option.toList_none, List.append_nil]

theorem post_of_done {post : Alone Phase → Prop} (hends : Alone.Ends Phase.step m₀.Steady post ⟨c, .enter, []⟩)
    (hpost : ∀ a, post a → ∃ result, a.phase = .done result) {ms : Nat → Moment}
    (hms : ∀ k, m₀.Steady (ms k)) {n : Nat} {result : Except HashError Outcome}
    (hdone : (alone n ms c).phase = .done result) : post (alone n ms c) := by
  obtain ⟨n', hn'⟩ := hends.exists_run hms
  obtain ⟨result', hdone'⟩ := hpost _ hn'
  have hsame : alone n ms c = alone n' ms c := by
    rw [← alone_add_of_done hdone n', ← alone_add_of_done hdone' n, Nat.add_comm]
  rw [hsame]
  exact hn'

end Pass

namespace System

/-- In every state that is reached, a pass that runs alone while stores, failures and answers stay as they are
ends; and whenever two such passes, which go through namespaces in orders of their own, are done, their results
are the same, they leave the same cache, and they have shown the same but for its order: the namespaces that
the reviewer was asked about, what was recorded and removed, and what watchers were told. -/
theorem visiting_order_irrelevant {s : System} (h : Reachable anything s) {m₀ : Moment}
    {ms ms' : Nat → Moment} (hms : ∀ k, m₀.Steady (ms k)) (hms' : ∀ k, m₀.Steady (ms' k)) :
    (∃ n result, (Pass.alone n ms s.cache).phase = .done result) ∧
      ∀ n n' result result', (Pass.alone n ms s.cache).phase = .done result →
        (Pass.alone n' ms' s.cache).phase = .done result' →
        result' = result ∧ (Pass.alone n' ms' s.cache).cache = (Pass.alone n ms s.cache).cache ∧
          (Pass.alone n' ms' s.cache).effects.Perm (Pass.alone n ms s.cache).effects := by
  have hdetermined : Pass.Determined m₀ ⟨s.cache, .enter, []⟩ := Pass.determined_enter h.consistent []
  obtain ⟨c, last, es, hends⟩ := hdetermined
  have hpost : ∀ a : Alone Pass.Phase, a.cache = c ∧ a.phase = .done last ∧ a.effects.Perm es →
      ∃ result, a.phase = .done result := fun a ha => ⟨_, ha.2.1⟩
  constructor
  · obtain ⟨n, -, hdone, -⟩ := hends.exists_run hms
    exact ⟨n, _, hdone⟩
  · intro n n' result result' hdone hdone'
    obtain ⟨hcache, hphase, heffects⟩ := Pass.post_of_done hends hpost hms hdone
    obtain ⟨hcache', hphase', heffects'⟩ := Pass.post_of_done hends hpost hms' hdone'
    rw [hphase] at hdone
    rw [hphase'] at hdone'
    cases hdone
    cases hdone'
    exact ⟨rfl, hcache'.trans hcache.symm, heffects'.trans heffects.symm⟩

/-- Two namespaces and a watcher. -/
def pair : System :=
  run {} [.change (.apply .namespaces { name := some "a" }), .change (.apply .namespaces { name := some "b" }),
    .watch "w"]

/-- The moment at which tables are gone through from the other end. -/
def backwards (m : Moment) : Moment :=
  { m with order := List.reverse, order_perm := List.reverse_perm }

theorem visiting_order_irrelevant_pair :
    let m := reviewing pair.stores ["u"]
    let a := Pass.alone 27 (fun _ => m) pair.cache
    let b := Pass.alone 27 (fun _ => backwards m) pair.cache
    a.phase.outcome? = some (.refreshed true 2) ∧ b.cache = a.cache ∧ b.effects.Perm a.effects ∧
      b.effects ≠ a.effects := by
  intro m a b
  have hreachable : Reachable anything pair := Reachable.run .init fun _ _ _ => trivial
  have ha : a.phase.outcome? = some (.refreshed true 2) := by decide +kernel
  have hb : b.phase.outcome? = some (.refreshed true 2) := by decide +kernel
  have hms : ∀ k : Nat, m.Steady ((fun _ => m) k) := fun _ => .refl m
  have hms' : ∀ k : Nat, m.Steady ((fun _ => backwards m) k) := fun _ => ⟨rfl, rfl, rfl⟩
  obtain ⟨-, hcache, heffects⟩ := (visiting_order_irrelevant hreachable hms hms').2 27 27 _ _
    (Pass.Phase.eq_done_of_outcome? ha) (Pass.Phase.eq_done_of_outcome? hb)
  exact ⟨ha, hcache, heffects, by decide +kernel⟩

end System

end Visibility
