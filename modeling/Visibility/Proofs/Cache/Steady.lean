import Visibility.Proofs.Cache.Consistency
import Visibility.Proofs.Cache.Endings
import Visibility.Proofs.Cache.Upkeep

/-!
Refreshes while nothing else changes: the stores, the looks that fail and the answers of the reviewer stay as
they are.

What a refresh shows, and what it does to the record of its namespace, depends on this record, on the kept
digest and on the watchers alone. So it can be told before the refresh is made, whatever other refreshes come
first.
-/

namespace Visibility

open ClusterHash (Computation Request)

/-- A moment that differs from a given one at most in the order in which namespaces are gone through. -/
structure Moment.Steady (m₀ m : Moment) : Prop where
  stores : m.stores = m₀.stores
  fault : m.fault = m₀.fault
  reviewer : m.reviewer = m₀.reviewer

theorem Moment.Steady.refl (m : Moment) : m.Steady m := ⟨rfl, rfl, rfl⟩

namespace Moment.Steady

variable {m₀ m : Moment}

theorem computation_step (h : m₀.Steady m) (c : ClusterHash) (computation : Computation) :
    computation.step m c = computation.step m₀ c := by
  obtain ⟨stores, fault, reviewer, order, order_perm⟩ := m
  obtain ⟨rfl, rfl, rfl⟩ := h
  cases computation <;> rfl

theorem request_step (h : m₀.Steady m) (c : ClusterHash) (request : Request) :
    request.step m c = request.step m₀ c := by
  cases request with
  | compute computation => rw [Request.step, Request.step, h.computation_step]
  | _ => rfl

theorem refresh_step (h : m₀.Steady m) (c : Cache) (r : Refresh) : r.step m c = r.step m₀ c := by
  obtain ⟨ns, phase⟩ := r
  simp only [Refresh.step]
  cases phase with
  | hashCluster request => simp only [Refresh.Phase.step, h.request_step]
  | _ =>
      obtain ⟨stores, fault, reviewer, order, order_perm⟩ := m
      obtain ⟨rfl, rfl, rfl⟩ := h
      rfl

end Moment.Steady

theorem Alone.ends_run {σ : Type} {next : Moment → Cache → σ → Progress σ} {good : Moment → Prop}
    {m₀ : Moment} (hnext : ∀ m, good m → ∀ c p, next m c p = next m₀ c p) (n : Nat) (a : Alone σ) :
    Ends next good (fun b => b = a.run next n fun _ => m₀) a := by
  induction n generalizing a with
  | zero => exact .now rfl
  | succ n ih =>
      refine .later fun m hm => ?_
      have hstep : a.step next m = a.step next m₀ := by
        simp only [Alone.step, hnext m hm]
      rw [hstep]
      exact ih _

/-- Two caches that are the same for a refresh of a namespace. -/
structure Cache.SameAt (ns : String) (c c' : Cache) : Prop where
  record : c'.records.get? ns = c.records.get? ns
  clusterHash : c'.clusterHash = c.clusterHash
  watchers : c'.watchers = c.watchers

theorem Cache.SameAt.refl (ns : String) (c : Cache) : c.SameAt ns c := ⟨rfl, rfl, rfl⟩

theorem Cache.SameAt.trans {ns : String} {a b c : Cache} (hab : a.SameAt ns b) (hbc : b.SameAt ns c) :
    a.SameAt ns c :=
  ⟨hbc.record.trans hab.record, hbc.clusterHash.trans hab.clusterHash, hbc.watchers.trans hab.watchers⟩

theorem Cache.SameAt.commit {ns : String} {c c' : Cache} (h : c.SameAt ns c') (r : Record) :
    (c'.commit ns r).2 = (c.commit ns r).2 ∧ (c.commit ns r).1.SameAt ns (c'.commit ns r).1 := by
  refine ⟨?_, ?_, h.clusterHash, h.watchers⟩
  · simp only [Cache.commit, h.record]
  · rw [Cache.get?_commit, Cache.get?_commit, if_pos rfl, if_pos rfl]

theorem Cache.SameAt.remove {ns : String} {c c' : Cache} (h : c.SameAt ns c') :
    (c'.remove ns).2 = (c.remove ns).2 ∧ (c.remove ns).1.SameAt ns (c'.remove ns).1 := by
  have hrecord := h.record
  cases hr : c.records.get? ns with
  | none =>
      rw [hr] at hrecord
      rw [Cache.remove_of_none hr, Cache.remove_of_none hrecord]
      exact ⟨rfl, h⟩
  | some r =>
      rw [hr] at hrecord
      rw [Cache.remove_of_some hr, Cache.remove_of_some hrecord]
      refine ⟨rfl, ?_, h.clusterHash, h.watchers⟩
      simp only [Cache.measure, Table.get?_erase, if_true]

namespace Refresh

theorem sameAt_step {c c' : Cache} {r : Refresh} (h : c.SameAt r.ns c') (m : Moment) :
    (r.step m c').next = (r.step m c).next ∧ (r.step m c').effect = (r.step m c).effect ∧
      (r.step m c).cache.SameAt r.ns (r.step m c').cache := by
  obtain ⟨ns, phase⟩ := r
  simp only [step]
  cases phase with
  | exists? | hashNamespace cluster =>
      simp only [Phase.step]
      split <;> exact ⟨rfl, rfl, h⟩
  | remove =>
      obtain ⟨htold, hcache⟩ := h.remove
      simp only [Phase.step]
      generalize c.remove ns = x at htold hcache
      generalize c'.remove ns = x' at htold hcache
      obtain ⟨b, told⟩ := x
      obtain ⟨b', told'⟩ := x'
      obtain rfl : told' = told := htold
      cases told' with
      | none => exact ⟨rfl, rfl, hcache⟩
      | some record =>
          dsimp only
          split <;> exact ⟨rfl, rfl, hcache⟩
  | hashCluster request =>
      simp only [Phase.step, h.clusterHash]
      split <;> exact ⟨rfl, rfl, h.record, rfl, h.watchers⟩
  | compare hash =>
      simp only [Phase.step, h.record]
      split <;> exact ⟨rfl, rfl, h⟩
  | ask hash => exact ⟨rfl, rfl, h.record, h.clusterHash, h.watchers⟩
  | hear hash answer =>
      cases answer with
      | error reason => exact ⟨rfl, rfl, h.record, h.clusterHash, h.watchers⟩
      | ok review =>
          simp only [Phase.step]
          split
          · exact ⟨rfl, rfl, h.record, h.clusterHash, h.watchers⟩
          · exact ⟨rfl, rfl, h⟩
  | commit hash review =>
      obtain ⟨htold, hcache⟩ := h.commit ⟨NameSet.ofList review.users, NameSet.ofList review.groups, hash⟩
      simp only [Phase.step]
      generalize c.commit ns ⟨NameSet.ofList review.users, NameSet.ofList review.groups, hash⟩ = x
        at htold hcache
      generalize c'.commit ns ⟨NameSet.ofList review.users, NameSet.ofList review.groups, hash⟩ = x'
        at htold hcache
      obtain ⟨b, told⟩ := x
      obtain ⟨b', told'⟩ := x'
      obtain rfl : told' = told := htold
      cases told' with
      | none => exact ⟨rfl, rfl, hcache⟩
      | some sets => exact ⟨rfl, rfl, hcache⟩
  | announce users groups => exact ⟨by simp only [Phase.step, h.watchers], rfl, h⟩
  | notify watchers users groups => cases watchers <;> exact ⟨rfl, rfl, h⟩
  | done result => exact ⟨rfl, rfl, h⟩

/-- How often the next step of a refresh asks the reviewer. -/
def asking (r : Refresh) : Nat :=
  match r.phase with
  | .ask _ => 1
  | _ => 0

/-- How many failures of a review the next step of a refresh counts. -/
def failing (r : Refresh) : Nat :=
  match r.phase with
  | .hear _ (.error _) => 1
  | .hear _ (.ok review) => if review.evaluationError.isSome then 1 else 0
  | _ => 0

end Refresh

/-- What a stretch of a refresh of a namespace does to the cache besides the record and the digest. -/
structure Cache.Gains (ns : String) (reviews failures : Nat) (c c' : Cache) : Prop where
  others : ∀ k, k ≠ ns → c'.records.get? k = c.records.get? k
  watchers : c'.watchers = c.watchers
  passes : c.SamePasses c'
  counts : c'.metrics.passes = c.metrics.passes
  reviews : c'.metrics.reviews = c.metrics.reviews + reviews
  failures : c'.metrics.reviewFailures = c.metrics.reviewFailures + failures

theorem Cache.Gains.trans {ns : String} {x y x' y' : Nat} {a b c : Cache} (hab : a.Gains ns x y b)
    (hbc : b.Gains ns x' y' c) : a.Gains ns (x + x') (y + y') c where
  others k hk := (hbc.others k hk).trans (hab.others k hk)
  watchers := hbc.watchers.trans hab.watchers
  passes := ⟨hbc.passes.1.trans hab.passes.1, hbc.passes.2.trans hab.passes.2,
    hbc.passes.3.trans hab.passes.3⟩
  counts := hbc.counts.trans hab.counts
  reviews := by rw [hbc.reviews, hab.reviews, Nat.add_assoc]
  failures := by rw [hbc.failures, hab.failures, Nat.add_assoc]

namespace Refresh

theorem counts_step (m : Moment) (c : Cache) (r : Refresh) :
    (r.step m c).cache.metrics.passes = c.metrics.passes ∧
      (r.step m c).cache.metrics.reviews = c.metrics.reviews + r.asking ∧
      (r.step m c).cache.metrics.reviewFailures = c.metrics.reviewFailures + r.failing := by
  obtain ⟨ns, phase⟩ := r
  simp only [step]
  cases phase with
  | exists? | hashNamespace cluster | compare hash | hashCluster request =>
      simp only [Phase.step]
      split <;> exact ⟨rfl, rfl, rfl⟩
  | remove =>
      simp only [Phase.step]
      cases hr : c.records.get? ns with
      | none =>
          rw [Cache.remove_of_none hr]
          exact ⟨rfl, rfl, rfl⟩
      | some record =>
          rw [Cache.remove_of_some hr]
          dsimp only
          split <;> exact ⟨rfl, rfl, rfl⟩
  | hear hash answer =>
      cases answer with
      | error reason => exact ⟨rfl, rfl, rfl⟩
      | ok review =>
          simp only [Phase.step, failing]
          split
          · rename_i reason hreason
            rw [hreason]
            exact ⟨rfl, rfl, rfl⟩
          · rename_i hreason
            rw [hreason]
            exact ⟨rfl, rfl, rfl⟩
  | commit hash review =>
      let record : Record := ⟨NameSet.ofList review.users, NameSet.ofList review.groups, hash⟩
      have hcommit : (c.commit ns record).1.metrics.passes = c.metrics.passes ∧
          (c.commit ns record).1.metrics.reviews = c.metrics.reviews ∧
          (c.commit ns record).1.metrics.reviewFailures = c.metrics.reviewFailures := ⟨rfl, rfl, rfl⟩
      simp only [Phase.step]
      split
      · rename_i c' users groups hc
        rwa [hc] at hcommit
      · rename_i c' hc
        rwa [hc] at hcommit
  | notify watchers users groups => cases watchers <;> exact ⟨rfl, rfl, rfl⟩
  | ask hash | announce users groups | done result => exact ⟨rfl, rfl, rfl⟩

theorem gains_step (m : Moment) (c : Cache) (r : Refresh) :
    c.Gains r.ns r.asking r.failing (r.step m c).cache := by
  obtain ⟨hpasses, hreviews, hfailures⟩ := r.counts_step m c
  exact ⟨fun k hk => get?_step_of_ne hk, r.watchers_step m c, (r.stepped m c).passes, hpasses, hreviews,
    hfailures⟩

/-- Two runs of one refresh from caches that are the same for it show the same and count the same. -/
theorem sameAt_run {c c' : Cache} {r : Refresh} (h : c.SameAt r.ns c') (n : Nat) (ms : Nat → Moment)
    (es es' : List Effect) :
    let b := Alone.run step n ms ⟨c, r, es⟩
    let b' := Alone.run step n ms ⟨c', r, es'⟩
    b'.phase = b.phase ∧ b.cache.SameAt r.ns b'.cache ∧
      ∃ more reviews failures, b.effects = es ++ more ∧ b'.effects = es' ++ more ∧
        c.Gains r.ns reviews failures b.cache ∧ c'.Gains r.ns reviews failures b'.cache := by
  induction n generalizing c c' r ms es es' with
  | zero =>
      have hnone (c : Cache) : c.Gains r.ns 0 0 c := ⟨fun _ _ => rfl, rfl, ⟨rfl, rfl, rfl⟩, rfl, rfl, rfl⟩
      exact ⟨rfl, h, [], 0, 0, (List.append_nil es).symm, (List.append_nil es').symm, hnone c, hnone c'⟩
  | succ n ih =>
      obtain ⟨hnext, heffect, hsame⟩ := sameAt_step h (ms 0)
      simp only [Alone.run, Alone.step, hnext, heffect]
      obtain ⟨hphase, hend, more, reviews, failures, hmore, hmore', hgains, hgains'⟩ :=
        ih (r := (r.step (ms 0) c).next) hsame (fun k => ms (k + 1))
          (es ++ (r.step (ms 0) c).effect.toList) (es' ++ (r.step (ms 0) c).effect.toList)
      refine ⟨hphase, hend, (r.step (ms 0) c).effect.toList ++ more, r.asking + reviews,
        r.failing + failures, ?_, ?_, (gains_step _ c r).trans hgains, (gains_step _ c' r).trans hgains'⟩
      · rw [hmore, List.append_assoc]
      · rw [hmore', List.append_assoc]

end Refresh

namespace ClusterHash

/-- Whether the kept digest is current, and nobody is computing one. -/
def Fresh (m : Moment) (h : ClusterHash) : Prop :=
  h.busy = false ∧
    ∃ x, h.last = some x ∧ x.versions = ⟨m.version .clusterRole, m.version .clusterRoleBinding⟩

/-- Whether a computation that found a current digest leaves it as it was. -/
def Keeps (m : Moment) (h now : ClusterHash) : Option Computation → Prop
  | none | some .enter | some (.done _) => now = h
  | some .readRolesVersion => now = { h with busy := true }
  | some (.readBindingsVersion roles) => now = { h with busy := true } ∧ roles = m.version .clusterRole
  | some (.listRoles _) | some (.listBindings _ _) => False

variable {m : Moment} {h now now' : ClusterHash} {comp comp' : Option Computation}

theorem keeps_step (hfresh : h.Fresh m) {c : Computation} (hkeeps : Keeps m h now (some c)) :
    Keeps m h (c.step m now).1 (some (c.step m now).2) ∧
      ((c.step m now).2.running = false → (c.step m now).1 = h) := by
  obtain ⟨busy, last⟩ := h
  obtain ⟨rfl, x, rfl, hversions⟩ := hfresh
  cases c with
  | enter =>
      obtain rfl : now = ⟨false, some x⟩ := hkeeps
      exact ⟨rfl, nofun⟩
  | readRolesVersion => exact ⟨⟨hkeeps, rfl⟩, nofun⟩
  | readBindingsVersion roles =>
      obtain ⟨rfl, rfl⟩ := hkeeps
      simp only [Computation.step, hversions, if_true]
      exact ⟨rfl, fun _ => rfl⟩
  | listRoles versions | listBindings versions roles => exact hkeeps.elim
  | done result => exact ⟨hkeeps, fun _ => hkeeps⟩

theorem Touch.keeps (ht : now.Touch m comp now' comp') (hfresh : h.Fresh m)
    (hkeeps : Keeps m h now comp) : Keeps m h now' comp' := by
  cases ht with
  | idle => exact hkeeps
  | enter => exact hkeeps
  | step c next hnext =>
      obtain ⟨hstep, hend⟩ := keeps_step hfresh hkeeps
      rcases hnext with rfl | ⟨rfl, hdone⟩
      · exact hstep
      · exact hend hdone

end ClusterHash

namespace Refresh

theorem computation?_of_result {r : Refresh} (h : r.result?.isSome = true) : r.computation? = none := by
  obtain ⟨ns, phase⟩ := r
  cases phase with
  | done result => rfl
  | _ => cases h

theorem clusterHash_run {m : Moment} {c : Cache} {r : Refresh} (hfresh : c.clusterHash.Fresh m)
    (hr : r.computation? = none) (n : Nat) (es : List Effect)
    (hend : (Alone.run step n (fun _ => m) ⟨c, r, es⟩).phase.result?.isSome = true) :
    (Alone.run step n (fun _ => m) ⟨c, r, es⟩).cache.clusterHash = c.clusterHash := by
  have hkeeps : ∀ n, ClusterHash.Keeps m c.clusterHash
      (Alone.run step n (fun _ => m) ⟨c, r, es⟩).cache.clusterHash
      (Alone.run step n (fun _ => m) ⟨c, r, es⟩).phase.computation? := by
    intro n
    induction n with
    | zero =>
        show ClusterHash.Keeps m c.clusterHash c.clusterHash r.computation?
        rw [hr]
        exact rfl
    | succ n ih =>
        rw [Alone.run_succ]
        exact (stepped m _ _).hash.keeps hfresh ih
  have hlast := hkeeps n
  rw [computation?_of_result hend] at hlast
  exact hlast

theorem consistent_run {c : Cache} (hc : c.Consistent) (n : Nat) (ms : Nat → Moment) (r : Refresh)
    (es : List Effect) : (Alone.run step n ms ⟨c, r, es⟩).cache.Consistent := by
  induction n with
  | zero => exact hc
  | succ n ih =>
      rw [Alone.run_succ]
      exact ih.touch (stepped _ _ _).touch

/-- What comes out of a refresh: the record, what it shows, and what it counts. -/
structure Verdict where
  record : Option Record
  effects : List Effect
  reviews : Nat
  failures : Nat

/-- What a refresh of a namespace with the given verdict does to the cache. -/
structure Verdict.Carried (v : Verdict) (ns : String) (c c' : Cache) : Prop where
  record : c'.records.get? ns = v.record
  clusterHash : c'.clusterHash = c.clusterHash
  gains : c.Gains ns v.reviews v.failures c'
  consistent : c.Consistent → c'.Consistent

theorem exists_verdict {m₀ : Moment} {c₀ : Cache} (hfresh : c₀.clusterHash.Fresh m₀) (t : Pass.Target) :
    ∃ v : Verdict, ∀ c es, c₀.SameAt t.1 c →
      Alone.Ends step m₀.Steady (fun b => b.phase.result?.isSome = true ∧ v.Carried t.1 c b.cache ∧
        b.effects = es ++ v.effects) ⟨c, .start t.1 t.2, es⟩ := by
  obtain ⟨n, hend⟩ := (returns ⟨c₀, .start t.1 t.2, []⟩).exists_steps fun _ => m₀
  let b₀ := Alone.run step n (fun _ => m₀) ⟨c₀, .start t.1 t.2, []⟩
  refine ⟨⟨b₀.cache.records.get? t.1, b₀.effects, b₀.cache.metrics.reviews - c₀.metrics.reviews,
    b₀.cache.metrics.reviewFailures - c₀.metrics.reviewFailures⟩, fun c es hc => ?_⟩
  refine (Alone.ends_run (fun m hm => hm.refresh_step) n _).mono ?_
  rintro _ rfl
  obtain ⟨hphase, hsame, more, reviews, failures, hmore, hmore', hgains, hgains'⟩ :=
    sameAt_run (r := .start t.1 t.2) hc n (fun _ => m₀) [] es
  have hdone : (Alone.run step n (fun _ => m₀) ⟨c, .start t.1 t.2, es⟩).phase.result?.isSome = true := by
    rw [hphase]
    exact hend
  refine ⟨hdone, ⟨hsame.record, ?_, ?_, fun hconsistent => consistent_run hconsistent _ _ _ _⟩, ?_⟩
  · refine clusterHash_run ?_ (computation?_start t.1 t.2) n es hdone
    rwa [hc.clusterHash]
  · have hreviews : b₀.cache.metrics.reviews - c₀.metrics.reviews = reviews := by
      rw [hgains.reviews, Nat.add_sub_cancel_left]
    have hfailures : b₀.cache.metrics.reviewFailures - c₀.metrics.reviewFailures = failures := by
      rw [hgains.failures, Nat.add_sub_cancel_left]
    rw [hreviews, hfailures]
    exact hgains'
  · rw [hmore']
    exact congrArg (es ++ ·) hmore.symm

end Refresh

end Visibility
