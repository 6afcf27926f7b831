import Mathlib.Data.Multiset.Defs
import Visibility.Proofs.Cache.Freshness
import Visibility.Proofs.Cache.Listing
import Visibility.Proofs.Cache.Synchronization

/-!
Whether a pass that runs alone brings the cache to what the reviewer answers about the stores.

It does for every namespace that it asks about. A namespace whose record already carries the hash of
the stores is not asked about again, and the hash was taken before the review. So the cache converges
if and only if the answer in each such record is still the current one.
-/

namespace Visibility

open Rbac (Ref)

/-- A reviewer whose answer, the users and the groups of a namespace, depends on the references of the
cluster-scoped objects and of the namespace's own, in any order. -/
abbrev Answer := String → Multiset Ref → Multiset Ref → NameSet × NameSet

namespace Stores

/-- What a reviewer who looks at contents alone answers about a namespace of these stores. -/
def answer (s : Stores) (f : Answer) (ns : String) : NameSet × NameSet :=
  f ns s.clusterRefs (s.rbac.listNamespaced ns)

/-- The namespaces about which the answer names a user or one of its groups, in order of names. -/
def visible (s : Stores) (f : Answer) (u : User) : List Object :=
  (s.namespaces.objects.entries.filter fun e =>
    (s.answer f e.1).1.contains u.name || u.groups.any (s.answer f e.1).2.contains).map (·.2)

end Stores

/-- A review that was made without doubts and gives the answer on the stores. -/
def Answer.admits (f : Answer) (s : Stores) (ns : String) (review : Review) : Prop :=
  review.evaluationError = none →
    (NameSet.ofList review.users, NameSet.ofList review.groups) = s.answer f ns

/-- The reviewer gives the answers on the stores, if it answers. -/
def Answer.GivenAt (f : Answer) (s : Stores) (m : Moment) : Prop :=
  ∀ ns review, m.reviewer ns = .ok review → f.admits s ns review

/-- Every live namespace has a record of the reviewer's answer on the stores, and a user without scopes
who lists everything while nothing else happens gets what the answers name it for. -/
structure Cache.Converged (c : Cache) (stores : Stores) (f : Answer) : Prop where
  records : ∀ ns, stores.live ns = true →
    ∃ r, c.records.get? ns = some r ∧ (r.users, r.groups) = stores.answer f ns
  listed : ∀ u : User, u.scopes = [] → ∀ ms : Nat → Moment, (∀ k, (ms k).Faultless stores) →
    ∃ n, (Alone.run Listing.progress n ms ⟨c, .start u .everything, []⟩).phase.phase =
      .done (.ok (stores.visible f u))

theorem Alone.consistent_run {n : Nat} {ms : Nat → Moment} {a : Alone Pass.Phase}
    (h : a.cache.Consistent) : (a.run Pass.Phase.step n ms).cache.Consistent := by
  induction n generalizing ms a with
  | zero => exact h
  | succ n ih => exact ih (h.touch (Pass.touch (ms 0) a.cache a.phase))

theorem Cache.Consistent.converged {c : Cache} {stores : Stores} {f : Answer} (hc : c.Consistent)
    (hlive : ∀ ns, c.records.contains ns = stores.live ns)
    (hrecords : ∀ ns r, c.records.get? ns = some r → (r.users, r.groups) = stores.answer f ns) :
    c.Converged stores f where
  records ns hns := by
    rw [← hlive, Table.contains_eq_true_iff] at hns
    obtain ⟨r, hr⟩ := hns
    exact ⟨r, hr, hrecords ns r hr⟩
  listed u hu ms hms := by
    have hnames : ∀ ns r, c.records.get? ns = some r → r.names u =
        ((stores.answer f ns).1.contains u.name || u.groups.any (stores.answer f ns).2.contains) := by
      intro ns r hr
      rw [← hrecords ns r hr]
      rfl
    exact (Listing.ends_start (fun _ hm => hm) hc hlive hu hnames []).exists_run hms

theorem Cache.Synchronized.answer_eq {c c' : Cache} {stores : Stores} {f : Answer}
    (h : c.Synchronized c' stores fun m => m.Calm stores ∧ f.GivenAt stores m) {ns : String}
    (hns : ns ∈ c.stale stores) {r : Record} (hr : c'.records.get? ns = some r) :
    (r.users, r.groups) = stores.answer f ns := by
  obtain ⟨r', ⟨m, users, groups, ⟨-, hgiven⟩, hreview, rfl⟩, hr'⟩ := h.fresh ns hns
  rw [hr] at hr'
  cases hr'
  exact hgiven ns _ hreview rfl

namespace System

variable {s : System} {f : Answer}

theorem Traced.answer_eq (h : s.Traced f.admits) {ns : String} {r : Record}
    (hr : s.cache.records.get? ns = some r) :
    (r.users, r.groups) = (s.history (s.requested ns)).answer f ns := by
  obtain ⟨-, review, hadmits, herror, husers, hgroups⟩ := h.records ns r hr
  rw [husers, hgroups]
  exact hadmits herror

theorem Traced.answer_current (h : s.Traced f.admits) (hnever : s.NeverReturns) {ns : String}
    (hfree : s.CollisionFree ns) {r : Record} (hr : s.cache.records.get? ns = some r)
    (hhash : r.hash = s.stores.hash ns) :
    (s.history (s.requested ns)).answer f ns = s.stores.answer f ns := by
  obtain ⟨hroles, hbindings, hrefs⟩ :=
    h.unchanged hnever hfree hr hhash (Nat.le_refl _) (h.requested_le ns)
  have hcluster : ((s.history (s.requested ns)).clusterRefs : Multiset Ref) = s.stores.clusterRefs :=
    Multiset.coe_eq_coe.2 (hroles.append hbindings)
  have hlocal : ((s.history (s.requested ns)).rbac.listNamespaced ns : Multiset Ref) =
      s.stores.rbac.listNamespaced ns := Multiset.coe_eq_coe.2 hrefs
  rw [Stores.answer, Stores.answer, hcluster, hlocal]

/-- After a pass that ran alone the cache has converged if and only if the records that the pass did not
look into again still tell the current answers. -/
theorem Traced.converged_iff (h : s.Traced f.admits) {c : Cache} (hc : c.Consistent)
    (hsync : s.cache.Synchronized c s.stores fun m => m.Calm s.stores ∧ f.GivenAt s.stores m) :
    c.Converged s.stores f ↔ ∀ ns, s.stores.live ns = true → ns ∉ s.cache.stale s.stores →
      (s.history (s.requested ns)).answer f ns = s.stores.answer f ns := by
  constructor
  · intro hconverged ns hns hkeep
    obtain ⟨r, hr, -, hr'⟩ := hsync.exists_kept hns hkeep
    obtain ⟨r', hget, hanswer⟩ := hconverged.records ns hns
    rw [hr'] at hget
    cases hget
    rw [← h.answer_eq hr, hanswer]
  · intro hcurrent
    refine hc.converged hsync.contains_eq fun ns r hr => ?_
    have hns : s.stores.live ns = true := by
      rw [← hsync.contains_eq, Table.contains, hr, Option.isSome_some]
    by_cases hstale : ns ∈ s.cache.stale s.stores
    · exact hsync.answer_eq hstale hr
    · obtain ⟨r', hr', -, hget⟩ := hsync.exists_kept hns hstale
      rw [hr] at hget
      cases hget
      rw [h.answer_eq hr', hcurrent ns hns hstale]

/-- A pass that runs alone and in which nothing fails makes the cache converge if and only if, of every
live namespace whose record carried the hash of the stores already, the answer when its review was
requested is the current one. This is so if no content ever returned and no hash collides. -/
theorem converged_iff_of_lone_pass (h : Reachable (faithful f.admits) s) (hfree : s.Free)
    {ms : Nat → Moment} (hms : ∀ k, (ms k).Calm s.stores ∧ f.GivenAt s.stores (ms k)) :
    ∃ n, let a := Pass.alone n ms s.cache
      (∃ o, a.phase = .done (.ok o)) ∧
      (a.cache.Converged s.stores f ↔
        ∀ ns, s.stores.live ns = true → ns ∉ s.cache.stale s.stores →
          (s.history (s.requested ns)).answer f ns = s.stores.answer f ns) ∧
      (s.NeverReturns → (∀ ns, s.stores.live ns = true → s.CollisionFree ns) →
        a.cache.Converged s.stores f) := by
  obtain ⟨n, ha⟩ := Pass.exists_completed (f.GivenAt s.stores) (h.settled hfree) hms
  have hiff := h.traced.converged_iff (Alone.consistent_run h.consistent) ha.synchronized
  refine ⟨n, ⟨_, ha.phase⟩, hiff, fun hnever hcollision => hiff.2 fun ns hns hkeep => ?_⟩
  obtain ⟨r, hr, hhash, -⟩ := ha.synchronized.exists_kept hns hkeep
  exact h.traced.answer_current hnever (hcollision ns hns) hr hhash

/-- A reviewer who always gives the same answer. -/
def sampleAnswer : Answer := fun _ _ _ => (NameSet.ofList ["u"], NameSet.ofList ["g"])

theorem eq_of_live {stores : Stores} {name ns : String} {o : Object}
    (h : stores.namespaces.objects = (∅ : Table Object).insert name o)
    (hns : stores.live ns = true) : ns = name := by
  rw [Stores.live, h, Table.contains_insert] at hns
  simpa [Table.contains] using hns

theorem converged_iff_sample :
    Reachable (faithful sampleAnswer.admits) sample ∧ sample.Idle ∧ sample.NeverReturns ∧
      (∀ ns, sample.stores.live ns = true → sample.CollisionFree ns) ∧
      ∃ n, let a := Pass.alone n (fun _ => sampleMoment sample.stores) sample.cache
        (∃ o, a.phase = .done (.ok o)) ∧ a.cache.Converged sample.stores sampleAnswer := by
  have hgiven : ∀ stores stores', sampleAnswer.GivenAt stores (sampleMoment stores') := by
    rintro stores stores' ns review ⟨⟩ -
    rfl
  have h : Reachable (faithful sampleAnswer.admits) sample :=
    reachable_sample (fun _ _ => trivial) (fun _ => trivial) fun s => hgiven s.stores {}
  have hidle : sample.Idle := by
    rw [Idle]
    decide +kernel
  have hcollision : ∀ ns, sample.stores.live ns = true → sample.CollisionFree ns := by
    intro ns hns
    have hlive : sample.stores.namespaces.objects =
        (∅ : Table Object).insert "a" { name := some "a" } := by decide +kernel
    rw [eq_of_live hlive hns]
    exact ⟨by decide +kernel, by decide +kernel⟩
  obtain ⟨n, hdone, -, hconverged⟩ := converged_iff_of_lone_pass h hidle.free
    fun _ => ⟨⟨⟨rfl, fun _ => rfl⟩, fun _ _ => ⟨_, _, rfl⟩⟩, hgiven _ sample.stores⟩
  exact ⟨h, hidle, neverReturns_sample, hcollision, n, hdone,
    hconverged neverReturns_sample hcollision⟩

/-- Whoever may see a namespace may see it by a binding in the cluster. -/
def bindingAnswer : Answer := fun _ cluster _ =>
  if cluster.card = 0 then (∅, ∅) else (NameSet.ofList ["m"], ∅)

/-- A pass has hashed the cluster without a binding, and then one comes. -/
def boundSample : System :=
  (((System.next {} (.change (.apply .namespaces { name := some "a" }))).next
    (.launch .pass)).run (List.replicate 6 (.move 0 (reviewing {} [])))).next
    (.change (.apply (.rbac .clusterRoleBinding)
      { name := some "b", uid := some "x", resourceVersion := some "1" }))

/-- The pass goes on to its end, and the binding goes. -/
def returnedSample : System :=
  (boundSample.run (List.replicate 11 (.move 0 (reviewing {} ["m"])))).next
    (.change (.delete (.rbac .clusterRoleBinding) "" "b"))

theorem givenAt_reviewing {stores stores' : Stores} {users : List String}
    (h : ∀ ns, stores.answer f ns = (NameSet.ofList users, ∅)) :
    f.GivenAt stores (reviewing stores' users) := by
  rintro ns review ⟨⟩ -
  exact (h ns).symm

theorem reachable_returnedSample : Reachable (faithful bindingAnswer.admits) returnedSample := by
  have hempty : Reachable (faithful bindingAnswer.admits)
      ((System.next {} (.change (.apply .namespaces { name := some "a" }))).next
        (.launch .pass)) := .next (.next .init trivial) trivial
  have hbound : boundSample.stores.clusterRefs = [⟨.clusterRoleBinding, "x", "1"⟩] := by
    decide +kernel
  refine .next (Reachable.moves ?_ 0 (givenAt_reviewing fun ns => ?_) 11) trivial
  · exact .next (hempty.moves 0 (givenAt_reviewing fun ns => rfl) 6) trivial
  · rw [Stores.answer, hbound]
    rfl

theorem collisionFree_returnedSample {ns : String} (hns : returnedSample.stores.live ns = true) :
    returnedSample.CollisionFree ns := by
  have hlive : returnedSample.stores.namespaces.objects =
      (∅ : Table Object).insert "a" { name := some "a" } := by decide +kernel
  rw [eq_of_live hlive hns]
  exact ⟨by decide +kernel, by decide +kernel⟩

theorem calm_reviewing (stores : Stores) (users : List String) :
    (reviewing stores users).Calm stores :=
  ⟨⟨rfl, fun _ => rfl⟩, fun _ _ => ⟨users, [], rfl⟩⟩

theorem givenAt_returnedSample :
    bindingAnswer.GivenAt returnedSample.stores (reviewing returnedSample.stores []) := by
  have hrefs : returnedSample.stores.clusterRefs = [] := by decide +kernel
  refine givenAt_reviewing fun ns => ?_
  rw [Stores.answer, hrefs]
  rfl

/-- A pass that runs alone and in which nothing fails does not always make the cache converge, although
no hash collides. -/
theorem not_converged_of_returned :
    ¬ ∀ (s : System) (f : Answer) (ms : Nat → Moment) (n : Nat) (o : Pass.Outcome),
      Reachable (faithful f.admits) s → s.Idle →
      (∀ ns, s.stores.live ns = true → s.CollisionFree ns) →
      (∀ k, (ms k).Calm s.stores ∧ f.GivenAt s.stores (ms k)) →
      (Pass.alone n ms s.cache).phase = .done (.ok o) →
      (Pass.alone n ms s.cache).cache.Converged s.stores f := by
  intro h
  let ms : Nat → Moment := fun _ => reviewing returnedSample.stores []
  have hidle : returnedSample.Idle := by
    rw [Idle]
    decide +kernel
  have hdone : (Pass.alone 12 ms returnedSample.cache).phase.outcome? = some .skipped := by
    decide +kernel
  have hconverged := h returnedSample bindingAnswer ms 12 .skipped reachable_returnedSample hidle
    (fun _ => collisionFree_returnedSample) (fun _ => ⟨calm_reviewing _ _, givenAt_returnedSample⟩)
    (Pass.Phase.eq_done_of_outcome? hdone)
  obtain ⟨r, hr, hanswer⟩ := hconverged.records "a" (by decide +kernel)
  have husers : ((Pass.alone 12 ms returnedSample.cache).cache.records.get? "a").map (·.users) =
      some (NameSet.ofList ["m"]) := by decide +kernel
  have hrefs : returnedSample.stores.clusterRefs = [] := by decide +kernel
  rw [hr, Option.map_some, Option.some.injEq] at husers
  rw [Stores.answer, hrefs, husers] at hanswer
  have hmembers : NameSet.ofList ["m"] = ∅ := congrArg Prod.fst hanswer
  exact absurd hmembers (by decide)

end System

end Visibility
