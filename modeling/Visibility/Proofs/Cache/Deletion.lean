import Visibility.Proofs.Cache.Consistency
import Visibility.Proofs.Cache.Freshness

/-!
Namespaces that are gone.

A call looks whether a namespace is there before it asks about it, and never again. So once a namespace is
absent and its record has been removed, it stays without a record as long as it is absent, provided that no
call is still on its way that found it before. Such a call brings the record back.
-/

namespace Visibility

/-- Whether a refresh has found a namespace or was told its hash, and may still store a record of it. -/
def Refresh.found (ns : String) (r : Refresh) : Bool :=
  match r.phase with
  | .hashCluster _ | .hashNamespace _ | .compare _ | .ask _ | .hear _ _ | .commit _ _ => r.ns = ns
  | _ => false

def Pass.Target.found (ns : String) (t : Target) : Bool := t.1 = ns && t.2.isSome

/-- Whether a pass has listed the namespace, and may still store a record of it. -/
def Pass.Phase.found (ns : String) : Phase → Bool
  | hashNamespaces _ _ left live => decide (ns ∈ left) || live.contains ns
  | compare _ _ live => live.any (·.contains ns)
  | refresh _ left r => r.found ns || left.any (Target.found ns)
  | _ => false

/-- Whether a call has found the namespace before, and may still store a record of it. -/
def Call.found (ns : String) : Call → Bool
  | refresh r => r.found ns
  | pass p => p.found ns

/-- Whether the next step of a refresh is to remove the record of a namespace that it did not find. -/
def Refresh.cleans (ns : String) (r : Refresh) : Bool :=
  match r.phase with
  | .remove => r.ns = ns
  | _ => false

/-- Whether the next step of a call is to remove the record of the namespace. -/
def Call.cleans (ns : String) : Call → Bool
  | refresh r => r.cleans ns
  | pass (.refresh _ _ r) => r.cleans ns
  | pass _ => false

theorem Moment.live_of_object {m : Moment} {ns : String} {o : Object}
    (h : m.object ns = .ok (some o)) : m.stores.live ns = true := by
  rw [object, ask] at h
  split at h
  · cases h
  · rw [Except.ok.injEq] at h
    exact Table.contains_eq_true_iff.2 ⟨o, h⟩

theorem Moment.live_of_mem_names {m : Moment} {names : List String} {ns : String}
    (h : m.names = .ok names) (hns : ns ∈ names) : m.stores.live ns = true := by
  rw [Moment.names, ask] at h
  split at h
  · cases h
  · rw [Except.ok.injEq] at h
    rw [← h] at hns
    exact Table.mem_keys_iff.1 hns

theorem Refresh.found_of_ne {r : Refresh} {ns : String} (h : r.ns ≠ ns) : r.found ns = false := by
  rw [found.eq_def, decide_eq_false h]
  split <;> rfl

theorem Refresh.found_step {m : Moment} {ns : String} (habsent : m.stores.live ns = false) (c : Cache)
    {r : Refresh} (h : r.found ns = false) : (r.step m c).next.found ns = false := by
  obtain ⟨k, phase⟩ := r
  by_cases hk : k = ns
  · subst hk
    simp only [step]
    cases phase with
    | exists? =>
        simp only [Phase.step]
        split
        · rename_i o ho
          rw [Moment.live_of_object ho] at habsent
          cases habsent
        · rfl
        · rfl
    | remove =>
        simp only [Phase.step]
        split
        · rfl
        · split <;> rfl
    | announce users groups => rfl
    | notify watchers users groups => cases watchers <;> rfl
    | done result => rfl
    | hashCluster request | hashNamespace cluster | compare hash | ask hash | hear hash answer
    | commit hash review => simp [found] at h
  · exact Refresh.found_of_ne hk

theorem Refresh.not_recorded_of_found {m : Moment} {c : Cache} {ns : String} {r : Refresh}
    (h : r.found ns = false) (record : Record) :
    (r.step m c).effect ≠ some (.recorded ns record) := by
  intro he
  obtain ⟨rfl, hash, review, hphase, -⟩ := Refresh.recorded_of_effect he
  simp [found, hphase] at h

theorem Refresh.found_start (ns : String) (t : Pass.Target) :
    (start t.1 t.2).found ns = t.found ns := by
  obtain ⟨k, hash⟩ := t
  cases hash with
  | none => simp [start, found, Pass.Target.found]
  | some hash => exact (Bool.and_true _).symm

namespace Pass

@[simp] theorem found_visit (ns : String) (plan : Plan) (ts : List Target) :
    (visit plan ts).found ns = ts.any (Target.found ns) := by
  cases ts with
  | nil => rfl
  | cons t left => rw [visit, Phase.found, Refresh.found_start, List.any_cons]

@[simp] theorem found_hashNext (ns cluster : String) (full : Bool) (left : List String)
    (live : Table (Option String)) :
    (hashNext cluster full left live).found ns = (decide (ns ∈ left) || live.contains ns) := by
  cases left with
  | nil => simp [hashNext, Phase.found]
  | cons k left => rfl

theorem found_step {m : Moment} {ns : String} (habsent : m.stores.live ns = false) (c : Cache)
    {p : Phase} (h : p.found ns = false) : (p.step m c).next.found ns = false := by
  cases p with
  | enter =>
      simp only [Phase.step]
      split <;> rfl
  | hashCluster computation =>
      simp only [Phase.step]
      split <;> rfl
  | listNames cluster full =>
      simp only [Phase.step]
      split
      · rename_i names hnames
        have hns : ns ∉ m.order names := by
          intro hmem
          rw [Moment.live_of_mem_names hnames ((m.order_perm names).mem_iff.1 hmem)] at habsent
          cases habsent
        rw [found_hashNext, decide_eq_false hns]
        rfl
      · rfl
  | hashNamespaces cluster full left live =>
      cases left with
      | nil => simpa [Phase.step, Phase.found] using h
      | cons k left =>
          simp only [Phase.found, Bool.or_eq_false_iff, decide_eq_false_iff_not, List.mem_cons,
            not_or] at h
          simp only [Phase.step, found_hashNext, Table.contains_insert]
          simp [h.1.1, h.1.2, h.2]
  | compare cluster full live =>
      simp only [Phase.step, found_visit, List.any_eq_false]
      intro t ht
      cases live with
      | none =>
          obtain ⟨k, -, rfl⟩ := List.mem_map.1 ht
          simp [Target.found]
      | some live =>
          obtain ⟨k, -, rfl⟩ := List.mem_map.1 ht
          have hlive : live.get? ns = none := by
            simpa [Phase.found, Table.contains] using h
          by_cases hk : k = ns
          · simp [Target.found, hk, hlive]
          · simp [Target.found, hk]
  | refresh plan left r =>
      simp only [Phase.found, Bool.or_eq_false_iff] at h
      simp only [Phase.step]
      split
      · rw [found_visit, h.2]
      · rw [Phase.found, Refresh.found_step habsent c h.1, h.2]
        rfl
  | finish plan => rfl
  | done result => rfl

end Pass

/-- A call that has not found an absent namespace does not find it as long as it is absent, and stores no
record of it. -/
theorem Call.found_step {m : Moment} {ns : String} (habsent : m.stores.live ns = false) (c : Cache)
    {call : Call} (h : call.found ns = false) :
    (call.step m c).next.found ns = false ∧
      ∀ record, (call.step m c).effect ≠ some (.recorded ns record) := by
  cases call with
  | refresh r => exact ⟨Refresh.found_step habsent c h, Refresh.not_recorded_of_found h⟩
  | pass p =>
      refine ⟨Pass.found_step habsent c h, fun record he => ?_⟩
      obtain ⟨plan, left, r, rfl, hr⟩ := Pass.exists_refresh_of_effect he
      have hfound : r.found ns = false := (Bool.or_eq_false_iff.1 h).1
      exact Refresh.not_recorded_of_found hfound record hr

theorem Refresh.get?_of_cleans {m : Moment} {c : Cache} {ns : String} {r : Refresh}
    (h : r.cleans ns = true) : (r.step m c).cache.records.get? ns = none := by
  obtain ⟨k, phase⟩ := r
  cases phase with
  | remove =>
      have hk : k = ns := by simpa [cleans] using h
      subst hk
      have hnone : (c.remove k).1.records.get? k = none := (c.get?_remove k k).trans (if_pos rfl)
      simp only [step, Phase.step]
      split
      · rename_i c' hc
        rwa [hc] at hnone
      · rename_i c' r hc
        rw [hc] at hnone
        split <;> exact hnone
  | _ => cases h

theorem Call.get?_of_cleans {m : Moment} {c : Cache} {ns : String} {call : Call}
    (h : call.cleans ns = true) : (call.step m c).cache.records.get? ns = none := by
  cases call with
  | refresh r => exact Refresh.get?_of_cleans h
  | pass p =>
      cases p with
      | refresh plan left r =>
          have hnone : (r.step m c).cache.records.get? ns = none := Refresh.get?_of_cleans h
          simp only [step, Pass.Phase.step]
          split <;> exact hnone
      | _ => cases h

namespace System

/-- A namespace without a record that no call has found. -/
structure Forgot (s : System) (ns : String) : Prop where
  record : s.cache.records.get? ns = none
  calls : ∀ a ∈ s.attempts, a.call.found ns = false

variable {s : System} {ns : String}

theorem Forgot.next {e : Event} (h : s.Forgot ns) (he : ownHashes s e)
    (habsent : s.stores.live ns = false) : (s.next e).Forgot ns := by
  cases e with
  | change c => exact ⟨h.record, h.calls⟩
  | launch l =>
      refine ⟨h.record, fun a ha => ?_⟩
      rcases List.mem_append.1 ha with ha | ha
      · exact h.calls a ha
      · cases List.mem_singleton.1 ha
        cases l with
        | pass => rfl
        | refresh k hash =>
            cases hash with
            | none => rfl
            | some hash =>
                -- a refresh that is told a hash does not look whether the namespace is there
                exact he.elim
  | move i m =>
      simp only [System.next]
      cases hi : s.attempts[i]? with
      | none => exact h
      | some a =>
          obtain ⟨hnext, hrecorded⟩ := Call.found_step (m := s.moment m) habsent s.cache
            (h.calls a (List.mem_of_getElem? hi))
          refine ⟨Option.eq_none_iff_forall_ne_some.2 fun r hr => ?_, fun b hb => ?_⟩
          · rcases records_advance hr with ⟨hold, -⟩ | ⟨heffect, -⟩
            · rw [h.record] at hold
              cases hold
            · exact hrecorded r heffect
          · rcases List.mem_or_eq_of_mem_set hb with hb | rfl
            · exact h.calls b hb
            · exact hnext
  | watch w => exact ⟨h.record, h.calls⟩
  | unwatch w => exact ⟨h.record, h.calls⟩

theorem Forgot.run {events : List Event} (h : s.Forgot ns)
    (hown : ∀ e ∈ events, ∀ s, ownHashes s e)
    (habsent : ∀ k, (s.run (events.take k)).stores.live ns = false) : (s.run events).Forgot ns := by
  induction events generalizing s with
  | nil => exact h
  | cons e events ih =>
      rw [List.forall_mem_cons] at hown
      exact ih (h.next (hown.1 s) (habsent 0)) hown.2 fun k => habsent (k + 1)

/-- Neither a record of a namespace nor an entry in the index. -/
def Unrecorded (s : System) (ns : String) : Prop :=
  s.cache.records.get? ns = none ∧
    (∀ u names, s.cache.subjects.users.get? u = some names → ns ∉ names) ∧
    ∀ g names, s.cache.subjects.groups.get? g = some names → ns ∉ names

theorem Reachable.unrecorded {allowed : System → Event → Prop} (h : Reachable allowed s)
    (hnone : s.cache.records.get? ns = none) : s.Unrecorded ns := by
  refine ⟨hnone, fun u names hu hns => ?_, fun g names hg hns => ?_⟩
  · obtain ⟨r, hr, -⟩ := (h.consistent.users.mem_iff u ns).1 ⟨names, hu, hns⟩
    rw [hnone] at hr
    cases hr
  · obtain ⟨r, hr, -⟩ := (h.consistent.groups.mem_iff g ns).1 ⟨names, hg, hns⟩
    rw [hnone] at hr
    cases hr

/-- A namespace that is absent, and whose record a call has cleaned up, gets no record and no entry in the
index as long as it stays absent, if no call is on its way that found it before. -/
theorem unrecorded_after_cleanup (h : Reachable ownHashes s) {i : Nat} {a : Attempt} (m : Moment)
    (hi : s.attempts[i]? = some a) (hcleans : a.call.cleans ns = true)
    (hfound : ∀ b ∈ (s.next (.move i m)).attempts, b.call.found ns = false) {events : List Event}
    (hown : ∀ e ∈ events, ∀ s, ownHashes s e)
    (habsent : ∀ k, ((s.next (.move i m)).run (events.take k)).stores.live ns = false) :
    ((s.next (.move i m)).run events).Unrecorded ns := by
  have hnext : Reachable ownHashes (s.next (.move i m)) := .next h trivial
  have hforgot : (s.next (.move i m)).Forgot ns := by
    refine ⟨?_, hfound⟩
    simp only [System.next, hi]
    exact Call.get?_of_cleans hcleans
  exact (hnext.run hown).unrecorded (hforgot.run hown habsent).record

theorem stores_run_of_moves {events : List Event} (h : ∀ e ∈ events, ∃ i m, e = .move i m) :
    (s.run events).stores = s.stores := by
  induction events generalizing s with
  | nil => rfl
  | cons e events ih =>
      rw [List.forall_mem_cons] at h
      obtain ⟨⟨i, m, rfl⟩, hall⟩ := h
      exact (ih hall).trans (stores_move s i m)

/-- The namespace that the pass recorded is gone, and a refresh is about to remove its record. -/
def goneSample : System :=
  ((sample.next (.change (.delete .namespaces "" "a"))).next (.launch (.refresh "a" none))).next
    (.move 1 (sampleMoment {}))

/-- A binding comes in, a refresh finds the namespace and asks about it, and while the reviewer thinks
the namespace is deleted and another refresh is about to remove its record. -/
def overtakenSample : System :=
  ((((((sample.next (.change (.apply (.rbac .roleBinding)
      { name := some "b", ns := some "a", uid := some "y", resourceVersion := some "1" }))).next
    (.launch (.refresh "a" none))).run (List.replicate 7 (.move 1 (sampleMoment {})))).next
    (.change (.delete .namespaces "" "a"))).next (.launch (.refresh "a" none))).next
    (.move 2 (sampleMoment {})))

theorem reachable_sample_own : Reachable ownHashes sample :=
  reachable_sample (fun _ _ => trivial) (fun _ => trivial) fun _ => trivial

theorem reachable_overtakenSample : Reachable ownHashes overtakenSample := by
  refine .next (.next (.next (Reachable.run (.next (.next reachable_sample_own trivial) trivial) ?_)
    trivial) trivial) trivial
  intro e he s
  rw [List.eq_of_mem_replicate he]
  exact trivial

theorem cleans_goneSample :
    ∃ a, goneSample.attempts[1]? = some a ∧ a.call.cleans "a" = true := by
  have h : goneSample.attempts[1]?.map (·.call.cleans "a") = some true := by decide +kernel
  exact Option.map_eq_some_iff.1 h

theorem cleans_overtakenSample :
    ∃ a, overtakenSample.attempts[2]? = some a ∧ a.call.cleans "a" = true := by
  have h : overtakenSample.attempts[2]?.map (·.call.cleans "a") = some true := by decide +kernel
  exact Option.map_eq_some_iff.1 h

theorem unrecorded_after_cleanup_sample :
    ((goneSample.next (.move 1 (sampleMoment {}))).run
      (List.replicate 9 (.move 1 (sampleMoment {})))).Unrecorded "a" := by
  obtain ⟨a, hi, hcleans⟩ := cleans_goneSample
  have hreachable : Reachable ownHashes goneSample :=
    .next (.next (.next reachable_sample_own trivial) trivial) trivial
  have hfound : ∀ b ∈ (goneSample.next (.move 1 (sampleMoment {}))).attempts,
      b.call.found "a" = false := by decide +kernel
  refine unrecorded_after_cleanup hreachable _ hi hcleans hfound ?_ ?_
  · intro e he s
    rw [List.eq_of_mem_replicate he]
    exact trivial
  · intro k
    rw [stores_run_of_moves]
    · decide +kernel
    · intro e he
      exact ⟨1, sampleMoment {}, List.eq_of_mem_replicate (List.mem_of_mem_take he)⟩

/-- A call that has found the namespace before it was deleted brings its record back after the cleanup. -/
theorem recorded_again_after_cleanup :
    ¬ ∀ (s : System) (i : Nat) (a : Attempt) (m : Moment) (ns : String) (events : List Event),
      Reachable ownHashes s → s.attempts[i]? = some a → a.call.cleans ns = true →
      (∀ e ∈ events, ∀ s, ownHashes s e) →
      (∀ k, ((s.next (.move i m)).run (events.take k)).stores.live ns = false) →
      ((s.next (.move i m)).run events).Unrecorded ns := by
  intro h
  obtain ⟨a, hi, hcleans⟩ := cleans_overtakenSample
  have hunrecorded := h overtakenSample 2 a (sampleMoment {}) "a"
    (List.replicate 2 (.move 1 (sampleMoment {}))) reachable_overtakenSample hi hcleans
    (fun e he s => by
      rw [List.eq_of_mem_replicate he]
      exact trivial)
    (fun k => by
      rw [stores_run_of_moves]
      · decide +kernel
      · intro e he
        exact ⟨1, sampleMoment {}, List.eq_of_mem_replicate (List.mem_of_mem_take he)⟩)
  have hrecord : ((overtakenSample.next (.move 2 (sampleMoment {}))).run
      (List.replicate 2 (.move 1 (sampleMoment {})))).cache.records.contains "a" = true := by
    decide +kernel
  rw [Table.contains, hunrecorded.1] at hrecord
  cases hrecord

end System

end Visibility
