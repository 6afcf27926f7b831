import Mathlib.Data.List.Induction
import Visibility.Proofs.Cache.Freshness

/-!
The order in which reviews are committed.

A call asks the reviewer, waits, and commits the answer without a look at what others have committed in
the meantime. So the record of a newer review can be replaced by that of an older one; but then the newer
review was requested and committed while the call with the older one was waiting. Reviews of which one is
committed before the other is requested are committed in the order of their requests.
-/

namespace Visibility

open Rbac (Ref)

/-- The namespace that a call has requested a review of and not committed it yet. -/
def Refresh.reviewing? (r : Refresh) : Option String :=
  match r.phase with
  | .hear _ _ | .commit _ _ => some r.ns
  | _ => none

def Pass.Phase.reviewing? : Phase → Option String
  | refresh _ _ r => r.reviewing?
  | _ => none

/-- The namespace whose answer a call is waiting for. -/
def Call.reviewing? : Call → Option String
  | refresh r => r.reviewing?
  | pass p => p.reviewing?

theorem Refresh.reviewing?_start (ns : String) (hash : Option String) :
    (start ns hash).reviewing? = none := by cases hash <;> rfl

theorem Pass.reviewing?_visit (plan : Plan) (ts : List Target) :
    (visit plan ts).reviewing? = none := by
  cases ts with
  | nil => rfl
  | cons t left => exact Refresh.reviewing?_start t.1 t.2

theorem Pass.reviewing?_hashNext (cluster : String) (full : Bool) (left : List String)
    (live : Table (Option String)) : (hashNext cluster full left live).reviewing? = none := by
  rw [hashNext]
  split <;> rfl

theorem Refresh.reviewing?_step {m : Moment} {c : Cache} {r : Refresh} {ns : String}
    (h : (r.step m c).next.reviewing? = some ns) :
    (r.step m c).effect = some (.asked ns) ∨
      r.reviewing? = some ns ∧ (r.step m c).effect = none := by
  obtain ⟨k, phase⟩ := r
  simp only [Refresh.step] at h ⊢
  cases phase with
  | exists? =>
      simp only [Phase.step] at h
      split at h <;> cases h
  | remove =>
      simp only [Phase.step] at h
      split at h
      · cases h
      · split at h <;> cases h
  | hashCluster request =>
      simp only [Phase.step] at h
      split at h <;> cases h
  | hashNamespace cluster =>
      simp only [Phase.step] at h
      split at h <;> cases h
  | compare hash =>
      simp only [Phase.step] at h
      split at h <;> cases h
  | ask hash =>
      cases h
      exact .inl rfl
  | hear hash answer =>
      right
      cases answer with
      | error reason => cases h
      | ok review =>
          simp only [Phase.step] at h ⊢
          split at h
          · cases h
          · cases h
            exact ⟨rfl, rfl⟩
  | commit hash review =>
      simp only [Phase.step] at h
      split at h <;> cases h
  | announce users groups => cases h
  | notify watchers users groups => cases watchers <;> cases h
  | done result => cases h

theorem Call.reviewing?_step {m : Moment} {c : Cache} {call : Call} {ns : String}
    (h : (call.step m c).next.reviewing? = some ns) :
    (call.step m c).effect = some (.asked ns) ∨
      call.reviewing? = some ns ∧ (call.step m c).effect = none := by
  cases call with
  | refresh r => exact Refresh.reviewing?_step h
  | pass p =>
      simp only [step, reviewing?] at h ⊢
      cases p with
      | enter =>
          simp only [Pass.Phase.step] at h
          split at h <;> cases h
      | hashCluster computation =>
          simp only [Pass.Phase.step] at h
          split at h <;> cases h
      | listNames cluster full =>
          simp only [Pass.Phase.step] at h
          split at h
          · rw [Pass.reviewing?_hashNext] at h
            cases h
          · cases h
      | hashNamespaces cluster full left live =>
          cases left with
          | nil => cases h
          | cons n left =>
              simp only [Pass.Phase.step] at h
              rw [Pass.reviewing?_hashNext] at h
              cases h
      | compare cluster full live =>
          simp only [Pass.Phase.step] at h
          rw [Pass.reviewing?_visit] at h
          cases h
      | refresh plan left r =>
          simp only [Pass.Phase.step] at h ⊢
          split at h
          · rw [Pass.reviewing?_visit] at h
            cases h
          · exact Refresh.reviewing?_step h
      | finish plan => cases h
      | done result => cases h

theorem Refresh.reviewing?_of_recorded {m : Moment} {c : Cache} {r : Refresh} {ns : String}
    {record : Record} (h : (r.step m c).effect = some (.recorded ns record)) :
    r.reviewing? = some ns := by
  obtain ⟨rfl, hash, review, hphase, -⟩ := Refresh.recorded_of_effect h
  rw [Refresh.reviewing?, hphase]

theorem Call.reviewing?_of_recorded {m : Moment} {c : Cache} {call : Call} {ns : String}
    {record : Record} (h : (call.step m c).effect = some (.recorded ns record)) :
    call.reviewing? = some ns := by
  cases call with
  | refresh r => exact Refresh.reviewing?_of_recorded h
  | pass p =>
      obtain ⟨plan, left, r, rfl, hr⟩ := Pass.exists_refresh_of_effect h
      exact Refresh.reviewing?_of_recorded hr

namespace System

/-- The call with an index waits for a review of a namespace that it requested at a time. -/
def Waits (s : System) (i : Nat) (ns : String) (t : Nat) : Prop :=
  ∃ a, s.attempts[i]? = some a ∧ a.call.reviewing? = some ns ∧ a.asked = t

/-- The next step of an attempt, at a moment, stores a record of a namespace. -/
def Commits (s : System) (i : Nat) (m : Moment) (ns : String) (a : Attempt) : Prop :=
  s.attempts[i]? = some a ∧
    ∃ r, (a.call.step (s.moment m) s.cache).effect = some (.recorded ns r)

variable {s : System} {i : Nat} {m : Moment} {ns : String} {t : Nat}

theorem Commits.waits {a : Attempt} (h : s.Commits i m ns a) : s.Waits i ns a.asked := by
  obtain ⟨hi, r, hr⟩ := h
  exact ⟨a, hi, Call.reviewing?_of_recorded hr, rfl⟩

theorem now_le_next (s : System) (e : Event) : s.now ≤ (s.next e).now := by
  cases e with
  | move i m =>
      simp only [next]
      split
      · exact Nat.le_refl _
      · exact Nat.le_succ _
  | change c | launch l | watch w | unwatch w => exact Nat.le_succ _

theorem now_le_run (s : System) (events : List Event) : s.now ≤ (s.run events).now := by
  induction events generalizing s with
  | nil => exact Nat.le_refl _
  | cons e events ih => exact Nat.le_trans (s.now_le_next e) (ih (s.next e))

theorem run_concat (s : System) (events : List Event) (e : Event) :
    s.run (events ++ [e]) = (s.run events).next e := by
  rw [run, run, List.foldl_append, List.foldl_cons, List.foldl_nil]

theorem run_take_add (s : System) (events : List Event) (k : Nat) :
    s.run events = (s.run (events.take k)).run (events.drop k) := by
  rw [run, run, run, ← List.foldl_append, List.take_append_drop]

theorem Waits.of_next {e : Event} (h : (s.next e).Waits i ns t) :
    s.Waits i ns t ∨ t = s.now ∧ s.now < (s.next e).now := by
  obtain ⟨a, hi, hreviewing, rfl⟩ := h
  cases e with
  | change c => exact .inl ⟨a, hi, hreviewing, rfl⟩
  | launch l =>
      simp only [next] at hi
      rw [List.getElem?_append] at hi
      split at hi
      · exact .inl ⟨a, hi, hreviewing, rfl⟩
      · have ha := List.mem_singleton.1 (List.mem_of_getElem? hi)
        rw [ha] at hreviewing
        cases l with
        | pass => cases hreviewing
        | refresh k hash =>
            simp only [Launch.call, Call.reviewing?, Refresh.reviewing?_start] at hreviewing
            cases hreviewing
  | move j m =>
      simp only [next] at hi ⊢
      cases hj : s.attempts[j]? with
      | none =>
          rw [hj] at hi
          exact .inl ⟨a, hi, hreviewing, rfl⟩
      | some b =>
          rw [hj] at hi
          simp only [advance] at hi
          by_cases hji : j = i
          · subst hji
            obtain ⟨hlt, -⟩ := List.getElem?_eq_some_iff.1 hj
            rw [List.getElem?_set_self hlt] at hi
            cases hi
            rcases Call.reviewing?_step hreviewing with he | ⟨hb, he⟩
            · right
              rw [Attempt.after, he]
              exact ⟨rfl, Nat.lt_succ_self _⟩
            · left
              refine ⟨b, hj, hb, ?_⟩
              rw [Attempt.after, he]
              rfl
          · rw [List.getElem?_set_ne hji] at hi
            exact .inl ⟨a, hi, hreviewing, rfl⟩
  | watch w => exact .inl ⟨a, hi, hreviewing, rfl⟩
  | unwatch w => exact .inl ⟨a, hi, hreviewing, rfl⟩

theorem Waits.lt_now {events : List Event} (h : (run {} events).Waits i ns t) :
    t < (run {} events).now := by
  induction events using List.reverseRecOn with
  | nil =>
      obtain ⟨a, hi, -⟩ := h
      cases hi
  | append_singleton events e ih =>
      rw [run_concat] at h ⊢
      rcases h.of_next with h | ⟨rfl, hlt⟩
      · exact Nat.lt_of_lt_of_le (ih h) (now_le_next _ e)
      · exact hlt

/-- A call that waits for a review has been waiting for it ever since it requested it. -/
theorem Waits.since {events : List Event} (h : (run {} events).Waits i ns t) (k : Nat)
    (hk : t < (run {} (events.take k)).now) : (run {} (events.take k)).Waits i ns t := by
  induction events using List.reverseRecOn with
  | nil => simpa using h
  | append_singleton events e ih =>
      by_cases hle : k ≤ events.length
      · rw [List.take_append_of_le_length hle] at hk ⊢
        rw [run_concat] at h
        rcases h.of_next with h | ⟨rfl, -⟩
        · exact ih h hk
        · rw [run_take_add _ events k] at hk
          exact absurd hk (Nat.not_lt.2 (now_le_run _ _))
      · rw [List.take_of_length_le (by rw [List.length_append, List.length_singleton]; omega)]
        exact h

theorem exists_commits {events : List Event}
    (h : (run {} events).cache.records.contains ns = true) :
    ∃ k j m b, events[k]? = some (.move j m) ∧ (run {} (events.take k)).Commits j m ns b ∧
      b.asked = (run {} events).requested ns := by
  induction events using List.reverseRecOn with
  | nil => cases h
  | append_singleton events e ih =>
      have hold : (run {} events).cache.records.contains ns = true →
          ((run {} events).next e).requested ns = (run {} events).requested ns →
          ∃ k j m b, (events ++ [e])[k]? = some (.move j m) ∧
            (run {} ((events ++ [e]).take k)).Commits j m ns b ∧
            b.asked = ((run {} events).next e).requested ns := by
        intro hc hr
        obtain ⟨k, j, m, b, hk, hcommits, hb⟩ := ih hc
        obtain ⟨hlt, -⟩ := List.getElem?_eq_some_iff.1 hk
        refine ⟨k, j, m, b, ?_, ?_, hb.trans hr.symm⟩
        · rw [List.getElem?_append_left hlt, hk]
        · rwa [List.take_append_of_le_length (Nat.le_of_lt hlt)]
      rw [run_concat] at h ⊢
      cases e with
      | change c => exact hold h rfl
      | launch l => exact hold h rfl
      | move i m =>
          simp only [next] at h hold ⊢
          cases hi : (run {} events).attempts[i]? with
          | none =>
              rw [hi] at h hold
              exact hold h rfl
          | some a =>
              rw [hi] at h hold
              obtain ⟨r, hr⟩ := Table.contains_eq_true_iff.1 h
              rcases records_advance hr with ⟨hrecord, heq⟩ | ⟨heffect, heq⟩
              · exact hold (Table.contains_eq_true_iff.2 ⟨r, hrecord⟩) heq
              · refine ⟨events.length, i, m, a, List.getElem?_concat_length, ?_, heq.symm⟩
                rw [List.take_left' rfl]
                exact ⟨hi, r, heffect⟩
      | watch w => exact hold h rfl
      | unwatch w => exact hold h rfl

/-- A record is replaced by that of a review that was requested no earlier, unless the replaced record is
that of another call, which requested its review and committed it while this call was waiting for its
own. -/
theorem requested_le_or_overlapped {events : List Event} {a : Attempt}
    (hcommits : (run {} events).Commits i m ns a)
    (hold : (run {} events).cache.records.contains ns = true) :
    (run {} events).requested ns ≤ a.asked ∨
      ∃ k j m' b, events[k]? = some (.move j m') ∧ j ≠ i ∧
        (run {} (events.take k)).Commits j m' ns b ∧ b.asked = (run {} events).requested ns ∧
        a.asked < b.asked ∧ (run {} (events.take k)).Waits i ns a.asked := by
  obtain ⟨k, j, m', b, hk, hb, hasked⟩ := exists_commits hold
  by_cases hle : (run {} events).requested ns ≤ a.asked
  · exact .inl hle
  · -- the call had requested its review before the other one, so it was waiting all along
    have hlt : a.asked < b.asked := by omega
    have hwaits := hcommits.waits.since k (Nat.lt_trans hlt hb.waits.lt_now)
    refine .inr ⟨k, j, m', b, hk, ?_, hb, hasked, hlt, hwaits⟩
    rintro rfl
    obtain ⟨a', hi, -, ha'⟩ := hwaits
    rw [hb.1, Option.some.injEq] at hi
    subst hi
    omega

/-- A refresh has asked the reviewer, then a binding comes in, and another refresh asks and commits
before the first one goes on. -/
def lateEvents : List Event :=
  [.change (.apply .namespaces { name := some "a" }), .launch (.refresh "a" none),
    .launch (.refresh "a" none)] ++ List.replicate 9 (.move 0 (reviewing {} ["old"])) ++
    [.change (.apply (.rbac .roleBinding)
      { name := some "b", ns := some "a", uid := some "x", resourceVersion := some "1" })] ++
    List.replicate 9 (.move 1 (reviewing {} ["new"])) ++ [.move 0 (reviewing {} ["new"])]

/-- A system in which the older of two reviews is committed last. -/
def lateSample : System := run {} lateEvents

theorem ownHashes_lateEvents {e : Event} (he : e ∈ lateEvents) (s : System) : ownHashes s e := by
  simp only [lateEvents, List.mem_append, List.mem_cons, List.mem_replicate, List.not_mem_nil,
    or_false] at he
  rcases he with ((((rfl | rfl | rfl) | ⟨-, rfl⟩) | rfl) | ⟨-, rfl⟩) | rfl <;> exact trivial

theorem commits_lateSample :
    ∃ a, lateSample.Commits 0 (reviewing {} ["new"]) "a" a ∧ a.asked = 11 := by
  let m := lateSample.moment (reviewing {} ["new"])
  have heffect : (lateSample.attempts[0]?.bind fun a => (a.call.step m lateSample.cache).effect) =
      some (.recorded "a" ⟨NameSet.ofList ["old"], ∅,
        Digest.combine (Ref.digest []) (Ref.digest [])⟩) := by decide +kernel
  have hasked : lateSample.attempts[0]?.map (·.asked) = some 11 := by decide +kernel
  obtain ⟨a, ha, he⟩ := Option.bind_eq_some_iff.1 heffect
  rw [ha] at hasked
  exact ⟨a, ⟨ha, _, he⟩, Option.some.inj hasked⟩

theorem requested_lateSample :
    lateSample.cache.records.contains "a" = true ∧ lateSample.requested "a" = 19 := by
  decide +kernel

/-- The review behind a record that is stored is not always as new as the review behind the record that it
replaces. -/
theorem older_review_replaces_newer :
    ¬ ∀ (s : System) (i : Nat) (m : Moment) (ns : String) (a : Attempt),
      Reachable ownHashes s → s.Commits i m ns a → s.cache.records.contains ns = true →
      s.requested ns ≤ a.asked := by
  intro h
  have hreachable : Reachable ownHashes lateSample :=
    Reachable.run .init fun _ he s => ownHashes_lateEvents he s
  obtain ⟨a, hcommits, hasked⟩ := commits_lateSample
  obtain ⟨hrecord, hrequested⟩ := requested_lateSample
  have hle := h lateSample 0 _ "a" a hreachable hcommits hrecord
  omega

theorem requested_le_or_overlapped_late :
    ∃ a, lateSample.Commits 0 (reviewing {} ["new"]) "a" a ∧
      lateSample.cache.records.contains "a" = true ∧
      ∃ k j m b, lateEvents[k]? = some (.move j m) ∧ j ≠ 0 ∧
        (run {} (lateEvents.take k)).Commits j m "a" b ∧ b.asked = 19 ∧
        (run {} (lateEvents.take k)).Waits 0 "a" 11 := by
  obtain ⟨a, hcommits, hasked⟩ := commits_lateSample
  obtain ⟨hrecord, hrequested⟩ := requested_lateSample
  rcases requested_le_or_overlapped hcommits hrecord with hle | hoverlapped
  · rw [lateSample] at hrequested
    omega
  · obtain ⟨k, j, m, b, hk, hj, hb, hb', -, hwaits⟩ := hoverlapped
    rw [hasked] at hwaits
    exact ⟨a, hcommits, hrecord, k, j, m, b, hk, hj, hb, hb'.trans hrequested, hwaits⟩

end System

end Visibility
