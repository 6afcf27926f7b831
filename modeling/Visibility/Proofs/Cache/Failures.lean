import Visibility.Proofs.Cache.Endings
import Visibility.Proofs.Cache.Freshness
import Visibility.Proofs.Cache.Watching

namespace Visibility

open ClusterHash (Computation)

section Backed

variable {gone gone' : String → Prop} {said said' : String → Except String Review → Prop}

/-- What a refresh goes on from was found or said. -/
def Refresh.Backed (gone : String → Prop) (said : String → Except String Review → Prop)
    (r : Refresh) : Prop :=
  match r.phase with
  | .remove => gone r.ns
  | .hear _ answer => said r.ns answer
  | .commit _ review => said r.ns (.ok review) ∧ review.evaluationError = none
  | _ => True

/-- What a call is about to remove is gone, and what it is about to store was said. -/
def Call.Backed (gone : String → Prop) (said : String → Except String Review → Prop) : Call → Prop
  | refresh r => r.Backed gone said
  | pass (.refresh _ _ r) => r.Backed gone said
  | pass _ => True

theorem Refresh.backed_start (ns : String) (hash : Option String) : (start ns hash).Backed gone said := by
  cases hash <;> exact trivial

theorem Launch.backed (l : Launch) : l.call.Backed gone said := by
  cases l with
  | pass => exact trivial
  | refresh ns hash => exact Refresh.backed_start ns hash

theorem Refresh.backed_step {m : Moment} {c : Cache} {r : Refresh}
    (hsaid : ∀ ns answer, said ns answer → said' ns answer)
    (hlook : r.query? = some (.object r.ns) → m.object r.ns = .ok none → gone' r.ns)
    (hask : (r.step m c).effect = some (.asked r.ns) → said' r.ns (m.reviewer r.ns))
    (h : r.Backed gone said) : (r.step m c).next.Backed gone' said' := by
  obtain ⟨ns, phase⟩ := r
  simp only [step] at hask ⊢
  cases phase with
  | exists? =>
      simp only [Phase.step]
      split
      · exact trivial
      · rename_i hnone
        exact hlook rfl hnone
      · exact trivial
  | remove =>
      simp only [Phase.step]
      split
      · exact trivial
      · split <;> exact trivial
  | hashCluster request | hashNamespace cluster | compare hash | commit hash review =>
      simp only [Phase.step]
      split <;> exact trivial
  | ask hash => exact hask rfl
  | hear hash answer =>
      cases answer with
      | error reason => exact trivial
      | ok review =>
          simp only [Phase.step]
          split
          · exact trivial
          · rename_i hnone
            exact ⟨hsaid _ _ h, hnone⟩
  | notify watchers users groups => cases watchers <;> exact trivial
  | announce users groups | done result => exact trivial

theorem Pass.backed_visit (plan : Plan) (ts : List Target) :
    (Call.pass (visit plan ts)).Backed gone said := by
  cases ts with
  | nil => exact trivial
  | cons t left => exact Refresh.backed_start t.1 t.2

theorem Pass.backed_hashNext (cluster : String) (full : Bool) (left : List String)
    (live : Table (Option String)) : (Call.pass (hashNext cluster full left live)).Backed gone said := by
  rw [hashNext]
  split <;> exact trivial

theorem Call.backed_step {m : Moment} {c : Cache} {call : Call}
    (hsaid : ∀ ns answer, said ns answer → said' ns answer)
    (hlook : ∀ ns, call.query? = some (.object ns) → m.object ns = .ok none → gone' ns)
    (hask : ∀ ns, (call.step m c).effect = some (.asked ns) → said' ns (m.reviewer ns))
    (h : call.Backed gone said) : (call.step m c).next.Backed gone' said' := by
  cases call with
  | refresh r => exact r.backed_step hsaid (hlook r.ns) (hask r.ns) h
  | pass p =>
      simp only [step] at hask ⊢
      cases p with
      | enter | hashCluster computation =>
          simp only [Pass.Phase.step]
          split <;> exact trivial
      | listNames cluster full =>
          simp only [Pass.Phase.step]
          split
          · exact Pass.backed_hashNext _ _ _ _
          · exact trivial
      | hashNamespaces cluster full left live =>
          cases left with
          | nil => exact trivial
          | cons ns left => exact Pass.backed_hashNext _ _ _ _
      | compare cluster full live => exact Pass.backed_visit _ _
      | refresh plan left r =>
          have hask' : (r.step m c).effect = some (.asked r.ns) → said' r.ns (m.reviewer r.ns) := by
            intro he
            refine hask r.ns ?_
            simp only [Pass.Phase.step]
            split <;> exact he
          have hstep := r.backed_step hsaid (hlook r.ns) hask' h
          simp only [Pass.Phase.step]
          split
          · exact Pass.backed_visit _ _
          · exact hstep
      | finish plan | done result => exact trivial

theorem Refresh.removed_of_effect {m : Moment} {c : Cache} {r : Refresh} {ns : String}
    (he : (r.step m c).effect = some (.removed ns)) : r.ns = ns ∧ r.phase = .remove := by
  obtain ⟨k, phase⟩ := r
  simp only [step] at he
  cases phase with
  | remove =>
      simp only [Phase.step] at he
      split at he
      · cases he
      · split at he <;> cases he <;> exact ⟨rfl, rfl⟩
  | exists? | hashCluster request | hashNamespace cluster | compare hash | commit hash review =>
      simp only [Phase.step] at he
      split at he <;> cases he
  | hear hash answer =>
      cases answer with
      | error reason => cases he
      | ok review =>
          simp only [Phase.step] at he
          split at he <;> cases he
  | notify watchers users groups => cases watchers <;> cases he
  | ask hash | announce users groups | done result => cases he

/-- The record of a namespace is the one that it had, or it is gone for a reason, or it is what the reviewer
said without doubts. -/
def Cache.Sourced (c : Cache) (gone : String → Prop) (said : String → Except String Review → Prop)
    (c' : Cache) (ns : String) : Prop :=
  c'.records.get? ns = c.records.get? ns ∨
  c'.records.get? ns = none ∧ gone ns ∨
  ∃ r review, c'.records.get? ns = some r ∧ said ns (.ok review) ∧ review.evaluationError = none ∧
    r.users = NameSet.ofList review.users ∧ r.groups = NameSet.ofList review.groups

theorem Call.exists_refresh_of_effect {m : Moment} {c : Cache} {call : Call} {e : Effect}
    (h : call.Backed gone said) (he : (call.step m c).effect = some e) :
    ∃ r, r.Backed gone said ∧ (Refresh.step m c r).effect = some e := by
  cases call with
  | refresh r => exact ⟨r, h, he⟩
  | pass p =>
      obtain ⟨plan, left, r, rfl, hr⟩ := Pass.exists_refresh_of_effect he
      exact ⟨r, h, hr⟩

theorem Call.sourced_step {m : Moment} {c c' : Cache} {call : Call} {ns : String}
    (h : call.Backed gone said) (hc : c.Sourced gone said c' ns) :
    c.Sourced gone said (call.step m c').cache ns := by
  have hwritten : ∀ e, (call.step m c').effect = some e →
      ∃ r, r.Backed gone said ∧ (Refresh.step m c' r).effect = some e :=
    fun e he => exists_refresh_of_effect h he
  have htouch := call.touch m c'
  generalize (call.step m c').effect = effect at htouch hwritten
  generalize (call.step m c').cache = after at htouch
  cases htouch with
  | keep he ha => rwa [Cache.Sourced, ha.records]
  | commit k r =>
      rw [Cache.Sourced, Cache.get?_commit]
      split
      · rename_i hk
        subst hk
        obtain ⟨r', hbacked, he⟩ := hwritten _ rfl
        obtain ⟨rfl, hash, review, hphase, rfl⟩ := Refresh.recorded_of_effect he
        rw [Refresh.Backed, hphase] at hbacked
        exact .inr (.inr ⟨_, review, rfl, hbacked.1, hbacked.2, rfl, rfl⟩)
      · exact hc
  | remove k r hr =>
      rw [Cache.Sourced, Cache.get?_remove]
      split
      · rename_i hk
        subst hk
        obtain ⟨r', hbacked, he⟩ := hwritten _ rfl
        obtain ⟨rfl, hphase⟩ := Refresh.removed_of_effect he
        rw [Refresh.Backed, hphase] at hbacked
        exact .inr (.inl ⟨rfl, hbacked⟩)
      · exact hc

end Backed

/-- Within so many steps a call looked for a namespace and did not find it. -/
def Call.Missed (n : Nat) (ms : Nat → Moment) (c : Cache) (call : Call) (ns : String) : Prop :=
  ∃ k < n, (call.alone k ms c).phase.query? = some (.object ns) ∧ (ms k).object ns = .ok none

/-- Within so many steps a call asked the reviewer about a namespace and was given an answer. -/
def Call.Heard (n : Nat) (ms : Nat → Moment) (c : Cache) (call : Call) (ns : String)
    (answer : Except String Review) : Prop :=
  ∃ k < n, ((call.alone k ms c).phase.step (ms k) (call.alone k ms c).cache).effect =
    some (.asked ns) ∧ (ms k).reviewer ns = answer

theorem Launch.sourced (l : Launch) (n : Nat) (ms : Nat → Moment) (c : Cache) (ns : String) :
    c.Sourced (l.call.Missed n ms c) (l.call.Heard n ms c) (l.call.alone n ms c).cache ns := by
  have hstep : ∀ n, (l.call.alone (n + 1) ms c) = (l.call.alone n ms c).step Call.step (ms n) :=
    fun n => Alone.run_succ n ms _
  have hmissed : ∀ n ns, l.call.Missed n ms c ns → l.call.Missed (n + 1) ms c ns :=
    fun n ns ⟨k, hk, h⟩ => ⟨k, Nat.lt_succ_of_lt hk, h⟩
  have hheard : ∀ n ns answer, l.call.Heard n ms c ns answer → l.call.Heard (n + 1) ms c ns answer :=
    fun n ns answer ⟨k, hk, h⟩ => ⟨k, Nat.lt_succ_of_lt hk, h⟩
  suffices h : (l.call.alone n ms c).phase.Backed (l.call.Missed n ms c) (l.call.Heard n ms c) ∧
      c.Sourced (l.call.Missed n ms c) (l.call.Heard n ms c) (l.call.alone n ms c).cache ns from h.2
  induction n with
  | zero => exact ⟨l.backed, .inl rfl⟩
  | succ n ih =>
      obtain ⟨hbacked, hsourced⟩ := ih
      rw [hstep]
      refine ⟨Call.backed_step (hheard n) ?_ ?_ hbacked, ?_⟩
      · exact fun k hquery hobject => ⟨n, Nat.lt_succ_self n, hquery, hobject⟩
      · exact fun k heffect => ⟨n, Nat.lt_succ_self n, heffect, rfl⟩
      · rcases Call.sourced_step (m := ms n) hbacked hsourced with h | ⟨h, hgone⟩ | ⟨r, review, h, hsaid, hrest⟩
        · exact .inl h
        · exact .inr (.inl ⟨h, hmissed n ns hgone⟩)
        · exact .inr (.inr ⟨r, review, h, hheard n ns _ hsaid, hrest⟩)

/-- Whether a refresh has neither changed a record nor ended well. -/
def Refresh.unwritten (r : Refresh) : Bool :=
  match r.phase with
  | .announce _ _ | .notify _ _ _ | .done (.ok _) => false
  | _ => true

theorem Refresh.unwritten_step {m : Moment} {c : Cache} {r : Refresh}
    (h : (r.step m c).next.unwritten = true) :
    r.unwritten = true ∧ (∃ hash x, (r.step m c).cache = { c with clusterHash := hash, metrics := x }) ∧
      ∀ e ∈ (r.step m c).effect, ∃ ns, e = .asked ns := by
  obtain ⟨ns, phase⟩ := r
  have hnone : ∀ e ∈ (none : Option Effect), ∃ ns, e = .asked ns :=
    fun e he => absurd he (Option.not_mem_none e)
  simp only [step] at h ⊢
  cases phase with
  | exists? | hashCluster request | hashNamespace cluster | compare hash =>
      simp only [Phase.step] at h ⊢
      split <;> exact ⟨rfl, ⟨_, _, rfl⟩, hnone⟩
  | remove =>
      simp only [Phase.step] at h
      split at h
      · cases h
      · split at h <;> cases h
  | ask hash =>
      refine ⟨rfl, ⟨_, _, rfl⟩, ?_⟩
      rintro e ⟨⟩
      exact ⟨ns, rfl⟩
  | hear hash answer =>
      cases answer with
      | error reason => exact ⟨rfl, ⟨_, _, rfl⟩, hnone⟩
      | ok review =>
          simp only [Phase.step] at h ⊢
          split <;> exact ⟨rfl, ⟨_, _, rfl⟩, hnone⟩
  | commit hash review =>
      simp only [Phase.step] at h
      split at h <;> cases h
  | announce users groups => cases h
  | notify watchers users groups => cases watchers <;> cases h
  | done result => exact ⟨h, ⟨_, _, rfl⟩, hnone⟩

theorem Refresh.unwritten_of_error {r : Refresh} {e : RefreshError}
    (h : r.result? = some (.error e)) : r.unwritten = true := by
  obtain ⟨ns, phase⟩ := r
  cases phase with
  | done result =>
      cases h
      rfl
  | _ => cases h

theorem Refresh.unwritten_run {n : Nat} {ms : Nat → Moment} {c : Cache} {r : Refresh}
    {es : List Effect} (h : (Alone.run step n ms ⟨c, r, es⟩).phase.unwritten = true) :
    (∃ hash x, (Alone.run step n ms ⟨c, r, es⟩).cache = { c with clusterHash := hash, metrics := x }) ∧
      ∀ e ∈ (Alone.run step n ms ⟨c, r, es⟩).effects, e ∈ es ∨ ∃ ns, e = .asked ns := by
  induction n with
  | zero => exact ⟨⟨_, _, rfl⟩, fun e he => .inl he⟩
  | succ n ih =>
      rw [Alone.run_succ] at h ⊢
      obtain ⟨hbefore, ⟨hash, x, hcache⟩, heffect⟩ := unwritten_step h
      obtain ⟨⟨hash', x', hcache'⟩, heffects⟩ := ih hbefore
      refine ⟨⟨hash, x, ?_⟩, fun e he => ?_⟩
      · rw [Alone.step]
        dsimp only
        rw [hcache, hcache']
      · rcases List.mem_append.1 he with he | he
        · exact heffects e he
        · exact .inr (heffect e (Option.mem_toList.1 he))

/-- What a computation leaves if it has not come out well: the lock is its own, or as it was. -/
def ClusterHash.Computation.Holds (before now : ClusterHash) : Computation → Prop
  | enter | done (.error _) => now = before
  | done (.ok _) => True
  | _ => before.busy = false ∧ now = { before with busy := true }

theorem ClusterHash.Computation.holds_step {m : Moment} {before now : ClusterHash} {c : Computation}
    (h : c.Holds before now) : (c.step m now).2.Holds before (c.step m now).1 := by
  cases c with
  | enter =>
      cases h
      rw [step]
      split
      · exact rfl
      · rename_i hbusy
        exact ⟨eq_false_of_ne_true hbusy, rfl⟩
  | readRolesVersion => exact h
  | readBindingsVersion roles =>
      simp only [step]
      split
      · split
        · exact trivial
        · exact h
      · exact h
  | listRoles versions | listBindings versions roles =>
      obtain ⟨hbusy, rfl⟩ := h
      simp only [step]
      split
      · first | exact ⟨hbusy, rfl⟩ | exact trivial
      · simp only [leave, Holds, ← hbusy]
  | done result => exact h

namespace Pass

/-- Whether a pass ended without a plan: another one was running, or there was no digest. -/
def Phase.aborted : Phase → Bool
  | done (.ok .inProgress) | done (.error _) => true
  | _ => false

/-- A pass that has the digest goes on to the end; before that it has done nothing that would stay. -/
def Passive (c : Cache) (a : Alone Phase) : Prop :=
  match a.phase with
  | .enter => a.cache = c ∧ a.effects = []
  | .hashCluster computation => c.syncing = false ∧ a.effects = [] ∧
      ∃ hash, a.cache = { c with syncing := true, clusterHash := hash } ∧
        computation.Holds c.clusterHash hash
  | .done result => (Phase.done result).aborted = true →
      a.effects = [] ∧ ∃ x, a.cache = { c with metrics := x }
  | _ => True

theorem passive_visit (plan : Plan) (ts : List Target) (c c' : Cache) (es : List Effect) :
    Passive c ⟨c', visit plan ts, es⟩ := by cases ts <;> exact trivial

theorem passive_hashNext (cluster : String) (full : Bool) (left : List String)
    (live : Table (Option String)) (c c' : Cache) (es : List Effect) :
    Passive c ⟨c', hashNext cluster full left live, es⟩ := by
  rw [hashNext]
  split <;> exact trivial

theorem aborted_outcome (plan : Plan) : (Phase.done (.ok plan.outcome)).aborted = false := by
  rw [Plan.outcome]
  split <;> rfl

theorem passive_step (m : Moment) {c : Cache} {a : Alone Phase} (h : Passive c a) :
    Passive c (a.step Phase.step m) := by
  obtain ⟨c', p, es⟩ := a
  cases p with
  | enter =>
      obtain ⟨rfl, rfl⟩ := h
      rw [Alone.step, Phase.step]
      split
      · exact fun _ => ⟨rfl, _, rfl⟩
      · rename_i hsyncing
        exact ⟨eq_false_of_ne_true hsyncing, rfl, _, rfl, rfl⟩
  | hashCluster computation =>
      obtain ⟨hsyncing, rfl, hash, rfl, hholds⟩ := h
      have hstep := ClusterHash.Computation.holds_step (m := m) hholds
      rw [Alone.step, Phase.step]
      dsimp only
      split
      · exact trivial
      · rename_i h' e hc
        rw [hc] at hstep
        cases hstep
        -- The lock was free when the pass took it, so giving it back leaves the cache as it was.
        refine fun _ => ⟨rfl, (c.countPass countAborted).metrics, ?_⟩
        rw [Cache.countPass, ← hsyncing]
        rfl
      · rename_i h' computation' hne hne' hc
        rw [hc] at hstep
        exact ⟨hsyncing, rfl, h', rfl, hstep⟩
  | listNames cluster full =>
      rw [Alone.step, Phase.step]
      split
      · exact passive_hashNext _ _ _ _ _ _ _
      · exact trivial
  | hashNamespaces cluster full left live =>
      cases left with
      | nil => exact trivial
      | cons ns left => exact passive_hashNext _ _ _ _ _ _ _
  | compare cluster full live => exact passive_visit _ _ _ _ _
  | refresh plan left r =>
      rw [Alone.step, Phase.step]
      dsimp only
      split
      · exact passive_visit _ _ _ _ _
      · exact trivial
  | finish plan =>
      intro habort
      rw [aborted_outcome] at habort
      cases habort
  | done result =>
      intro habort
      obtain ⟨heffects, hcache⟩ := h habort
      cases (heffects : es = [])
      exact ⟨rfl, hcache⟩

theorem Passive.of_aborted {c : Cache} {a : Alone Phase} (h : Passive c a)
    (habort : a.phase.aborted = true) :
    a.effects = [] ∧ ∃ x, a.cache = { c with metrics := x } := by
  obtain ⟨c', p, es⟩ := a
  cases p with
  | done result => exact h habort
  | _ => cases habort

theorem passive_alone (n : Nat) (ms : Nat → Moment) (c : Cache) : Passive c (Pass.alone n ms c) := by
  induction n with
  | zero => exact ⟨rfl, rfl⟩
  | succ n ih =>
      rw [Pass.alone, Alone.run_succ]
      exact passive_step (ms n) ih

end Pass

theorem Cache.commit_metrics (c : Cache) (x : CacheMetrics) (ns : String) (r : Record) :
    ∃ y, { c with metrics := x }.commit ns r =
      ({ (c.commit ns r).1 with metrics := y }, (c.commit ns r).2) := ⟨_, rfl⟩

theorem Refresh.step_metrics (m : Moment) (c : Cache) (x : CacheMetrics) (r : Refresh) :
    ∃ y, r.step m { c with metrics := x } =
      { r.step m c with cache := { (r.step m c).cache with metrics := y } } := by
  obtain ⟨ns, phase⟩ := r
  simp only [step]
  cases phase with
  | exists? | hashNamespace cluster | compare hash =>
      simp only [Phase.step]
      split <;> exact ⟨_, rfl⟩
  | remove =>
      simp only [Phase.step]
      cases hr : c.records.get? ns with
      | none =>
          rw [Cache.remove_of_none hr, Cache.remove_of_none (c := { c with metrics := x }) hr]
          exact ⟨_, rfl⟩
      | some r =>
          rw [Cache.remove_of_some hr, Cache.remove_of_some (c := { c with metrics := x }) hr]
          dsimp only
          split <;> exact ⟨_, rfl⟩
  | hashCluster request =>
      simp only [Phase.step]
      split <;> exact ⟨_, rfl⟩
  | hear hash answer =>
      cases answer with
      | error reason => exact ⟨_, rfl⟩
      | ok review =>
          simp only [Phase.step]
          split <;> exact ⟨_, rfl⟩
  | commit hash review =>
      obtain ⟨y, hy⟩ := c.commit_metrics x ns
        ⟨NameSet.ofList review.users, NameSet.ofList review.groups, hash⟩
      simp only [Phase.step, hy]
      cases c.commit ns ⟨NameSet.ofList review.users, NameSet.ofList review.groups, hash⟩ with
      | mk c' told => cases told <;> exact ⟨y, rfl⟩
  | notify watchers users groups => cases watchers <;> exact ⟨_, rfl⟩
  | ask hash | announce users groups | done result => exact ⟨_, rfl⟩

theorem Call.step_metrics (m : Moment) (c : Cache) (x : CacheMetrics) (call : Call) :
    ∃ y, call.step m { c with metrics := x } =
      { call.step m c with cache := { (call.step m c).cache with metrics := y } } := by
  cases call with
  | refresh r =>
      obtain ⟨y, hy⟩ := r.step_metrics m c x
      exact ⟨y, by simp only [step, hy]⟩
  | pass p =>
      simp only [step]
      cases p with
      | enter | hashCluster computation | listNames cluster full =>
          simp only [Pass.Phase.step]
          split <;> exact ⟨_, rfl⟩
      | hashNamespaces cluster full left live => cases left <;> exact ⟨_, rfl⟩
      | refresh plan left r =>
          obtain ⟨y, hy⟩ := r.step_metrics m c x
          simp only [Pass.Phase.step, hy]
          split <;> exact ⟨y, rfl⟩
      | compare cluster full live | finish plan | done result => exact ⟨_, rfl⟩

namespace System

/-- The same system with another cache. -/
def withCache (s : System) (c : Cache) : System := { s with cache := c }

theorem next_metrics (s : System) (x : CacheMetrics) (e : Event) :
    (s.withCache { s.cache with metrics := x }).effect? e = s.effect? e ∧
    ∃ y, (s.withCache { s.cache with metrics := x }).next e =
      (s.next e).withCache { (s.next e).cache with metrics := y } := by
  cases e with
  | move i m =>
      cases hi : s.attempts[i]? with
      | none =>
          refine ⟨by simp only [effect?, withCache, hi, Option.bind_none], x, ?_⟩
          simp only [next, withCache, hi]
      | some a =>
          obtain ⟨y, hy⟩ := a.call.step_metrics (s.moment m) s.cache x
          refine ⟨?_, y, ?_⟩
          · simp only [effect?, withCache, hi, Option.bind_some]
            exact congrArg (·.effect) hy
          · simp only [next, withCache, hi]
            change advance _ i a (s.moment m) = _
            simp only [advance, hy]
            rfl
  | change c | launch l | watch w | unwatch w => exact ⟨rfl, x, rfl⟩

theorem run_metrics (s : System) (x : CacheMetrics) (events : List Event) :
    trail (s.withCache { s.cache with metrics := x }) events = trail s events ∧
    ∃ y, (s.withCache { s.cache with metrics := x }).run events =
      (s.run events).withCache { (s.run events).cache with metrics := y } := by
  induction events generalizing s x with
  | nil => exact ⟨rfl, x, rfl⟩
  | cons e events ih =>
      obtain ⟨heffect, y, hnext⟩ := s.next_metrics x e
      obtain ⟨htrail, z, hrun⟩ := ih (s.next e) y
      constructor
      · rw [trail, trail, deed?, deed?, heffect, hnext, htrail]
      · exact ⟨z, (congrArg (run · events) hnext).trans hrun⟩

/-- Whatever fails while a call runs alone: the call ends. Every record is the one that it was, or it is gone and
its namespace was not found, or it is what the reviewer said without doubts. A refresh that fails leaves records,
index and readiness and tells nobody. A pass that has a plan carries it out and ends well. A pass that ends
without one does nothing, and whatever comes later is as if it had not been made, but for the counts. -/
theorem failures_never_corrupt (s : System) (l : Launch) (ms : Nat → Moment) :
    (∃ n, (l.call.alone n ms s.cache).phase.ended = true) ∧
    (∀ n ns, s.cache.Sourced (l.call.Missed n ms s.cache) (l.call.Heard n ms s.cache)
      (l.call.alone n ms s.cache).cache ns) ∧
    (∀ n c ns hash es,
      let a := Alone.run Refresh.step n ms ⟨c, .start ns hash, es⟩
      (∃ e, a.phase.result? = some (.error e)) →
        a.cache.records = c.records ∧ a.cache.subjects = c.subjects ∧ a.cache.ready = c.ready ∧
          ∀ e ∈ a.effects, e ∈ es ∨ ∃ k, e = .asked k) ∧
    (∀ k c cluster full live es, Pass.alone k ms s.cache = ⟨c, .compare cluster full live, es⟩ →
      let ts := live.elim (Pass.recheck (ms k) c.records) (Pass.targets (ms k) c.records)
      let plan : Pass.Plan := ⟨cluster, full, ts.length⟩
      (∀ before t left, ts = before ++ t :: left → Pass.CarriesOut plan t left ms s.cache) ∧
        ∃ n, (Pass.alone n ms s.cache).phase = .done (.ok plan.outcome)) ∧
    ∀ n, (Pass.alone n ms s.cache).phase.aborted = true →
      (Pass.alone n ms s.cache).effects = [] ∧
      ∀ later, trail (s.withCache (Pass.alone n ms s.cache).cache) later = trail s later ∧
        ∃ x, (s.withCache (Pass.alone n ms s.cache).cache).run later =
          (s.run later).withCache { (s.run later).cache with metrics := x } := by
  refine ⟨l.exists_ended ms s.cache, fun n ns => l.sourced n ms s.cache ns, ?_, ?_, ?_⟩
  · rintro n c ns hash es a ⟨e, he⟩
    obtain ⟨⟨digest, x, hcache⟩, heffects⟩ := Refresh.unwritten_run (Refresh.unwritten_of_error he)
    rw [hcache]
    exact ⟨rfl, rfl, rfl, heffects⟩
  · intro k c cluster full live es hk ts plan
    have hvisit : Pass.alone (k + 1) ms s.cache = ⟨c, Pass.visit plan ts, es⟩ := by
      rw [Pass.alone, Alone.run_succ]
      refine (congrArg (Alone.step Pass.Phase.step · (ms k)) hk).trans ?_
      rw [Alone.step, Pass.Phase.step, Option.toList_none, List.append_nil]
    constructor
    · intro before t left hts
      rw [hts] at hvisit
      exact Pass.carriesOut hvisit
    · obtain ⟨n, hn⟩ := (Pass.returns_visit plan ts c es).exists_steps fun i => ms (k + 1 + i)
      refine ⟨k + 1 + n, ?_⟩
      rw [← hvisit] at hn
      rwa [Pass.alone, Alone.run_add]
  · intro n habort
    obtain ⟨heffects, x, hcache⟩ := (Pass.passive_alone n ms s.cache).of_aborted habort
    rw [hcache]
    exact ⟨heffects, s.run_metrics x⟩

/-- A system after a role has come. -/
def roleSample : System :=
  sample.next (.change (.apply (.rbac .clusterRole)
    { name := some "r", uid := some "y", resourceVersion := some "2" }))

/-- A moment at which no look and no review succeeds. -/
def downMoment (stores : Stores) : Moment :=
  { stores, fault := fun _ => some "down", reviewer := fun _ => .error "down" }

theorem failures_never_corrupt_down :
    (Pass.alone 5 (fun _ => downMoment roleSample.stores) roleSample.cache).phase.aborted = true ∧
    (∃ n, (Call.alone n (fun _ => downMoment roleSample.stores) roleSample.cache
      (.refresh (.start "a" none))).phase.ended = true) ∧
    ∀ later, trail (roleSample.withCache (Pass.alone 5 (fun _ => downMoment roleSample.stores)
      roleSample.cache).cache) later = trail roleSample later := by
  have haborted : (Pass.alone 5 (fun _ => downMoment roleSample.stores)
      roleSample.cache).phase.aborted = true := by decide +kernel
  obtain ⟨hends, -, -, -, habort⟩ := failures_never_corrupt roleSample (.refresh "a" none)
    fun _ => downMoment roleSample.stores
  exact ⟨haborted, hends, fun later => ((habort 5 haborted).2 later).1⟩

end System

end Visibility
