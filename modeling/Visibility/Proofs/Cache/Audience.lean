import Visibility.Proofs.Cache.Locks
import Visibility.Table.Lemmas

/-!
The audience of a namespace, and how a call tells the watchers that it has changed.

A call that stores or removes a record changes at most the audience of one namespace, and has to tell of it
if and only if it did. The watchers are looked up after that, and told one by one.
-/

namespace Visibility

theorem Table.isEmpty_iff {α : Type} {t : Table α} : t.isEmpty = true ↔ t = ∅ := by
  rw [isEmpty, List.isEmpty_iff]
  constructor
  · exact fun h => Table.ext h
  · rintro rfl
    rfl

namespace Cache

/-- The users and groups that the record of a namespace names; without a record there are none. -/
def audience (c : Cache) (ns : String) : NameSet × NameSet :=
  ((c.records.get? ns).elim ∅ (·.users), (c.records.get? ns).elim ∅ (·.groups))

theorem audience_commit (c : Cache) (ns k : String) (r : Record) :
    (c.commit ns r).1.audience k = if k = ns then (r.users, r.groups) else c.audience k := by
  rw [audience, get?_commit]
  split <;> rfl

theorem audience_remove (c : Cache) (ns k : String) :
    (c.remove ns).1.audience k = if k = ns then (∅, ∅) else c.audience k := by
  rw [audience, get?_remove]
  split <;> rfl

theorem snd_commit (c : Cache) (ns : String) (r : Record) :
    (c.commit ns r).2 =
      if c.audience ns = (r.users, r.groups) then none else some (r.users, r.groups) := by
  rw [commit, audience]
  dsimp only
  by_cases hu : (c.records.get? ns).elim ∅ (·.users) = r.users
  · by_cases hg : (c.records.get? ns).elim ∅ (·.groups) = r.groups
    · rw [if_neg (by simp [hu, hg]), if_pos (by rw [hu, hg])]
    · rw [if_pos (.inr hg), if_neg (fun h => hg (Prod.ext_iff.1 h).2)]
  · rw [if_pos (.inl hu), if_neg (fun h => hu (Prod.ext_iff.1 h).1)]

end Cache

/-- What a call has to tell the watchers. -/
structure Notice where
  ns : String
  audience : NameSet × NameSet
  /-- The watchers that are left to be told; none before they were looked up. -/
  left : Option (List String)

/-- The notifications to come, if the watchers to be told are found as given. -/
def Notice.effects (watchers : List String) (n : Notice) : List Effect :=
  (n.left.getD watchers).map fun w => .notified w n.ns n.audience.1 n.audience.2

/-- What a refresh has to tell before it ends. -/
def Refresh.notice? (r : Refresh) : Option Notice :=
  match r.phase with
  | .announce users groups => some ⟨r.ns, (users, groups), none⟩
  | .notify watchers users groups => some ⟨r.ns, (users, groups), some watchers⟩
  | _ => none

def Pass.Phase.notice? : Phase → Option Notice
  | refresh _ _ r => r.notice?
  | _ => none

def Call.notice? : Call → Option Notice
  | refresh r => r.notice?
  | pass p => p.notice?

@[simp] theorem Refresh.notice?_start (ns : String) (hash : Option String) :
    (start ns hash).notice? = none := by cases hash <;> rfl

@[simp] theorem Pass.notice?_visit (plan : Plan) (ts : List Target) :
    (visit plan ts).notice? = none := by
  cases ts with
  | nil => rfl
  | cons t left => exact Refresh.notice?_start t.1 t.2

@[simp] theorem Pass.notice?_hashNext (cluster : String) (full : Bool) (left : List String)
    (live : Table (Option String)) : (hashNext cluster full left live).notice? = none := by
  rw [hashNext]
  split <;> rfl

def Effect.isNotice : Effect → Bool
  | notified _ _ _ _ => true
  | asked _ | recorded _ _ | removed _ => false

/-- The namespace whose record was stored or removed. -/
def Effect.written? : Effect → Option String
  | recorded ns _ | removed ns => some ns
  | asked _ | notified _ _ _ _ => none

/-- What a step of a call can do to the audiences and to what the call has to tell. -/
inductive Notice.Step (c : Cache) :
    Option Notice → Option Effect → Cache → Option Notice → Prop where
  | keep {e : Option Effect} {c' : Cache} (he : e.any (·.isNotice) = false)
      (h : ∀ ns, c'.audience ns = c.audience ns) : Step c none e c' none
  | change {e : Effect} {c' : Cache} (ns : String) (he : e.written? = some ns)
      (h : c'.audience ns ≠ c.audience ns) (hne : ∀ k, k ≠ ns → c'.audience k = c.audience k) :
      Step c none (some e) c' (some ⟨ns, c'.audience ns, none⟩)
  | look (ns : String) (x : NameSet × NameSet) :
      Step c (some ⟨ns, x, none⟩) none c (some ⟨ns, x, some c.watchers⟩)
  | tell (ns : String) (x : NameSet × NameSet) (w : String) (left : List String) :
      Step c (some ⟨ns, x, some (w :: left)⟩) (some (.notified w ns x.1 x.2)) c
        (some ⟨ns, x, some left⟩)
  | finish (ns : String) (x : NameSet × NameSet) : Step c (some ⟨ns, x, some []⟩) none c none

theorem Notice.Step.changes_or {c c' : Cache} {before after : Option Notice} {e : Option Effect}
    (h : Step c before e c' after) :
    (∃ ns, e.bind (·.written?) = some ns ∧ c'.audience ns ≠ c.audience ns ∧
      (∀ k, k ≠ ns → c'.audience k = c.audience k) ∧ before = none ∧
      after = some ⟨ns, c'.audience ns, none⟩) ∨ ∀ ns, c'.audience ns = c.audience ns := by
  cases h with
  | keep he h => exact .inr h
  | change ns he h hne => exact .inl ⟨ns, he, h, hne, rfl, rfl⟩
  | look ns x | tell ns x w left | finish ns x => exact .inr fun _ => rfl

theorem Notice.Step.eq_or_of_after {c c' : Cache} {before : Option Notice} {n : Notice}
    {e : Option Effect} (h : Step c before e c' (some n)) :
    (c'.audience n.ns ≠ c.audience n.ns ∧ c'.audience n.ns = n.audience) ∨
      c' = c ∧ ∃ left, before = some { n with left := left } := by
  cases h with
  | change ns he h hne => exact .inl ⟨h, rfl⟩
  | look ns x | tell ns x w left => exact .inr ⟨rfl, _, rfl⟩

theorem Notice.Step.exists_of_notified {c c' : Cache} {before after : Option Notice}
    {w ns : String} {users groups : NameSet}
    (h : Step c before (some (.notified w ns users groups)) c' after) :
    ∃ left, before = some ⟨ns, (users, groups), left⟩ := by
  cases h with
  | keep he h => cases he
  | change ns he h hne => cases he
  | tell ns x w left => exact ⟨_, rfl⟩

theorem Notice.Step.of_some {c c' : Cache} {ns : String} {x : NameSet × NameSet}
    {left : Option (List String)} {e : Option Effect} {after : Option Notice}
    (h : Step c (some ⟨ns, x, left⟩) e c' after) :
    (left = none ∧ after = some ⟨ns, x, some c.watchers⟩) ∨
    (∃ w rest, left = some (w :: rest) ∧ e = some (.notified w ns x.1 x.2) ∧
      after = some ⟨ns, x, some rest⟩) ∨
    left = some [] ∧ after = none := by
  cases h with
  | look ns x => exact .inl ⟨rfl, rfl⟩
  | tell ns x w rest => exact .inr (.inl ⟨w, rest, rfl, rfl, rfl⟩)
  | finish ns x => exact .inr (.inr ⟨rfl, rfl⟩)

/-- The notifications that a step gives rise to: if it changes the audience of a namespace, one for each
registration of a watcher. -/
def Cache.dues (c c' : Cache) (e : Option Effect) : List Effect :=
  (e.bind (·.written?)).elim [] fun ns =>
    if c'.audience ns = c.audience ns then []
    else c.watchers.map fun w => .notified w ns (c'.audience ns).1 (c'.audience ns).2

theorem Cache.dues_eq_nil {c c' : Cache} (h : ∀ ns, c'.audience ns = c.audience ns)
    (e : Option Effect) : c.dues c' e = [] := by
  rw [dues]
  cases e.bind (·.written?) with
  | none => rfl
  | some ns => exact if_pos (h ns)

theorem Effect.isNotice_of_written? {e : Effect} {ns : String} (h : e.written? = some ns) :
    e.isNotice = false := by cases e <;> first | rfl | cases h

/-- What was to come and what a step gives rise to is what the step shows and what is then to come. -/
theorem Notice.Step.dues_eq {c c' : Cache} {before after : Option Notice} {e : Option Effect}
    (h : Step c before e c' after) (hwatchers : c'.watchers = c.watchers) :
    before.elim [] (effects c.watchers) ++ c.dues c' e =
      e.toList.filter (·.isNotice) ++ after.elim [] (effects c'.watchers) := by
  cases h with
  | keep he h =>
      rw [Cache.dues_eq_nil h]
      cases e with
      | none => rfl
      | some e => simpa using he
  | @change e c' ns he h hne =>
      have hnot := Effect.isNotice_of_written? he
      simp [Cache.dues, he, h, hnot, effects, hwatchers]
  | look ns x | finish ns x =>
      rw [Cache.dues_eq_nil fun _ => rfl, List.append_nil]
      rfl
  | tell ns x w left =>
      rw [Cache.dues_eq_nil fun _ => rfl, List.append_nil]
      rfl

theorem Refresh.notice_step (m : Moment) (c : Cache) (r : Refresh) :
    Notice.Step c r.notice? (r.step m c).effect (r.step m c).cache (r.step m c).next.notice? := by
  obtain ⟨ns, phase⟩ := r
  simp only [step]
  cases phase with
  | exists? =>
      simp only [Phase.step]
      split <;> exact .keep rfl fun _ => rfl
  | remove =>
      simp only [Phase.step]
      cases hr : c.records.get? ns with
      | none =>
          rw [Cache.remove_of_none hr]
          exact .keep rfl fun _ => rfl
      | some r =>
          have hns := (c.audience_remove ns ns).trans (if_pos rfl)
          have hother : ∀ k, k ≠ ns → (c.remove ns).1.audience k = c.audience k :=
            fun k hk => (c.audience_remove ns k).trans (if_neg hk)
          have hold : c.audience ns = (r.users, r.groups) := by
            rw [Cache.audience, hr]
            rfl
          rw [Cache.remove_of_some hr] at hns hother ⊢
          dsimp only at hns hother ⊢
          split
          -- Nobody is told of a record without subjects: the audience was empty before, too.
          · rename_i hempty
            rw [Bool.and_eq_true, Table.isEmpty_iff, Table.isEmpty_iff] at hempty
            refine .keep rfl fun k => ?_
            by_cases hk : k = ns
            · rw [hk, hns, hold, hempty.1, hempty.2]
            · exact hother k hk
          · rename_i hempty
            have hstep := Notice.Step.change (e := .removed ns) ns rfl (fun h => hempty ?_) hother
            · rwa [hns] at hstep
            · rw [hns, hold, Prod.mk.injEq] at h
              rw [← h.1, ← h.2]
              rfl
  | hashCluster request | hashNamespace cluster | compare hash =>
      simp only [Phase.step]
      split <;> exact .keep rfl fun _ => rfl
  | ask hash => exact .keep rfl fun _ => rfl
  | hear hash answer =>
      cases answer with
      | error reason => exact .keep rfl fun _ => rfl
      | ok review =>
          simp only [Phase.step]
          split <;> exact .keep rfl fun _ => rfl
  | commit hash review =>
      let record : Record := ⟨NameSet.ofList review.users, NameSet.ofList review.groups, hash⟩
      have hns := (c.audience_commit ns ns record).trans (if_pos rfl)
      have hother : ∀ k, k ≠ ns → (c.commit ns record).1.audience k = c.audience k :=
        fun k hk => (c.audience_commit ns k record).trans (if_neg hk)
      have htold := c.snd_commit ns record
      simp only [Phase.step]
      split
      · rename_i c' users groups hc
        rw [hc] at hns hother htold
        split at htold
        · cases htold
        · rename_i hne
          cases htold
          have hstep := Notice.Step.change (e := .recorded ns record) ns rfl
            (fun h => hne (h.symm.trans hns)) hother
          rwa [hns] at hstep
      · rename_i c' hc
        rw [hc] at hns hother htold
        split at htold
        · rename_i heq
          refine .keep rfl fun k => ?_
          by_cases hk : k = ns
          · rw [hk, hns, heq]
          · exact hother k hk
        · cases htold
  | announce users groups => exact .look ns (users, groups)
  | notify watchers users groups =>
      cases watchers with
      | nil => exact .finish ns (users, groups)
      | cons w left => exact .tell ns (users, groups) w left
  | done result => exact .keep rfl fun _ => rfl

theorem Refresh.notice?_of_result {r : Refresh} {result : Except RefreshError Unit}
    (h : r.result? = some result) : r.notice? = none := by
  obtain ⟨ns, phase⟩ := r
  cases phase with
  | done result => rfl
  | _ => cases h

theorem Call.notice?_of_ended {call : Call} (h : call.ended = true) : call.notice? = none := by
  cases call with
  | refresh r =>
      obtain ⟨result, hresult⟩ := Option.isSome_iff_exists.1 h
      exact Refresh.notice?_of_result hresult
  | pass p =>
      cases p with
      | done result => rfl
      | _ => cases h

theorem Call.notice_step (m : Moment) (c : Cache) (call : Call) :
    Notice.Step c call.notice? (call.step m c).effect (call.step m c).cache
      (call.step m c).next.notice? := by
  cases call with
  | refresh r => exact r.notice_step m c
  | pass p =>
      simp only [step, notice?]
      cases p with
      | enter =>
          simp only [Pass.Phase.step]
          split <;> exact .keep rfl fun _ => rfl
      | hashCluster computation =>
          simp only [Pass.Phase.step]
          split <;> exact .keep rfl fun _ => rfl
      | listNames cluster full =>
          simp only [Pass.Phase.step]
          split
          · rw [Pass.notice?_hashNext]
            exact .keep rfl fun _ => rfl
          · exact .keep rfl fun _ => rfl
      | hashNamespaces cluster full left live =>
          cases left with
          | nil => exact .keep rfl fun _ => rfl
          | cons ns left =>
              simp only [Pass.Phase.step]
              rw [Pass.notice?_hashNext]
              exact .keep rfl fun _ => rfl
      | compare cluster full live =>
          simp only [Pass.Phase.step]
          rw [Pass.notice?_visit]
          exact .keep rfl fun _ => rfl
      | refresh plan left r =>
          have hstep := r.notice_step m c
          simp only [Pass.Phase.step]
          split
          · rename_i result hresult
            rw [Refresh.notice?_of_result hresult] at hstep
            rw [Pass.notice?_visit]
            exact hstep
          · exact hstep
      | finish plan => exact .keep rfl fun _ => rfl
      | done result => exact .keep rfl fun _ => rfl

theorem Refresh.watchers_step (m : Moment) (c : Cache) (r : Refresh) :
    (r.step m c).cache.watchers = c.watchers := by
  obtain ⟨ns, phase⟩ := r
  simp only [step]
  cases phase with
  | exists? | hashCluster request | hashNamespace cluster | compare hash =>
      simp only [Phase.step]
      split <;> rfl
  | remove =>
      simp only [Phase.step]
      cases hr : c.records.get? ns with
      | none =>
          rw [Cache.remove_of_none hr]
      | some r =>
          rw [Cache.remove_of_some hr]
          dsimp only
          split <;> rfl
  | hear hash answer =>
      cases answer with
      | error reason => rfl
      | ok review =>
          simp only [Phase.step]
          split <;> rfl
  | commit hash review =>
      let record : Record := ⟨NameSet.ofList review.users, NameSet.ofList review.groups, hash⟩
      have hcommit : (c.commit ns record).1.watchers = c.watchers := rfl
      simp only [Phase.step]
      split
      · rename_i c' users groups hc
        rwa [hc] at hcommit
      · rename_i c' hc
        rwa [hc] at hcommit
  | notify watchers users groups => cases watchers <;> rfl
  | ask hash | announce users groups | done result => rfl

theorem Call.watchers_step (m : Moment) (c : Cache) (call : Call) :
    (call.step m c).cache.watchers = c.watchers := by
  cases call with
  | refresh r => exact r.watchers_step m c
  | pass p =>
      simp only [step]
      cases p with
      | enter | hashCluster computation | listNames cluster full =>
          simp only [Pass.Phase.step]
          split <;> rfl
      | hashNamespaces cluster full left live => cases left <;> rfl
      | refresh plan left r =>
          have hstep := r.watchers_step m c
          simp only [Pass.Phase.step]
          split <;> exact hstep
      | compare cluster full live | finish plan | done result => rfl

namespace System

/-- What can be seen of an event. -/
def effect? (s : System) : Event → Option Effect
  | .move i m => s.attempts[i]?.bind fun a => (a.call.step (s.moment m) s.cache).effect
  | _ => none

/-- What a call of the system has to tell. -/
def notice? (s : System) (i : Nat) : Option Notice := s.attempts[i]?.bind (·.call.notice?)

/-- No call is between a change of an audience and the last notification of it. -/
def Quiet (s : System) : Prop := ∀ i, s.notice? i = none

theorem Idle.quiet {s : System} (h : s.Idle) : s.Quiet := by
  intro i
  rw [notice?, Option.bind_eq_none_iff]
  exact fun a ha => Call.notice?_of_ended (h a (List.mem_of_getElem? ha))

theorem notice_move {s : System} {i : Nat} {a : Attempt} (hi : s.attempts[i]? = some a) (m : Moment) :
    Notice.Step s.cache (s.notice? i) (s.effect? (.move i m)) (s.next (.move i m)).cache
        ((s.next (.move i m)).notice? i) ∧
      (∀ j, j ≠ i → (s.next (.move i m)).notice? j = s.notice? j) ∧
      (s.next (.move i m)).cache.watchers = s.cache.watchers := by
  obtain ⟨hlt, -⟩ := List.getElem?_eq_some_iff.1 hi
  refine ⟨?_, fun j hj => ?_, ?_⟩
  · have hstep := a.call.notice_step (s.moment m) s.cache
    simp only [notice?, effect?, next, hi, advance, List.getElem?_set_self hlt]
    exact hstep
  · simp only [notice?, next, hi, advance, List.getElem?_set_ne (Ne.symm hj)]
  · simp only [next, hi]
    exact a.call.watchers_step _ _

theorem notice_cases (s : System) (e : Event) :
    (∃ i m a, e = .move i m ∧ s.attempts[i]? = some a) ∨
    (∀ i m, e = .move i m → s.attempts[i]? = none) ∧ s.effect? e = none ∧
      (∀ j, (s.next e).notice? j = s.notice? j) ∧
      ∀ ns, (s.next e).cache.audience ns = s.cache.audience ns := by
  cases e with
  | move i m =>
      cases hi : s.attempts[i]? with
      | none =>
          have hnext : s.next (.move i m) = s := by simp only [next, hi]
          refine .inr ⟨?_, ?_, fun j => by rw [hnext], fun ns => by rw [hnext]⟩
          · rintro j m' ⟨⟩
            exact hi
          · rw [effect?, hi, Option.bind_none]
      | some a => exact .inl ⟨i, m, a, rfl, hi⟩
  | launch l =>
      refine .inr ⟨?_, rfl, fun j => ?_, fun _ => rfl⟩
      · rintro i m ⟨⟩
      simp only [notice?, next]
      rw [List.getElem?_append]
      split
      · rfl
      · rename_i hj
        rw [List.getElem?_eq_none (Nat.not_lt.1 hj), Option.bind_none]
        cases j - s.attempts.length with
        | zero =>
            cases l with
            | pass => rfl
            | refresh ns hash => exact Refresh.notice?_start ns hash
        | succ k => rfl
  | change c | watch w | unwatch w =>
      refine .inr ⟨?_, rfl, fun _ => rfl, fun _ => rfl⟩
      rintro i m ⟨⟩

end System

end Visibility
