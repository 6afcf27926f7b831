import Visibility.Proofs.Cache.Touch
import Visibility.Proofs.System

namespace Visibility

open ClusterHash (Computation)

/-- Whether a pass has entered and not left. -/
def Pass.Phase.inside : Phase → Bool
  | enter | done _ => false
  | _ => true

/-- Whether a call holds the lock of passes. -/
def Call.inPass : Call → Bool
  | refresh _ => false
  | pass p => p.inside

/-- Whether a call holds the lock of computations. -/
def Call.computes (call : Call) : Bool := call.computation?.any (·.running)

/-- Whether a call has a result. -/
def Call.ended : Call → Bool
  | refresh r => r.result?.isSome
  | pass (.done _) => true
  | pass _ => false

@[simp] theorem Pass.inside_visit (plan : Plan) (ts : List Target) :
    (visit plan ts).inside = true := by cases ts <;> rfl

@[simp] theorem Pass.inside_hashNext (cluster : String) (full : Bool) (left : List String)
    (live : Table (Option String)) : (hashNext cluster full left live).inside = true := by
  rw [hashNext]
  split <;> rfl

theorem Call.syncing_step {m : Moment} {c : Cache} {call : Call}
    (h : (call.step m c).cache.syncing = true) :
    (call.step m c).next.inPass = true ∨ c.syncing = true ∧ call.inPass = false := by
  cases call with
  | refresh r => exact .inr ⟨(r.stepped m c).passes.syncing ▸ h, rfl⟩
  | pass p =>
      cases p with
      | enter =>
          by_cases hs : c.syncing = true
          · exact .inr ⟨hs, rfl⟩
          · refine .inl ?_
            simp only [step, Pass.Phase.step, if_neg hs]
            rfl
      | hashCluster computation =>
          simp only [step, Pass.Phase.step] at h ⊢
          split
          · exact .inl rfl
          · rename_i h' e hc
            simp [hc, Cache.countPass] at h
          · exact .inl rfl
      | listNames cluster full =>
          refine .inl ?_
          simp only [step, Pass.Phase.step]
          split
          · exact Pass.inside_hashNext _ _ _ _
          · rfl
      | hashNamespaces cluster full left live =>
          refine .inl ?_
          cases left with
          | nil => rfl
          | cons ns left => exact Pass.inside_hashNext _ _ _ _
      | compare cluster full live => exact .inl (Pass.inside_visit _ _)
      | refresh plan left r =>
          refine .inl ?_
          simp only [step, Pass.Phase.step]
          split
          · exact Pass.inside_visit _ _
          · rfl
      | finish plan => cases h
      | done result => exact .inr ⟨h, rfl⟩

theorem Call.busy_step {m : Moment} {c : Cache} {call : Call}
    (h : (call.step m c).cache.clusterHash.busy = true) :
    (call.step m c).next.computes = true ∨ c.clusterHash.busy = true ∧ call.computes = false := by
  have htouch := call.touch_hash m c
  rw [computes, computes]
  generalize call.computation? = before at htouch ⊢
  generalize (call.step m c).next.computation? = after at htouch ⊢
  generalize (call.step m c).cache.clusterHash = hash at htouch h
  cases htouch with
  | idle => exact .inr ⟨h, rfl⟩
  | enter => exact .inr ⟨h, rfl⟩
  | step comp next hnext =>
      rcases Computation.busy_step h with hrun | ⟨hbusy, hrun⟩
      · rcases hnext with rfl | ⟨-, hstop⟩
        · exact .inl hrun
        · rw [hrun] at hstop
          cases hstop
      · exact .inr ⟨hbusy, hrun⟩

theorem Call.inPass_of_ended {call : Call} (h : call.ended = true) : call.inPass = false := by
  cases call with
  | refresh r => rfl
  | pass p =>
      cases p with
      | done result => rfl
      | _ => cases h

theorem Call.computes_of_ended {call : Call} (h : call.ended = true) : call.computes = false := by
  cases call with
  | refresh r =>
      obtain ⟨ns, phase⟩ := r
      cases phase with
      | done result => rfl
      | _ => cases h
  | pass p =>
      cases p with
      | done result => rfl
      | _ => cases h

namespace System

/-- Every call of the system has ended. -/
def Idle (s : System) : Prop := ∀ a ∈ s.attempts, a.call.ended = true

/-- No call is inside a pass or inside a computation of the digest; calls that wait for a review or
have not begun may be under way. -/
def Free (s : System) : Prop :=
  ∀ a ∈ s.attempts, a.call.inPass = false ∧ a.call.computes = false

theorem Idle.free {s : System} (h : s.Idle) : s.Free := fun a ha =>
  ⟨Call.inPass_of_ended (h a ha), Call.computes_of_ended (h a ha)⟩

theorem exists_mem_set {p : Call → Bool} {l : List Attempt} {i : Nat} {a a' : Attempt}
    (hi : l[i]? = some a)
    (h : p a'.call = true ∨ (∃ b ∈ l, p b.call = true) ∧ p a.call = false) :
    ∃ b ∈ l.set i a', p b.call = true := by
  rcases h with h | ⟨⟨b, hb, hpb⟩, ha⟩
  · obtain ⟨hlt, -⟩ := List.getElem?_eq_some_iff.1 hi
    exact ⟨a', List.mem_set hlt a', h⟩
  · obtain ⟨j, hj⟩ := List.mem_iff_getElem?.1 hb
    have hij : i ≠ j := by
      rintro rfl
      rw [hi, Option.some.injEq] at hj
      rw [← hj, ha] at hpb
      cases hpb
    exact ⟨b, List.mem_iff_getElem?.2 ⟨j, by rw [List.getElem?_set_ne hij, hj]⟩, hpb⟩

variable {allowed : System → Event → Prop} {s : System}

theorem Reachable.exists_inside (lock : Cache → Bool) (inside : Call → Bool)
    (hfree : lock {} = false)
    (hstep : ∀ m c call, lock (Call.step m c call).cache = true →
      inside (call.step m c).next = true ∨ lock c = true ∧ inside call = false)
    (hwatch : ∀ c watchers, lock { c with watchers := watchers } = lock c)
    (h : Reachable allowed s) (hs : lock s.cache = true) :
    ∃ a ∈ s.attempts, inside a.call = true := by
  induction h with
  | init =>
      rw [hfree] at hs
      cases hs
  | @next s e _ _ ih =>
      cases e with
      | change c => exact ih hs
      | launch l =>
          obtain ⟨a, ha, hp⟩ := ih hs
          exact ⟨a, List.mem_append_left _ ha, hp⟩
      | move i m =>
          simp only [System.next] at hs ⊢
          cases hi : s.attempts[i]? with
          | none =>
              rw [hi] at hs
              exact ih hs
          | some a =>
              rw [hi] at hs
              exact exists_mem_set hi ((hstep _ _ _ hs).imp_right fun hb => ⟨ih hb.1, hb.2⟩)
      | watch w => exact ih ((hwatch s.cache _).symm.trans hs)
      | unwatch w => exact ih ((hwatch s.cache _).symm.trans hs)

theorem Reachable.syncing_eq_false (h : Reachable allowed s) (hfree : s.Free) :
    s.cache.syncing = false := by
  by_contra hs
  obtain ⟨a, ha, hp⟩ := Reachable.exists_inside (·.syncing) Call.inPass rfl
    (fun _ _ _ => Call.syncing_step) (fun _ _ => rfl) h (eq_true_of_ne_false hs)
  rw [(hfree a ha).1] at hp
  cases hp

theorem Reachable.busy_eq_false (h : Reachable allowed s) (hfree : s.Free) :
    s.cache.clusterHash.busy = false := by
  by_contra hb
  obtain ⟨a, ha, hp⟩ := Reachable.exists_inside (·.clusterHash.busy) Call.computes rfl
    (fun _ _ _ => Call.busy_step) (fun _ _ => rfl) h (eq_true_of_ne_false hb)
  rw [(hfree a ha).2] at hp
  cases hp

/-- The kept digest is sound, and so is what the computations under way have read and listed. -/
theorem Reachable.sound (h : Reachable allowed s) :
    s.cache.clusterHash.Sound s.stores.rbac ∧
      ∀ a ∈ s.attempts, ∀ c, a.call.computation? = some c → c.Sound s.stores.rbac := by
  induction h with
  | init =>
      refine ⟨?_, ?_⟩
      · intro x hx
        cases hx
      · intro a ha
        cases ha
  | @next s e _ _ ih =>
      obtain ⟨hhash, hcalls⟩ := ih
      cases e with
      | change c =>
          have he := (s.stores.edits_apply c).evolves
          rw [stores_change]
          exact ⟨hhash.evolves he, fun a ha comp hc => (hcalls a ha comp hc).evolves he⟩
      | launch l =>
          rw [stores_launch]
          refine ⟨hhash, fun a ha comp hc => ?_⟩
          rcases List.mem_append.1 ha with ha | ha
          · exact hcalls a ha comp hc
          · cases List.mem_singleton.1 ha
            cases l with
            | pass => cases hc
            | refresh ns hash => simp [Launch.call, Call.computation?] at hc
      | move i m =>
          simp only [System.next]
          cases hi : s.attempts[i]? with
          | none => exact ⟨hhash, hcalls⟩
          | some a =>
              have ha := hcalls a (List.mem_of_getElem? hi)
              have hstep := (a.call.touch_hash (s.moment m) s.cache).sound hhash ha
              dsimp only
              rw [stores_advance]
              refine ⟨hstep.1, fun b hb comp hc => ?_⟩
              rcases List.mem_or_eq_of_mem_set hb with hb | rfl
              · exact hcalls b hb comp hc
              · exact hstep.2 comp hc
      | watch w =>
          rw [stores_watch]
          exact ⟨hhash, hcalls⟩
      | unwatch w =>
          rw [stores_unwatch]
          exact ⟨hhash, hcalls⟩

end System

end Visibility
