import Visibility.Proofs.Cache.Order

/-!
When the cache becomes ready.

A pass lists the namespaces, plans, reviews, and only when it ends looks whether the stores have had whole
listings. So the stores that it planned from may have been incomplete: the last listing may have come in
while it was under way, and the listing of the namespaces may have failed. These are the only ways.
-/

namespace Visibility

/-- Whether a whole listing of every resource came in. -/
def Stores.synced (s : Stores) : Bool := s.rbac.hasSynced && s.namespaces.synced

namespace Rbac.Index

theorem synced_set (ix : Index) (s : Slot) (t : Table Ref) : (ix.set s t).synced = ix.synced := by
  cases s <;> rfl

theorem synced_bump (ix : Index) (k : Kind) : (ix.bump k).synced = ix.synced := rfl

theorem synced_apply {k : Kind} {ix ix' : Index} {o : Object} (h : ix.apply k o = some ix') :
    ix'.synced = ix.synced := by
  obtain ⟨name, -, rfl⟩ := Option.map_eq_some_iff.1 h
  split
  · rfl
  · split
    · rfl
    · rw [synced_bump, synced_set]

theorem synced_delete (k : Kind) (ix : Index) (ns name : String) :
    (ix.delete k ns name).synced = ix.synced := by
  rw [delete]
  split
  · rfl
  · split
    · rw [synced_bump, synced_set]
    · rfl

theorem Edits.synced {ix ix' : Index} (h : ix.Edits ix') {k : Kind} (hk : ix.synced.get k = true) :
    ix'.synced.get k = true := by
  induction h with
  | refl => exact hk
  | tail _ he ih =>
      cases he with
      | insert s name r hr hne => rwa [synced_bump, synced_set]
      | erase s name hc => rwa [synced_bump, synced_set]
      | sync j =>
          rw [PerKind.get_set]
          split
          · rfl
          · exact ih

end Rbac.Index

theorem Namespaces.synced_applyAll (s : Namespaces) (objects : List Object) :
    (applyAll apply s objects).1.synced = s.synced := by
  induction objects generalizing s with
  | nil => rfl
  | cons o rest ih =>
      rw [applyAll]
      cases h : s.apply o with
      | none => rfl
      | some s' =>
          obtain ⟨name, -, rfl⟩ := Option.map_eq_some_iff.1 h
          exact ih _

theorem Namespaces.synced_reset (s : Namespaces) (objects : List Object) (removed : List String)
    (h : s.synced = true) : (s.reset objects removed).1.synced = true := by
  have hall := s.synced_applyAll objects
  rw [reset]
  split
  · rename_i s' hs
    rw [hs] at hall
    exact hall.trans h
  · rfl

namespace Stores

theorem synced_apply (s : Stores) (c : Change) (h : s.synced = true) : (s.apply c).1.synced = true := by
  simp only [synced, Bool.and_eq_true, Rbac.Index.hasSynced, List.all_eq_true] at h ⊢
  refine ⟨fun k hk => (s.edits_apply c).synced (h.1 k hk), ?_⟩
  cases c with
  | apply resource o =>
      cases resource with
      | rbac k =>
          rw [apply]
          cases s.rbac.apply k o <;> exact h.2
      | namespaces =>
          rw [apply]
          cases ho : s.namespaces.apply o with
          | none => exact h.2
          | some store =>
              obtain ⟨name, -, rfl⟩ := Option.map_eq_some_iff.1 ho
              exact h.2
  | delete resource ns name => cases resource <;> exact h.2
  | reset resource objects removed =>
      cases resource with
      | rbac k => exact h.2
      | namespaces => exact s.namespaces.synced_reset objects _ h.2

theorem synced_apply_of_ne (s : Stores) {c : Change}
    (hc : ∀ resource objects removed, c ≠ .reset resource objects removed) :
    (s.apply c).1.synced = s.synced := by
  cases c with
  | apply resource o =>
      cases resource with
      | rbac k =>
          rw [apply]
          cases ho : s.rbac.apply k o with
          | none => rfl
          | some ix => simp only [synced, Rbac.Index.hasSynced, Rbac.Index.synced_apply ho]
      | namespaces =>
          rw [apply]
          cases ho : s.namespaces.apply o with
          | none => rfl
          | some store =>
              obtain ⟨name, -, rfl⟩ := Option.map_eq_some_iff.1 ho
              rfl
  | delete resource ns name =>
      cases resource with
      | rbac k => simp only [apply, synced, Rbac.Index.hasSynced, Rbac.Index.synced_delete]
      | namespaces => rfl
  | reset resource objects removed => exact absurd rfl (hc resource objects removed)

end Stores

/-- How far a pass is: before, at or after the listing of the namespaces, or ended. -/
def Pass.Phase.stage : Phase → Nat
  | enter | hashCluster _ => 0
  | listNames .. => 1
  | hashNamespaces .. | compare .. | refresh .. | finish _ => 2
  | done _ => 3

/-- How far the pass of a call has come. -/
def Call.stage : Call → Nat
  | pass p => p.stage
  | refresh _ => 0

/-- A call goes from one stage to the next, and lists the namespaces at most once. -/
structure Call.Advances (call next : Call) : Prop where
  le : call.stage ≤ next.stage
  before : next.stage = 1 → call.stage = 0
  after : next.stage = 2 → call.stage ≠ 0

theorem Pass.stage_visit (plan : Plan) (ts : List Target) : (visit plan ts).stage = 2 := by
  cases ts <;> rfl

theorem Pass.stage_hashNext (cluster : String) (full : Bool) (left : List String)
    (live : Table (Option String)) : (hashNext cluster full left live).stage = 2 := by
  rw [hashNext]
  split <;> rfl

theorem Call.Advances.of_stage {call next : Call} (i j : Nat) (hi : call.stage = i)
    (hj : next.stage = j) (h : i ≤ j ∧ (j = 1 → i = 0) ∧ (j = 2 → i ≠ 0)) : call.Advances next := by
  subst hi hj
  exact ⟨h.1, h.2.1, h.2.2⟩

theorem Call.advances_step (m : Moment) (c : Cache) (call : Call) :
    call.Advances (call.step m c).next := by
  cases call with
  | refresh r => exact .of_stage 0 0 rfl rfl (by decide)
  | pass p =>
      simp only [Call.step]
      cases p with
      | enter =>
          simp only [Pass.Phase.step]
          split
          · exact .of_stage 0 3 rfl rfl (by decide)
          · exact .of_stage 0 0 rfl rfl (by decide)
      | hashCluster computation =>
          simp only [Pass.Phase.step]
          split
          · exact .of_stage 0 1 rfl rfl (by decide)
          · exact .of_stage 0 3 rfl rfl (by decide)
          · exact .of_stage 0 0 rfl rfl (by decide)
      | listNames cluster full =>
          simp only [Pass.Phase.step]
          split
          · exact .of_stage 1 2 rfl (Pass.stage_hashNext _ _ _ _) (by decide)
          · exact .of_stage 1 2 rfl rfl (by decide)
      | hashNamespaces cluster full left live =>
          cases left with
          | nil => exact .of_stage 2 2 rfl rfl (by decide)
          | cons ns left => exact .of_stage 2 2 rfl (Pass.stage_hashNext _ _ _ _) (by decide)
      | compare cluster full live => exact .of_stage 2 2 rfl (Pass.stage_visit _ _) (by decide)
      | refresh plan left r =>
          simp only [Pass.Phase.step]
          split
          · exact .of_stage 2 2 rfl (Pass.stage_visit _ _) (by decide)
          · exact .of_stage 2 2 rfl rfl (by decide)
      | finish plan => exact .of_stage 2 3 rfl rfl (by decide)
      | done result => exact .of_stage 3 3 rfl rfl (by decide)

theorem Call.ready_step (m : Moment) (c : Cache) (call : Call) :
    (call.step m c).cache.ready = c.ready ∨
      ∃ plan, call = .pass (.finish plan) ∧ (call.step m c).cache.ready = (c.ready || m.synced) := by
  cases call with
  | refresh r => exact .inl (r.stepped m c).passes.ready
  | pass p =>
      simp only [Call.step]
      cases p with
      | enter =>
          simp only [Pass.Phase.step]
          split <;> exact .inl rfl
      | hashCluster computation =>
          simp only [Pass.Phase.step]
          split <;> exact .inl rfl
      | listNames cluster full =>
          simp only [Pass.Phase.step]
          split <;> exact .inl rfl
      | hashNamespaces cluster full left live => cases left <;> exact .inl rfl
      | compare cluster full live => exact .inl rfl
      | refresh plan left r =>
          have hready := (r.stepped m c).passes.ready
          simp only [Pass.Phase.step]
          split <;> exact .inl hready
      | finish plan => exact .inr ⟨plan, rfl, rfl⟩
      | done result => exact .inl rfl

theorem Call.exists_listNames_of_stage {call : Call} (h : call.stage = 1) :
    ∃ cluster full, call = .pass (.listNames cluster full) := by
  cases call with
  | refresh r => cases h
  | pass p =>
      cases p with
      | listNames cluster full => exact ⟨cluster, full, rfl⟩
      | _ => cases h

theorem Launch.stage_call (l : Launch) : l.call.stage = 0 := by cases l <;> rfl

namespace System

variable {s : System} {e : Event} {events : List Event} {i j k t : Nat} {m : Moment}

/-- The stage of an attempt; one that is still to be made has not listed anything. -/
def stage (s : System) (i : Nat) : Nat := (s.attempts[i]?.map (·.call.stage)).getD 0

theorem stage_of_attempt {a : Attempt} (h : s.attempts[i]? = some a) : s.stage i = a.call.stage := by
  rw [stage, h]
  rfl

theorem stage_move {a : Attempt} (m : Moment) (h : s.attempts[i]? = some a) :
    (s.next (.move i m)).stage i = (a.call.step (s.moment m) s.cache).next.stage := by
  obtain ⟨hlt, -⟩ := List.getElem?_eq_some_iff.1 h
  simp only [next, h]
  exact stage_of_attempt (a := a.after s.now _) (List.getElem?_set_self hlt)

theorem stage_next (s : System) (e : Event) (i : Nat) :
    (s.next e).stage i = s.stage i ∨
      ∃ m a, e = .move i m ∧ s.attempts[i]? = some a ∧
        (s.next e).stage i = (a.call.step (s.moment m) s.cache).next.stage := by
  cases e with
  | change c => exact .inl rfl
  | launch l =>
      left
      simp only [next, stage]
      rcases Nat.lt_trichotomy i s.attempts.length with hlt | rfl | hgt
      · rw [List.getElem?_append_left hlt]
      · rw [List.getElem?_concat_length, List.getElem?_eq_none (Nat.le_refl _)]
        exact l.stage_call
      · rw [List.getElem?_eq_none (Nat.le_of_lt hgt), List.getElem?_eq_none]
        rw [List.length_append, List.length_singleton]
        omega
  | move j m =>
      cases hj : s.attempts[j]? with
      | none =>
          left
          simp only [next, hj]
      | some a =>
          by_cases hji : j = i
          · subst hji
            exact .inr ⟨m, a, rfl, hj, stage_move m hj⟩
          · left
            simp only [next, hj, stage, advance, List.getElem?_set_ne hji]
  | watch w => exact .inl rfl
  | unwatch w => exact .inl rfl

theorem stage_le_next (s : System) (e : Event) (i : Nat) : s.stage i ≤ (s.next e).stage i := by
  rcases s.stage_next e i with h | ⟨m, a, -, ha, h⟩
  · exact Nat.le_of_eq h.symm
  · rw [h, stage_of_attempt ha]
    exact (Call.advances_step _ _ a.call).le

theorem stage_le_run (s : System) (events : List Event) (i : Nat) :
    s.stage i ≤ (s.run events).stage i := by
  induction events generalizing s with
  | nil => exact Nat.le_refl _
  | cons e events ih => exact Nat.le_trans (s.stage_le_next e i) (ih (s.next e))

theorem synced_next_of_ne (s : System) (e : Event)
    (he : ∀ resource objects removed, e ≠ .change (.reset resource objects removed)) :
    (s.next e).stores.synced = s.stores.synced := by
  cases e with
  | change c =>
      rw [stores_change]
      exact s.stores.synced_apply_of_ne fun resource objects removed hc =>
        he resource objects removed (congrArg Event.change hc)
  | launch l => rw [stores_launch]
  | move i m => rw [stores_move]
  | watch w => rw [stores_watch]
  | unwatch w => rw [stores_unwatch]

theorem synced_next (e : Event) (h : s.stores.synced = true) : (s.next e).stores.synced = true := by
  cases e with
  | change c =>
      rw [stores_change]
      exact s.stores.synced_apply c h
  | launch l | move i m | watch w | unwatch w =>
      rw [synced_next_of_ne]
      · exact h
      · exact nofun

theorem synced_run (events : List Event) (h : s.stores.synced = true) :
    (s.run events).stores.synced = true := by
  induction events generalizing s with
  | nil => exact h
  | cons e events ih => exact ih (synced_next e h)

theorem ready_next (s : System) (e : Event) :
    (s.next e).cache.ready = s.cache.ready ∨
      ∃ i m a plan, e = .move i m ∧ s.attempts[i]? = some a ∧ a.call = .pass (.finish plan) ∧
        (s.next e).cache.ready = (s.cache.ready || s.stores.synced) := by
  cases e with
  | move i m =>
      cases hi : s.attempts[i]? with
      | none =>
          left
          simp only [next, hi]
      | some a =>
          simp only [next, hi]
          rcases a.call.ready_step (s.moment m) s.cache with hsame | ⟨plan, hplan, hready⟩
          · exact .inl hsame
          · exact .inr ⟨i, m, a, plan, rfl, hi, hplan, hready⟩
  | change c | launch l | watch w | unwatch w => exact .inl rfl

theorem run_take_succ (h : events[k]? = some e) :
    run {} (events.take (k + 1)) = (run {} (events.take k)).next e := by
  rw [List.take_add_one, h, Option.toList_some, run_concat]

theorem run_take_le (s : System) (events : List Event) (h : j ≤ k) :
    s.run (events.take k) = (s.run (events.take j)).run ((events.take k).drop j) := by
  rw [run_take_add s (events.take k) j, List.take_take, Nat.min_eq_left h]

theorem stage_take_le (h : j ≤ k) :
    (run {} (events.take j)).stage i ≤ (run {} (events.take k)).stage i := by
  rw [run_take_le {} events h]
  exact stage_le_run _ _ i

theorem synced_take_of_le (h : j ≤ k) (hj : (run {} (events.take j)).stores.synced = true) :
    (run {} (events.take k)).stores.synced = true := by
  rw [run_take_le {} events h]
  exact synced_run _ hj

/-- The event at a place of a run is the step in which a pass lists the namespaces. -/
def Lists (events : List Event) (k i : Nat) (m : Moment) : Prop :=
  events[k]? = some (.move i m) ∧
    ∃ a cluster full, (run {} (events.take k)).attempts[i]? = some a ∧
      a.call = .pass (.listNames cluster full)

/-- An attempt has planned from a listing of the namespaces that succeeded at complete stores. -/
def PlannedComplete (events : List Event) (i : Nat) : Prop :=
  ∃ k m, Lists events k i m ∧ m.fault .names = none ∧
    (run {} (events.take k)).stores.synced = true

/-- The event at a place of a run brings in the last whole listing that was missing. -/
def Completes (events : List Event) (t : Nat) : Prop :=
  ∃ resource objects removed, events[t]? = some (.change (.reset resource objects removed)) ∧
    (run {} (events.take t)).stores.synced = false ∧
    (run {} (events.take (t + 1))).stores.synced = true

theorem Lists.stage (h : Lists events k i m) :
    (run {} (events.take k)).stage i = 1 ∧ 2 ≤ (run {} (events.take (k + 1))).stage i := by
  obtain ⟨hk, a, cluster, full, ha, hcall⟩ := h
  have hone : a.call.stage = 1 := by
    rw [hcall]
    rfl
  have hadvances := Call.advances_step ((run {} (events.take k)).moment m)
    (run {} (events.take k)).cache a.call
  refine ⟨(stage_of_attempt ha).trans hone, ?_⟩
  rw [run_take_succ hk, stage_move m ha]
  have hle := hadvances.le
  have hbefore := hadvances.before
  omega

theorem Lists.unique {k' : Nat} {m' : Moment} (h : Lists events k i m) (h' : Lists events k' i m') :
    k = k' ∧ m = m' := by
  -- once it has listed them it is beyond that stage for good
  have hlt : ∀ {k k' m m'}, Lists events k i m → Lists events k' i m' → ¬ k < k' := by
    intro k k' m m' h h' hlt
    have hle := Nat.le_trans h.stage.2 (stage_take_le hlt)
    rw [h'.stage.1] at hle
    omega
  obtain rfl : k = k' := Nat.le_antisymm (Nat.not_lt.1 (hlt h' h)) (Nat.not_lt.1 (hlt h h'))
  have hm := h.1.symm.trans h'.1
  cases hm
  exact ⟨rfl, rfl⟩

theorem Lists.append (h : Lists events k i m) (later : List Event) :
    Lists (events ++ later) k i m := by
  obtain ⟨hk, h⟩ := h
  obtain ⟨hlt, -⟩ := List.getElem?_eq_some_iff.1 hk
  refine ⟨by rw [List.getElem?_append_left hlt, hk], ?_⟩
  rwa [List.take_append_of_le_length (Nat.le_of_lt hlt)]

theorem exists_lists (h : (run {} events).stage i = 2) : ∃ k m, Lists events k i m := by
  induction events using List.reverseRecOn with
  | nil => cases h
  | append_singleton events e ih =>
      have hkeep : (run {} events).stage i = 2 → ∃ k m, Lists (events ++ [e]) k i m := by
        intro h
        obtain ⟨k, m, hk⟩ := ih h
        exact ⟨k, m, hk.append [e]⟩
      rw [run_concat] at h
      rcases (run {} events).stage_next e i with hsame | ⟨m, a, rfl, ha, hstep⟩
      · exact hkeep (hsame ▸ h)
      · have hadvances := Call.advances_step ((run {} events).moment m) (run {} events).cache a.call
        rw [hstep] at h
        by_cases hone : a.call.stage = 1
        · -- this is the event
          obtain ⟨cluster, full, hcall⟩ := Call.exists_listNames_of_stage hone
          refine ⟨events.length, m, List.getElem?_concat_length, a, cluster, full, ?_, hcall⟩
          rw [List.take_left' rfl]
          exact ha
        · refine hkeep ((stage_of_attempt ha).trans ?_)
          have hle := hadvances.le
          have hafter := hadvances.after h
          omega

/-- Stores that are complete at the end of a run were so at a time of it unless the last listing has come
in since. -/
theorem synced_take_iff (hend : (run {} events).stores.synced = true) (k : Nat) :
    (run {} (events.take k)).stores.synced = true ↔ ∀ t, k ≤ t → ¬ Completes events t := by
  constructor
  · rintro h t ht ⟨-, -, -, -, hbefore, -⟩
    have hlater := synced_take_of_le ht h
    rw [hbefore] at hlater
    cases hlater
  · intro hnone
    by_contra hk
    -- without such a listing the stores stay incomplete to the end
    have hall : ∀ t, k ≤ t → (run {} (events.take t)).stores.synced = false := by
      intro t ht
      induction ht with
      | refl => exact Bool.not_eq_true _ ▸ hk
      | @step t ht ih =>
          cases hevent : events[t]? with
          | none => rwa [List.take_add_one, hevent, Option.toList_none, List.append_nil]
          | some e =>
              by_contra hnext
              apply hnext
              rw [run_take_succ hevent, synced_next_of_ne, ih]
              rintro resource objects removed rfl
              exact hnone t ht
                ⟨resource, objects, removed, hevent, ih, Bool.not_eq_false _ ▸ hnext⟩
    have hlast := hall (k + events.length) (Nat.le_add_right ..)
    rw [List.take_of_length_le (Nat.le_add_left ..), hend] at hlast
    cases hlast

/-- The pass that makes the cache ready finds all listings in when it ends. It has listed the namespaces
once, and has planned at complete stores unless that listing failed or the last one came in after it. -/
theorem plannedComplete_iff_of_ready {events : List Event} {e : Event}
    (hbefore : (run {} events).cache.ready = false)
    (hready : ((run {} events).next e).cache.ready = true) :
    ∃ i k m, (∃ m' a plan, e = .move i m' ∧ (run {} events).attempts[i]? = some a ∧
        a.call = .pass (.finish plan)) ∧
      (run {} events).stores.synced = true ∧ Lists events k i m ∧
      (PlannedComplete events i ↔ m.fault .names = none ∧ ∀ t, k ≤ t → ¬ Completes events t) := by
  rcases (run {} events).ready_next e with hsame | ⟨i, m', a, plan, rfl, ha, hcall, hchanged⟩
  · rw [hsame, hbefore] at hready
    cases hready
  · have hsynced : (run {} events).stores.synced = true := by
      rw [hchanged, hbefore] at hready
      exact hready
    have hstage : (run {} events).stage i = 2 := by
      rw [stage_of_attempt ha, hcall]
      rfl
    obtain ⟨k, m, hlists⟩ := exists_lists hstage
    refine ⟨i, k, m, ⟨m', a, plan, rfl, ha, hcall⟩, hsynced, hlists, ?_⟩
    rw [← synced_take_iff hsynced k]
    constructor
    · rintro ⟨k', m₁, hlists', hfault, hcomplete⟩
      obtain ⟨rfl, rfl⟩ := hlists.unique hlists'
      exact ⟨hfault, hcomplete⟩
    · rintro ⟨hfault, hcomplete⟩
      exact ⟨k, m, hlists, hfault, hcomplete⟩

/-- Whole listings of all kinds, in which only the namespaces are not empty. -/
def listings (names : List String) : List Event :=
  ([.clusterRole, .clusterRoleBinding, .role, .roleBinding].map fun k =>
    .change (.reset (.rbac k) [] [])) ++
    [.change (.reset .namespaces (names.map fun name => { name := some name }) [])]

/-- The listings come in, and then a pass goes up to its last step. -/
def listedEvents : List Event :=
  listings ["a"] ++ .launch .pass :: List.replicate 15 (.move 0 (reviewing {} ["u"]))

theorem plannedComplete_iff_of_ready_listed :
    (run {} listedEvents).cache.ready = false ∧
      ((run {} listedEvents).next (.move 0 (reviewing {} ["u"]))).cache.ready = true ∧
      ∃ k m, Lists listedEvents k 0 m ∧ (PlannedComplete listedEvents 0 ↔
        m.fault .names = none ∧ ∀ t, k ≤ t → ¬ Completes listedEvents t) := by
  have hbefore : (run {} listedEvents).cache.ready = false := by decide +kernel
  have hready : ((run {} listedEvents).next (.move 0 (reviewing {} ["u"]))).cache.ready = true := by
    decide +kernel
  obtain ⟨i, k, m, ⟨m', a, plan, he, -⟩, -, hlists, hiff⟩ :=
    plannedComplete_iff_of_ready hbefore hready
  cases he
  exact ⟨hbefore, hready, k, m, hlists, hiff⟩

/-- A pass knows of one namespace and asks the reviewer about it. -/
def askedEvents : List Event :=
  .change (.apply .namespaces { name := some "a" }) :: .launch .pass ::
    List.replicate 11 (.move 0 (reviewing {} ["u"]))

/-- While the reviewer thinks, the listings come in, with one more namespace. -/
def outrunEvents : List Event :=
  askedEvents ++ (listings ["a", "b"] ++ List.replicate 4 (.move 0 (reviewing {} ["u"])))

/-- A pass that makes the cache ready need not have planned at complete stores. -/
theorem ready_without_plannedComplete :
    ¬ ∀ (events : List Event) (i : Nat) (m : Moment), (run {} events).cache.ready = false →
      ((run {} events).next (.move i m)).cache.ready = true → PlannedComplete events i := by
  intro h
  have hasked : (run {} askedEvents).stage 0 = 2 ∧ (run {} askedEvents).stores.synced = false := by
    decide +kernel
  have hready : (run {} outrunEvents).cache.ready = false ∧
      ((run {} outrunEvents).next (.move 0 (reviewing {} ["u"]))).cache.ready = true := by
    decide +kernel
  have htake : outrunEvents.take askedEvents.length = askedEvents := List.take_left' rfl
  obtain ⟨k, m, hlists, -, hsynced⟩ := h outrunEvents 0 _ hready.1 hready.2
  rcases Nat.lt_or_ge k askedEvents.length with hlt | hge
  · -- the stores were complete when the pass listed, and so when it asked
    have hlater := synced_take_of_le (Nat.le_of_lt hlt) hsynced
    rw [htake, hasked.2] at hlater
    cases hlater
  · -- it listed after it had asked
    have hle : _ ≤ (run {} (outrunEvents.take k)).stage 0 := stage_take_le hge
    rw [htake, hasked.1, hlists.stage.1] at hle
    omega

end System

end Visibility
