import Visibility.Proofs.Service.Deployment

namespace Visibility

namespace Deployment

variable {d d' : Deployment}

/-- A system with the stores and the cache of a deployment, and in which every call that has not ended is
that of one runner. -/
structure Hosts (s : System) (d : Deployment) (slot : Runner → Nat) : Prop where
  cache : s.cache = d.service.cache
  stores : s.stores = d.stores
  call : ∀ r call, d.call? r = some call → ∃ a, s.attempts[slot r]? = some a ∧ a.call = call
  apart : ∀ r r' call call', d.call? r = some call → d.call? r' = some call' → slot r = slot r' → r = r'
  ended : ∀ i a, s.attempts[i]? = some a →
    a.call.ended = true ∨ ∃ r, slot r = i ∧ d.call? r = some a.call

theorem Hosts.of_attempts {s s' : System} {slot : Runner → Nat} (h : Hosts s d slot)
    (hattempts : s'.attempts = s.attempts) (hcache : s'.cache = d'.service.cache)
    (hstores : s'.stores = d'.stores) (hcalls : d'.call? = d.call?) : Hosts s' d' slot := by
  constructor
  · exact hcache
  · exact hstores
  · rw [hcalls, hattempts]
    exact h.call
  · rw [hcalls]
    exact h.apart
  · rw [hcalls, hattempts]
    exact h.ended

theorem Hosts.rest {s : System} {slot : Runner → Nat} (h : Hosts s d slot)
    (hcache : d'.service.cache = d.service.cache) (hstores : d'.stores = d.stores)
    (hcalls : d'.call? = d.call?) : Hosts s d' slot :=
  h.of_attempts rfl (h.cache.trans hcache.symm) (h.stores.trans hstores.symm) hcalls

theorem Hosts.begin {s : System} {slot : Runner → Nat} (h : Hosts s d slot) {r : Runner}
    {key : ChangeKey} (hcache : d'.service.cache = d.service.cache) (hstores : d'.stores = d.stores)
    (hbefore : d.call? r = none) (hafter : d'.call? r = some key.call)
    (hcalls : ∀ r', r' ≠ r → d'.call? r' = d.call? r') :
    Hosts (s.next (.launch key.launch)) d' (Function.update slot r s.attempts.length) := by
  have hattempts : (s.next (.launch key.launch)).attempts = s.attempts ++ [⟨key.call, 0⟩] := by
    rw [← key.call_launch]
    rfl
  have hlt : ∀ r' call, d.call? r' = some call → slot r' < s.attempts.length := by
    intro r' call hcall
    obtain ⟨a, ha, -⟩ := h.call r' call hcall
    exact (List.getElem?_eq_some_iff.1 ha).1
  have hold : ∀ r' call, r' ≠ r → d'.call? r' = some call →
      d.call? r' = some call ∧ Function.update slot r s.attempts.length r' = slot r' := by
    intro r' call hr hcall
    exact ⟨hcalls r' hr ▸ hcall, Function.update_of_ne hr _ _⟩
  constructor
  · exact h.cache.trans hcache.symm
  · rw [System.stores_launch, h.stores, hstores]
  · intro r' call hcall
    rw [hattempts]
    by_cases hr : r' = r
    · subst hr
      rw [hafter, Option.some.injEq] at hcall
      rw [Function.update_self]
      exact ⟨_, List.getElem?_concat_length, hcall⟩
    · obtain ⟨hcall, hslot⟩ := hold r' call hr hcall
      rw [hslot, List.getElem?_append_left (hlt r' call hcall)]
      exact h.call r' call hcall
  · intro r₁ r₂ call₁ call₂ h₁ h₂ hslots
    by_cases hr₁ : r₁ = r
    · by_cases hr₂ : r₂ = r
      · rw [hr₁, hr₂]
      · obtain ⟨h₂, hslot₂⟩ := hold r₂ call₂ hr₂ h₂
        rw [hr₁, Function.update_self, hslot₂] at hslots
        exact absurd (hlt r₂ call₂ h₂) (by omega)
    · obtain ⟨h₁, hslot₁⟩ := hold r₁ call₁ hr₁ h₁
      by_cases hr₂ : r₂ = r
      · rw [hr₂, Function.update_self, hslot₁] at hslots
        exact absurd (hlt r₁ call₁ h₁) (by omega)
      · obtain ⟨h₂, hslot₂⟩ := hold r₂ call₂ hr₂ h₂
        rw [hslot₁, hslot₂] at hslots
        exact h.apart r₁ r₂ call₁ call₂ h₁ h₂ hslots
  · intro i a ha
    rw [hattempts] at ha
    rcases Nat.lt_or_ge i s.attempts.length with hi | hi
    · rw [List.getElem?_append_left hi] at ha
      refine (h.ended i a ha).imp_right ?_
      rintro ⟨r', rfl, hcall⟩
      have hr : r' ≠ r := by
        rintro rfl
        rw [hbefore] at hcall
        cases hcall
      exact ⟨r', Function.update_of_ne hr _ _, (hcalls r' hr).trans hcall⟩
    · have hlength := (List.getElem?_eq_some_iff.1 ha).1
      rw [List.length_append, List.length_singleton] at hlength
      obtain rfl : i = s.attempts.length := by omega
      rw [List.getElem?_concat_length, Option.some.injEq] at ha
      subst ha
      exact .inr ⟨r, Function.update_self _ _ _, hafter⟩

theorem Hosts.step {s : System} {slot : Runner → Nat} (h : Hosts s d slot) {r : Runner} {m : Moment}
    {call : Call} (hbefore : d.call? r = some call)
    (hcache : d'.service.cache = (call.step (d.moment m) d.service.cache).cache)
    (hafter : d'.call? r = (call.step (d.moment m) d.service.cache).next.unended)
    (hstores : d'.stores = d.stores) (hcalls : ∀ r', r' ≠ r → d'.call? r' = d.call? r') :
    Hosts (s.next (.move (slot r) m)) d' slot := by
  obtain ⟨a, ha, hacall⟩ := h.call r call hbefore
  obtain ⟨hlt, -⟩ := List.getElem?_eq_some_iff.1 ha
  have hmoment : s.moment m = d.moment m := by rw [System.moment, moment, h.stores]
  have hnext : s.next (.move (slot r) m) = s.advance (slot r) a (d.moment m) := by
    rw [System.next, ha, ← hmoment]
  have hp : a.call.step (d.moment m) s.cache = call.step (d.moment m) d.service.cache := by
    rw [hacall, h.cache]
  rw [hnext]
  have hattempts : (s.advance (slot r) a (d.moment m)).attempts =
      s.attempts.set (slot r) (a.after s.now (call.step (d.moment m) d.service.cache)) := by
    rw [← hp]
    rfl
  have hcallOf : (a.after s.now (call.step (d.moment m) d.service.cache)).call =
      (call.step (d.moment m) d.service.cache).next := rfl
  constructor
  · rw [hcache, ← hp]
    rfl
  · rw [System.stores_advance, h.stores, hstores]
  · intro r' call' hcall'
    rw [hattempts]
    by_cases hr : r' = r
    · subst hr
      rw [hafter, Call.unended] at hcall'
      split at hcall'
      · cases hcall'
      · rw [Option.some.injEq] at hcall'
        exact ⟨_, List.getElem?_set_self hlt, hcall'⟩
    · rw [hcalls r' hr] at hcall'
      have hslot : slot r ≠ slot r' := fun heq =>
        hr (h.apart r' r call' call hcall' hbefore heq.symm)
      rw [List.getElem?_set_ne hslot]
      exact h.call r' call' hcall'
  · intro r₁ r₂ call₁ call₂ h₁ h₂
    have hold : ∀ r' call', d'.call? r' = some call' → ∃ call'', d.call? r' = some call'' := by
      intro r' call' hcall'
      by_cases hr : r' = r
      · exact ⟨call, hr ▸ hbefore⟩
      · exact ⟨call', hcalls r' hr ▸ hcall'⟩
    obtain ⟨c₁, h₁⟩ := hold r₁ call₁ h₁
    obtain ⟨c₂, h₂⟩ := hold r₂ call₂ h₂
    exact h.apart r₁ r₂ c₁ c₂ h₁ h₂
  · intro i b hb
    rw [hattempts] at hb
    by_cases hi : slot r = i
    · subst hi
      rw [List.getElem?_set_self hlt, Option.some.injEq] at hb
      subst hb
      rw [hcallOf]
      by_cases hended : (call.step (d.moment m) d.service.cache).next.ended = true
      · exact .inl hended
      · rw [Call.unended, if_neg hended] at hafter
        exact .inr ⟨r, rfl, hafter⟩
    · rw [List.getElem?_set_ne hi] at hb
      refine (h.ended i b hb).imp_right ?_
      rintro ⟨r', rfl, hcall⟩
      have hr : r' ≠ r := by
        rintro rfl
        exact hi rfl
      exact ⟨r', rfl, (hcalls r' hr).trans hcall⟩

variable {allowed : Deployment → Event → Prop} {config : Config} {workers : Nat}
  {period : Option Nat}

theorem call?_boot (r : Runner) : (boot config workers period).call? r = none := by
  cases r with
  | worker i =>
      simp only [call?, boot, List.getElem?_map, Option.bind_map, Option.bind_eq_none_iff]
      intro j hj
      rfl
  | loop =>
      simp only [call?, boot]
      cases period with
      | none => rfl
      | some p =>
          simp only [Option.bind_some, Loop.start?, Option.bind_map, Option.bind_eq_none_iff]
          intro t ht
          rfl

/-- The calls of a service are calls of some system. -/
theorem Reachable.exists_hosts (h : Reachable allowed (boot config workers period) d) :
    ∃ s slot, System.Reachable System.ownHashes s ∧ Hosts s d slot := by
  induction h with
  | init =>
      refine ⟨{}, fun _ => 0, .init, rfl, rfl, ?_, ?_, ?_⟩
      · intro r call hcall
        rw [call?_boot] at hcall
        cases hcall
      · intro r r' call call' hcall
        rw [call?_boot] at hcall
        cases hcall
      · intro i a ha
        cases ha
  | @next d e _ _ ih =>
      obtain ⟨s, slot, hs, hosts⟩ := ih
      cases d.turn e with
      | rest hcache hstores hcalls => exact ⟨s, slot, hs, hosts.rest hcache hstores hcalls⟩
      | change c hcache hstores hcalls =>
          refine ⟨s.next (.change c), slot, .next hs trivial, hosts.of_attempts rfl ?_ ?_ hcalls⟩
          · exact hosts.cache.trans hcache.symm
          · rw [System.stores_change, hosts.stores, hstores]
      | watch w hcache hstores hcalls =>
          refine ⟨s.next (.watch w), slot, .next hs trivial, hosts.of_attempts rfl ?_ ?_ hcalls⟩
          · rw [hcache, ← hosts.cache]
            rfl
          · rw [System.stores_watch, hosts.stores, hstores]
      | unwatch w hcache hstores hcalls =>
          refine ⟨s.next (.unwatch w), slot, .next hs trivial, hosts.of_attempts rfl ?_ ?_ hcalls⟩
          · rw [hcache, ← hosts.cache]
            rfl
          · rw [System.stores_unwatch, hosts.stores, hstores]
      | run r m hshift hstores hcalls =>
          generalize hbefore : d.call? r = before at hshift
          generalize hafter : (d.next e).call? r = after at hshift
          generalize hcache : (d.next e).service.cache = cache at hshift
          cases hshift with
          | rest =>
              have hsame : (d.next e).call? = d.call? := by
                funext r'
                by_cases hr : r' = r
                · rw [hr, hbefore, hafter]
                · exact hcalls r' hr
              exact ⟨s, slot, hs, hosts.rest hcache hstores hsame⟩
          | begin key =>
              have hown : System.ownHashes s (.launch key.launch) := by
                cases key with
                | cluster => trivial
                | ns name => trivial
              exact ⟨_, _, .next hs hown, hosts.begin hcache hstores hbefore hafter hcalls⟩
          | step call =>
              exact ⟨s.next (.move (slot r) m), slot, .next hs trivial,
                hosts.step hbefore hcache hafter hstores hcalls⟩

theorem Reachable.exists_inside {inside : Call → Bool}
    (hended : ∀ call, call.ended = true → inside call = false)
    (hheld : ∀ s, System.Reachable System.ownHashes s → s.cache = d.service.cache →
      ∃ a ∈ s.attempts, inside a.call = true)
    (h : Reachable allowed (boot config workers period) d) :
    ∃ r call, d.call? r = some call ∧ inside call = true := by
  obtain ⟨s, slot, hs, hosts⟩ := h.exists_hosts
  obtain ⟨a, ha, hinside⟩ := hheld s hs hosts.cache
  obtain ⟨i, hi⟩ := List.mem_iff_getElem?.1 ha
  rcases hosts.ended i a hi with hend | ⟨r, -, hcall⟩
  · rw [hended a.call hend] at hinside
    cases hinside
  · exact ⟨r, a.call, hcall, hinside⟩

theorem Reachable.exists_inPass (h : Reachable allowed (boot config workers period) d)
    (hsyncing : d.service.cache.syncing = true) :
    ∃ r call, d.call? r = some call ∧ call.inPass = true := by
  refine h.exists_inside (fun _ => Call.inPass_of_ended) fun s hs hcache => ?_
  rw [← hcache] at hsyncing
  exact System.Reachable.exists_inside (·.syncing) Call.inPass rfl (fun _ _ _ => Call.syncing_step)
    (fun _ _ => rfl) hs hsyncing

theorem Reachable.exists_computes (h : Reachable allowed (boot config workers period) d)
    (hbusy : d.service.cache.clusterHash.busy = true) :
    ∃ r call, d.call? r = some call ∧ call.computes = true := by
  refine h.exists_inside (fun _ => Call.computes_of_ended) fun s hs hcache => ?_
  rw [← hcache] at hbusy
  exact System.Reachable.exists_inside (·.clusterHash.busy) Call.computes rfl
    (fun _ _ _ => Call.busy_step) (fun _ _ => rfl) hs hbusy

theorem Reachable.sound (h : Reachable allowed (boot config workers period) d) :
    d.service.cache.clusterHash.Sound d.stores.rbac ∧
      ∀ r call c, d.call? r = some call → call.computation? = some c → c.Sound d.stores.rbac := by
  obtain ⟨s, slot, hs, hosts⟩ := h.exists_hosts
  obtain ⟨hhash, hcalls⟩ := hs.sound
  rw [hosts.cache, hosts.stores] at hhash
  refine ⟨hhash, fun r call c hcall hc => ?_⟩
  obtain ⟨a, ha, rfl⟩ := hosts.call r call hcall
  rw [← hosts.stores]
  exact hcalls a (List.mem_of_getElem? ha) c hc

end Deployment

end Visibility
