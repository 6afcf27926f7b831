import Visibility.Proofs.Queue.Waking

/-!
No wake-up is lost: as long as a key waits, a permit is kept or some getter will look at the queue without being
woken once more. After the shutdown that holds of every getter that waits.

A getter that parks has looked at an empty queue before, so a key that came in between has left a permit, or has
woken another getter, which hands the wake-up on if there are more keys.
-/

namespace Visibility

namespace Getter

variable {κ : Type}

/-- Whether a getter waits, or is about to, and nothing has woken it. -/
def asleep (w : Wake) (ticket : Nat) : Getter κ → Bool
  | park round => round = w.round
  | parked => ticket ∉ w.woken
  | _ => false

/-- Whether a getter will look at the queue even if nobody wakes it any more. -/
def seeks (w : Wake) (ticket : Nat) : Getter κ → Bool
  | enter | look _ => true
  | park round => round ≠ w.round
  | parked => ticket ∈ w.woken
  | got _ | closed => false

variable [DecidableEq κ]

/-- One who is asleep is parked after the next step too, unless there is a permit, and nobody else is. -/
theorem asleep_eq_true_iff {q : Queue κ} {ticket : Nat} {g : Getter κ} (hpermit : q.wake.permit = false) :
    g.asleep q.wake ticket = true ↔ (g.step ticket q).2 = parked := by
  cases g with
  | look round =>
      refine ⟨nofun, fun h => ?_⟩
      simp only [step] at h
      split at h
      · cases h
      · split at h <;> cases h
  | park round =>
      by_cases hround : q.wake.round = round
      · simp [asleep, step, Wake.park, hpermit, hround]
      · simp [asleep, step, Wake.park, hpermit, hround, Ne.symm hround]
  | parked => by_cases hwoken : ticket ∈ q.wake.woken <;> simp [asleep, step, Wake.goOn?, hwoken]
  | _ => constructor <;> intro h <;> cases h

end Getter

namespace Queue

variable {κ : Type} {q q' : Queue κ}

/-- A key that has come to wait was announced to one getter. -/
def Announces (q q' : Queue κ) : Prop :=
  q'.wake = q.wake.one ∨ q'.wake = q.wake ∧ (q'.waiting ≠ [] → q.waiting ≠ [])

variable [DecidableEq κ]

theorem announces_add (q : Queue κ) (k : κ) : q.Announces (q.add k) := by
  simp only [Announces, add, push, measure]
  split
  · split
    · exact .inr ⟨rfl, id⟩
    · exact .inl rfl
  · exact .inr ⟨rfl, id⟩

theorem announces_addAfter (q : Queue κ) (now delay : Nat) (k : κ) :
    q.Announces (q.addAfter now delay k) := by
  rw [addAfter]
  split
  · exact .inr ⟨rfl, id⟩
  · split
    · exact q.announces_add k
    · exact .inr ⟨rfl, id⟩

theorem announces_retry (q : Queue κ) (now : Nat) (k : κ) : q.Announces (q.retry now k) :=
  announces_addAfter { q with
    failures := (k, q.requeues k + 1) :: (q.forget k).failures
    metrics := { q.metrics with retries := q.metrics.retries + 1 } } now _ k

theorem announces_expire (q : Queue κ) (d : Delayed κ) : q.Announces (q.expire d) :=
  announces_add { q with delayed := q.delayed.erase d } d.key

theorem announces_release (q : Queue κ) (k : κ) : q.Announces (q.release k) := by
  simp only [Announces, release, push, measure]
  split
  · exact .inl rfl
  · exact .inr ⟨rfl, id⟩

theorem announces_take? {k : κ} (h : q.take? = some (k, q')) : q.Announces q' := by
  obtain ⟨rest, hwaiting, rfl⟩ := exists_of_take? h
  cases rest with
  | nil => exact .inr ⟨rfl, fun hne => absurd rfl hne⟩
  | cons j rest => exact .inl rfl

theorem waiting_of_take?_eq_none (h : q.take? = none) : q.waiting = [] := by
  rw [take?] at h
  split at h
  · assumption
  · cases h

end Queue

/-- Those who are with the notifier are parked, each of them once, and a permit is only kept while nobody is. -/
structure Wake.Registers {κ : Type} (w : Wake) (getters : List (Getter κ)) : Prop where
  nodup : (w.parked ++ w.woken).Nodup
  parked : ∀ i ∈ w.parked ++ w.woken, getters[i]? = some .parked
  permit : w.permit = true → w.parked = []

namespace Wake

variable {κ : Type} {w : Wake} {getters : List (Getter κ)}

theorem Registers.one (h : w.Registers getters) : w.one.Registers getters := by
  rw [Wake.one]
  split
  · exact ⟨h.nodup, h.parked, fun _ => by assumption⟩
  · rename_i t parked hparked
    have hperm : (parked ++ (w.woken ++ [t])).Perm (w.parked ++ w.woken) := by
      rw [hparked, ← List.append_assoc]
      exact List.perm_append_singleton t (parked ++ w.woken)
    refine ⟨hperm.nodup_iff.2 h.nodup, fun i hi => h.parked i (hperm.mem_iff.1 hi), fun hpermit => ?_⟩
    rw [h.permit hpermit] at hparked
    cases hparked

theorem Registers.permit_or_exists (h : w.Registers getters) :
    w.one.permit = true ∨ ∃ i, getters[i]? = some .parked ∧ i ∈ w.one.woken := by
  rw [Wake.one]
  split
  · exact .inl rfl
  · rename_i t parked hparked
    refine .inr ⟨t, h.parked t ?_, List.mem_append_right _ (List.mem_singleton_self t)⟩
    rw [hparked]
    exact List.mem_append_left _ List.mem_cons_self

theorem Registers.set (h : w.Registers getters) {i : Nat} {g : Getter κ} (hi : getters[i]? = some g)
    (hg : g ≠ .parked) (g' : Getter κ) : w.Registers (getters.set i g') := by
  refine ⟨h.nodup, fun j hj => ?_, h.permit⟩
  have hparked := h.parked j hj
  have hne : i ≠ j := by
    rintro rfl
    exact hg (Option.some.inj (hi.symm.trans hparked))
  exact (List.getElem?_set_ne hne).trans hparked

theorem Registers.park (h : w.Registers getters) {i : Nat} {g : Getter κ} (hi : getters[i]? = some g)
    (hg : g ≠ .parked) (hpermit : w.permit ≠ true) :
    Registers { w with parked := w.parked ++ [i] } (getters.set i .parked) := by
  obtain ⟨hlt, -⟩ := List.getElem?_eq_some_iff.1 hi
  have hperm : (w.parked ++ [i] ++ w.woken).Perm (i :: (w.parked ++ w.woken)) := by
    rw [List.append_assoc]
    exact List.perm_middle
  have hfresh : i ∉ w.parked ++ w.woken := fun hmem =>
    hg (Option.some.inj (hi.symm.trans (h.parked i hmem)))
  refine ⟨hperm.nodup_iff.2 (List.nodup_cons.2 ⟨hfresh, h.nodup⟩), fun j hj => ?_,
    fun hkept => absurd hkept hpermit⟩
  rcases List.mem_cons.1 (hperm.mem_iff.1 hj) with rfl | hj
  · exact List.getElem?_set_self hlt
  · refine (List.getElem?_set_ne ?_).trans (h.parked j hj)
    rintro rfl
    exact hfresh hj

theorem Registers.goOn (h : w.Registers getters) {i : Nat} (hi : i ∈ w.woken) (g : Getter κ) :
    Registers { w with woken := w.woken.erase i } (getters.set i g) := by
  obtain ⟨-, hnodup, hdisjoint⟩ := List.nodup_append.1 h.nodup
  have hsub : (w.parked ++ w.woken.erase i).Sublist (w.parked ++ w.woken) :=
    List.Sublist.append_left List.erase_sublist _
  refine ⟨h.nodup.sublist hsub, fun j hj => ?_, h.permit⟩
  refine (List.getElem?_set_ne ?_).trans (h.parked j (hsub.subset hj))
  rintro rfl
  rcases List.mem_append.1 hj with hj | hj
  · exact hdisjoint i hj i hi rfl
  · exact (List.Nodup.not_mem_erase hnodup) hj

end Wake

namespace Traffic

variable {κ : Type} {t : Traffic κ} {i : Nat}

/-- Whether some getter will look at the queue, or the next one that would park. -/
def Attentive (w : Wake) (getters : List (Getter κ)) : Prop :=
  w.permit = true ∨ ∃ (i : Nat) (g : Getter κ), getters[i]? = some g ∧ g.seeks w i = true

/-- While keys wait somebody is attentive, and whoever is with the notifier is parked. -/
structure Vigilant (t : Traffic κ) : Prop where
  registers : t.queue.wake.Registers t.getters
  attentive : t.queue.waiting ≠ [] → Attentive t.queue.wake t.getters

theorem vigilant_boot (limiter : Limiter) (getters : Nat) :
    (boot limiter getters : Traffic κ).Vigilant :=
  ⟨⟨List.nodup_nil, nofun, nofun⟩, fun hwaiting => absurd rfl hwaiting⟩

theorem Attentive.one {w : Wake} {getters : List (Getter κ)} (h : w.Registers getters) :
    Attentive w.one getters := by
  rcases h.permit_or_exists with hpermit | ⟨i, hi, hwoken⟩
  · exact .inl hpermit
  · exact .inr ⟨i, .parked, hi, decide_eq_true hwoken⟩

theorem Vigilant.announce (h : t.Vigilant) {q : Queue κ} (hannounces : t.queue.Announces q) :
    Vigilant { t with queue := q } := by
  rcases hannounces with hwake | ⟨hwake, hwaiting⟩
  · constructor
    · show q.wake.Registers t.getters
      rw [hwake]
      exact h.registers.one
    · intro _
      show Attentive q.wake t.getters
      rw [hwake]
      exact .one h.registers
  · constructor
    · show q.wake.Registers t.getters
      rw [hwake]
      exact h.registers
    · intro hne
      show Attentive q.wake t.getters
      rw [hwake]
      exact h.attentive (hwaiting hne)

theorem vigilant_of_seeks {q : Queue κ} {g : Getter κ} (hi : i < t.getters.length)
    (hregisters : q.wake.Registers (t.getters.set i g)) (hseeks : g.seeks q.wake i = true) :
    Vigilant { t with queue := q, getters := t.getters.set i g } :=
  ⟨hregisters, fun _ => .inr ⟨i, g, List.getElem?_set_self hi, hseeks⟩⟩

theorem Vigilant.all (h : t.Vigilant) (hroused : t.Roused) {q : Queue κ}
    (hwake : q.wake = t.queue.wake.all) (hwaiting : q.waiting = t.queue.waiting) :
    Vigilant { t with queue := q } := by
  have hperm : (t.queue.wake.woken ++ t.queue.wake.parked).Perm
      (t.queue.wake.parked ++ t.queue.wake.woken) := List.perm_append_comm
  constructor
  · show q.wake.Registers t.getters
    rw [hwake]
    exact ⟨hperm.nodup_iff.2 h.registers.nodup, fun i hi => h.registers.parked i (hperm.mem_iff.1 hi),
      fun _ => rfl⟩
  · intro hne
    show Attentive q.wake t.getters
    rw [hwake]
    rcases h.attentive (hwaiting ▸ hne) with hpermit | ⟨i, g, hi, hseeks⟩
    · exact .inl hpermit
    · refine .inr ⟨i, g, hi, ?_⟩
      have hreached := hroused.reached i g hi
      cases g with
      | park round => exact decide_eq_true (Nat.ne_of_lt (Nat.lt_succ_of_le hreached.1))
      | parked => exact decide_eq_true (List.mem_append_left _ (of_decide_eq_true hseeks))
      | _ => exact hseeks

variable [DecidableEq κ]

theorem Vigilant.look (h : t.Vigilant) {round : Nat} (hi : t.getters[i]? = some (.look round)) :
    (t.get i (.look round)).Vigilant := by
  have hlook : Getter.look (κ := κ) round ≠ .parked := nofun
  simp only [Traffic.get, Getter.again, Getter.step]
  cases ht : t.queue.take? with
  | some r =>
      have hregisters := (h.announce (Queue.announces_take? ht)).registers
      refine ⟨hregisters.set hi hlook _, fun (hwaiting : r.2.waiting ≠ []) => ?_⟩
      -- this getter drops out, and wakes another one for the keys that are left
      obtain ⟨rest, -, hr⟩ := Queue.exists_of_take? ht
      cases rest with
      | nil =>
          rw [hr] at hwaiting
          exact absurd rfl hwaiting
      | cons j rest =>
          show Attentive r.2.wake _
          rw [hr]
          exact .one (h.registers.set hi hlook _)
  | none =>
      have hempty := Queue.waiting_of_take?_eq_none ht
      dsimp only
      split
      · exact ⟨h.registers.set hi hlook _, fun hwaiting => absurd hempty hwaiting⟩
      · exact ⟨h.registers.set hi hlook _, fun hwaiting => absurd hempty hwaiting⟩

/-- A getter parks only if there is no permit, and then somebody else will look at the keys that came since
it looked itself. -/
theorem Vigilant.park (h : t.Vigilant) {round : Nat} (hi : t.getters[i]? = some (.park round)) :
    (t.get i (.park round)).Vigilant := by
  have hpark : Getter.park (κ := κ) round ≠ .parked := nofun
  obtain ⟨hlt, -⟩ := List.getElem?_eq_some_iff.1 hi
  simp only [Traffic.get, Getter.again, Getter.step, Wake.park]
  by_cases hpermit : t.queue.wake.permit = true
  · rw [if_pos hpermit]
    obtain ⟨hnodup, hparked, -⟩ := h.registers.set hi hpark .enter
    exact vigilant_of_seeks hlt ⟨hnodup, hparked, fun hkept => absurd hkept Bool.false_ne_true⟩ rfl
  rw [if_neg hpermit]
  by_cases hround : t.queue.wake.round ≠ round
  · rw [if_pos hround]
    exact vigilant_of_seeks hlt (h.registers.set hi hpark _) rfl
  rw [if_neg hround]
  refine ⟨h.registers.park hi hpark hpermit, fun hwaiting => ?_⟩
  obtain hkept | ⟨j, g, hj, hseeks⟩ := h.attentive hwaiting
  · exact absurd hkept hpermit
  refine .inr ⟨j, g, ?_, ?_⟩
  · refine (List.getElem?_set_ne ?_).trans hj
    rintro rfl
    obtain rfl := Option.some.inj (hi.symm.trans hj)
    exact hround (Ne.symm (of_decide_eq_true hseeks))
  · exact hseeks

theorem Vigilant.goOn (h : t.Vigilant) (hi : t.getters[i]? = some .parked) :
    (t.get i .parked).Vigilant := by
  obtain ⟨hlt, hget⟩ := List.getElem?_eq_some_iff.1 hi
  simp only [Traffic.get, Getter.again, Getter.step, Wake.goOn?]
  by_cases hwoken : i ∈ t.queue.wake.woken
  · rw [if_pos hwoken]
    exact vigilant_of_seeks hlt (h.registers.goOn hwoken _) rfl
  · have hsame : t.getters.set i .parked = t.getters := by
      rw [← hget, List.set_getElem_self]
    rw [if_neg hwoken]
    dsimp only
    rw [hsame]
    exact h

theorem Vigilant.get (h : t.Vigilant) {g : Getter κ} (hi : t.getters[i]? = some g) :
    (t.get i g).Vigilant := by
  obtain ⟨hlt, hget⟩ := List.getElem?_eq_some_iff.1 hi
  cases g with
  | enter | closed => exact vigilant_of_seeks hlt (h.registers.set hi nofun _) rfl
  | look round => exact h.look hi
  | park round => exact h.park hi
  | parked => exact h.goOn hi
  | got k =>
      have hsame : t.getters.set i (.got k) = t.getters := by
        rw [← hget, List.set_getElem_self]
      simp only [Traffic.get, Getter.again, Getter.step]
      rw [hsame]
      exact h

theorem Vigilant.next (h : t.Vigilant) (hroused : t.Roused) (e : Event κ) : (t.next e).Vigilant := by
  cases e with
  | add k => exact h.announce (t.queue.announces_add k)
  | addAfter delay k => exact h.announce (t.queue.announces_addAfter t.clock delay k)
  | retry k => exact h.announce (t.queue.announces_retry t.clock k)
  | expire d =>
      simp only [Traffic.next]
      split
      · exact h.announce (t.queue.announces_expire d)
      · exact h
  | get i =>
      simp only [Traffic.next]
      cases hi : t.getters[i]? with
      | none => exact h
      | some g => exact h.get hi
  | done i =>
      simp only [Traffic.next]
      cases hi : t.key? i with
      | none => exact h
      | some k =>
          obtain ⟨g, hg, hkey⟩ := Option.bind_eq_some_iff.1 hi
          have hregisters := (h.announce (t.queue.announces_release k)).registers
          refine vigilant_of_seeks (lt_of_key? hi) (hregisters.set hg ?_ _) rfl
          rintro rfl
          cases hkey
  | forget k => exact h.announce (.inr ⟨rfl, id⟩)
  | drop k => exact h.announce (.inr ⟨rfl, id⟩)
  | shutDown => exact h.all hroused rfl rfl
  | elapse time => exact ⟨h.registers, h.attentive⟩

theorem vigilant_run (limiter : Limiter) (getters : Nat) (events : List (Event κ)) :
    ((boot limiter getters).run events).Vigilant := by
  induction events using List.reverseRecOn with
  | nil => exact vigilant_boot limiter getters
  | append_singleton events e ih =>
      rw [run, List.foldl_concat]
      exact ih.next (roused_run limiter getters events) e

omit [DecidableEq κ] in
theorem Roused.asleep (h : t.Roused) (hshut : t.queue.shuttingDown = true) {g : Getter κ}
    (hi : t.getters[i]? = some g) : g.asleep t.queue.wake i = false := by
  have hreached := h.reached i g hi
  cases g with
  | park round => exact decide_eq_false (Nat.ne_of_lt (hreached.2 hshut))
  | parked =>
      refine decide_eq_false (not_not_intro (hreached.resolve_left ?_))
      rw [h.parked hshut]
      exact List.not_mem_nil
  | _ => rfl

end Traffic

end Visibility
