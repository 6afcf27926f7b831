import Visibility.Proofs.Queue.Traffic

namespace Visibility

namespace Wake

/-- What becomes of one who waits under a ticket: it is still parked, or woken. -/
structure Keeps (w w' : Wake) (ticket : Nat) : Prop where
  round : w.round ≤ w'.round
  ticket : ticket ∈ w.parked ∨ ticket ∈ w.woken → ticket ∈ w'.parked ∨ ticket ∈ w'.woken

variable {w w' : Wake} {ticket : Nat}

theorem Keeps.refl (w : Wake) (ticket : Nat) : w.Keeps w ticket := ⟨Nat.le_refl _, id⟩

theorem keeps_one (w : Wake) (ticket : Nat) : w.Keeps w.one ticket := by
  rw [one]
  split
  · exact ⟨Nat.le_refl _, id⟩
  · rename_i t parked hparked
    refine ⟨Nat.le_refl _, ?_⟩
    rw [hparked]
    rintro (ht | ht)
    · rcases List.mem_cons.1 ht with rfl | ht
      · exact .inr (List.mem_append_right _ (List.mem_singleton_self _))
      · exact .inl ht
    · exact .inr (List.mem_append_left _ ht)

theorem parked_one (h : w.parked = []) : w.one.parked = [] := by
  rw [one, h]

theorem keeps_all (w : Wake) (ticket : Nat) : w.Keeps w.all ticket := by
  refine ⟨Nat.le_succ _, ?_⟩
  rintro (ht | ht)
  · exact .inr (List.mem_append_right _ ht)
  · exact .inr (List.mem_append_left _ ht)

end Wake

namespace Queue

variable {κ : Type} {q q' : Queue κ}

/-- An operation that wakes one getter at most, and does not shut the queue down. -/
structure Nudges (q q' : Queue κ) : Prop where
  wake : q'.wake = q.wake ∨ q'.wake = q.wake.one
  shuttingDown : q'.shuttingDown = q.shuttingDown

theorem Nudges.refl (q : Queue κ) : q.Nudges q := ⟨.inl rfl, rfl⟩

theorem Nudges.keeps (h : q.Nudges q') (ticket : Nat) : q.wake.Keeps q'.wake ticket := by
  rcases h.wake with hwake | hwake
  · rw [hwake]
    exact .refl _ _
  · rw [hwake]
    exact q.wake.keeps_one ticket

theorem Nudges.parked (h : q.Nudges q') (hparked : q.wake.parked = []) : q'.wake.parked = [] := by
  rcases h.wake with hwake | hwake
  · rw [hwake]
    exact hparked
  · rw [hwake]
    exact Wake.parked_one hparked

variable [DecidableEq κ]

theorem nudges_add (q : Queue κ) (k : κ) : q.Nudges (q.add k) := by
  refine ⟨?_, q.shuttingDown_add k⟩
  simp only [add, push, measure]
  split
  · split
    · exact .inl rfl
    · exact .inr rfl
  · exact .inl rfl

theorem nudges_addAfter (q : Queue κ) (now delay : Nat) (k : κ) :
    q.Nudges (q.addAfter now delay k) := by
  rw [addAfter]
  split
  · exact .refl q
  · split
    · exact q.nudges_add k
    · exact ⟨.inl rfl, rfl⟩

theorem nudges_retry (q : Queue κ) (now : Nat) (k : κ) : q.Nudges (q.retry now k) := by
  obtain ⟨hwake, hshut⟩ := nudges_addAfter { q with
    failures := (k, q.requeues k + 1) :: (q.forget k).failures
    metrics := { q.metrics with retries := q.metrics.retries + 1 } } now
    (q.limiter.delay (q.requeues k + 1)) k
  exact ⟨hwake, hshut⟩

theorem nudges_expire (q : Queue κ) (d : Delayed κ) : q.Nudges (q.expire d) := by
  obtain ⟨hwake, hshut⟩ := nudges_add { q with delayed := q.delayed.erase d } d.key
  exact ⟨hwake, hshut⟩

theorem nudges_release (q : Queue κ) (k : κ) : q.Nudges (q.release k) := by
  refine ⟨?_, q.shuttingDown_release k⟩
  simp only [release, push, measure]
  split
  · exact .inr rfl
  · exact .inl rfl

theorem nudges_take? {k : κ} (h : q.take? = some (k, q')) : q.Nudges q' := by
  obtain ⟨rest, -, rfl⟩ := exists_of_take? h
  refine ⟨?_, rfl⟩
  dsimp only
  split
  · exact .inl rfl
  · exact .inr rfl

end Queue

/-- A getter that a shutdown reaches: it has taken a round number that is not too late, and if it is parked
its ticket is with the notifier. -/
def Getter.Reached {κ : Type} (w : Wake) (shut : Bool) (ticket : Nat) : Getter κ → Prop
  | look round => round ≤ w.round
  | park round => round ≤ w.round ∧ (shut = true → round < w.round)
  | parked => ticket ∈ w.parked ∨ ticket ∈ w.woken
  | _ => True

theorem Getter.Reached.keeps {κ : Type} {w w' : Wake} {shut : Bool} {ticket : Nat} {g : Getter κ}
    (h : g.Reached w shut ticket) (hkeeps : w.Keeps w' ticket) : g.Reached w' shut ticket := by
  have hround := hkeeps.round
  cases g with
  | look round => exact Nat.le_trans h hround
  | park round => exact ⟨Nat.le_trans h.1 hround, fun hshut => Nat.lt_of_lt_of_le (h.2 hshut) hround⟩
  | parked => exact hkeeps.ticket h
  | _ => exact trivial

theorem Getter.Reached.all {κ : Type} {w : Wake} {shut : Bool} {ticket : Nat} {g : Getter κ}
    (h : g.Reached w shut ticket) : g.Reached w.all true ticket := by
  have hkeeps := h.keeps (w.keeps_all ticket)
  cases g with
  | park round => exact ⟨hkeeps.1, fun _ => Nat.lt_succ_of_le h.1⟩
  | _ => exact hkeeps

namespace Traffic

variable {κ : Type} {t : Traffic κ} {i : Nat}

/-- Traffic whose getters a shutdown reaches; none of them is parked once it came. -/
structure Roused (t : Traffic κ) : Prop where
  reached : ∀ (i : Nat) (g : Getter κ), t.getters[i]? = some g →
    g.Reached t.queue.wake t.queue.shuttingDown i
  parked : t.queue.shuttingDown = true → t.queue.wake.parked = []

theorem roused_boot (limiter : Limiter) (getters : Nat) :
    (boot limiter getters : Traffic κ).Roused := by
  refine ⟨?_, nofun⟩
  intro i g hg
  obtain rfl := List.eq_of_mem_replicate (List.mem_of_getElem? hg)
  exact trivial

theorem Roused.nudge (h : t.Roused) {q : Queue κ} (hnudges : t.queue.Nudges q) :
    Roused { t with queue := q } := by
  constructor
  · intro i g hg
    show g.Reached q.wake q.shuttingDown i
    rw [hnudges.shuttingDown]
    exact (h.reached i g hg).keeps (hnudges.keeps i)
  · intro hshut
    exact hnudges.parked (h.parked (hnudges.shuttingDown.symm.trans hshut))

theorem Roused.set (h : t.Roused) {q : Queue κ} {g : Getter κ} (hi : i < t.getters.length)
    (hkeeps : ∀ j, j ≠ i → t.queue.wake.Keeps q.wake j) (hshut : q.shuttingDown = t.queue.shuttingDown)
    (hparked : q.shuttingDown = true → t.queue.wake.parked = [] → q.wake.parked = [])
    (hreached : g.Reached q.wake q.shuttingDown i) :
    Roused { t with queue := q, getters := t.getters.set i g } := by
  constructor
  · intro j g' hg
    show g'.Reached q.wake q.shuttingDown j
    by_cases hj : j = i
    · subst hj
      obtain rfl := Option.some.inj ((List.getElem?_set_self hi).symm.trans hg)
      exact hreached
    · rw [hshut]
      refine (h.reached j g' ?_).keeps (hkeeps j hj)
      rw [← List.getElem?_set_ne (Ne.symm hj)]
      exact hg
  · intro hdown
    exact hparked hdown (h.parked (hshut.symm.trans hdown))

variable [DecidableEq κ]

theorem Roused.get (h : t.Roused) {g : Getter κ} (hi : t.getters[i]? = some g) : (t.get i g).Roused := by
  obtain ⟨hlt, -⟩ := List.getElem?_eq_some_iff.1 hi
  have hreached := h.reached i g hi
  have hsame : ∀ j, j ≠ i → t.queue.wake.Keeps t.queue.wake j := fun j _ => .refl _ _
  simp only [Traffic.get]
  cases g with
  | enter => exact h.set hlt hsame rfl (fun _ => id) (Nat.le_refl _)
  | look round =>
      simp only [Getter.again, Getter.step]
      cases ht : t.queue.take? with
      | some r =>
          have hnudges := Queue.nudges_take? ht
          exact h.set hlt (fun j _ => hnudges.keeps j) hnudges.shuttingDown (fun _ => hnudges.parked) trivial
      | none =>
          dsimp only
          split
          · exact h.set hlt hsame rfl (fun _ => id) trivial
          · rename_i hopen
            exact h.set hlt hsame rfl (fun _ => id) ⟨hreached, fun hshut => absurd hshut hopen⟩
  | park round =>
      simp only [Getter.again, Getter.step, Wake.park]
      by_cases hpermit : t.queue.wake.permit = true
      · rw [if_pos hpermit]
        exact h.set hlt (fun j _ => ⟨Nat.le_refl _, id⟩) rfl (fun _ => id) trivial
      rw [if_neg hpermit]
      by_cases hround : t.queue.wake.round ≠ round
      · rw [if_pos hround]
        exact h.set hlt hsame rfl (fun _ => id) trivial
      · rw [if_neg hround]
        refine h.set hlt (fun j _ => ⟨Nat.le_refl _, ?_⟩) rfl (fun hshut => ?_) ?_
        · rintro (hj | hj)
          · exact .inl (List.mem_append_left _ hj)
          · exact .inr hj
        · -- once the queue shut down, the round has moved on and nobody parks
          exact absurd (hreached.2 hshut) (by omega)
        · exact .inl (List.mem_append_right _ (List.mem_singleton_self _))
  | parked =>
      simp only [Getter.again, Getter.step, Wake.goOn?]
      by_cases hwoken : i ∈ t.queue.wake.woken
      · rw [if_pos hwoken]
        refine h.set hlt (fun j hj => ⟨Nat.le_refl _, ?_⟩) rfl (fun _ => id) trivial
        exact Or.imp_right (List.mem_erase_of_ne hj).2
      · rw [if_neg hwoken]
        exact h.set hlt hsame rfl (fun _ => id) hreached
  | got k => exact h.set hlt hsame rfl (fun _ => id) trivial
  | closed => exact h.set hlt hsame rfl (fun _ => id) (Nat.le_refl _)

theorem Roused.next (h : t.Roused) (e : Event κ) : (t.next e).Roused := by
  cases e with
  | add k => exact h.nudge (t.queue.nudges_add k)
  | addAfter delay k => exact h.nudge (t.queue.nudges_addAfter t.clock delay k)
  | retry k => exact h.nudge (t.queue.nudges_retry t.clock k)
  | expire d =>
      simp only [Traffic.next]
      split
      · exact h.nudge (t.queue.nudges_expire d)
      · exact h
  | get i =>
      simp only [Traffic.next]
      cases hi : t.getters[i]? with
      | none => exact h
      | some g => exact h.get hi
  | done i =>
      simp only [Traffic.next]
      cases hi : t.key? i with
      | none => exact h
      | some k =>
          have hnudges := t.queue.nudges_release k
          exact h.set (lt_of_key? hi) (fun j _ => hnudges.keeps j) hnudges.shuttingDown
            (fun _ => hnudges.parked) trivial
  | forget k => exact h.nudge ⟨.inl rfl, rfl⟩
  | drop k => exact h.nudge ⟨.inl rfl, rfl⟩
  | shutDown => exact ⟨fun i g hg => (h.reached i g hg).all, fun _ => rfl⟩
  | elapse time => exact ⟨h.reached, h.parked⟩

theorem roused_run (limiter : Limiter) (getters : Nat) (events : List (Event κ)) :
    ((boot limiter getters).run events).Roused := by
  induction events using List.reverseRecOn with
  | nil => exact roused_boot limiter getters
  | append_singleton events e ih =>
      rw [run, List.foldl_concat]
      exact ih.next e

end Traffic

namespace Getter

variable {κ : Type}

/-- How many steps a getter takes at most to learn that a queue without keys shut down. -/
def remaining : Getter κ → Nat
  | park _ | parked => 3
  | enter => 2
  | look _ => 1
  | got _ | closed => 0

theorem remaining_le (g : Getter κ) : g.remaining ≤ 3 := by
  cases g <;> exact of_decide_eq_true rfl

/-- Once the queue shut down, every step of a getter brings it closer to its end, unless it takes a key. -/
theorem remaining_step [DecidableEq κ] {q : Queue κ} {ticket : Nat} {g : Getter κ}
    (hreached : g.Reached q.wake true ticket) (hshut : q.shuttingDown = true)
    (hparked : q.wake.parked = []) (htakes : ∀ k, (g.step ticket q).2 ≠ .got k) (hg : g.remaining ≠ 0) :
    (g.step ticket q).2.remaining < g.remaining ∧ (g.step ticket q).2.key? = none := by
  cases g with
  | enter => exact ⟨Nat.lt_succ_self 1, rfl⟩
  | look round =>
      obtain ⟨-, hlook⟩ := step_waits htakes
      simp only [step, hlook round rfl, if_pos hshut]
      exact ⟨Nat.zero_lt_one, rfl⟩
  | park round =>
      have hround : q.wake.round ≠ round := Nat.ne_of_gt (hreached.2 rfl)
      simp only [step, Wake.park]
      by_cases hpermit : q.wake.permit = true
      · rw [if_pos hpermit]
        exact ⟨Nat.lt_succ_self 2, rfl⟩
      · rw [if_neg hpermit, if_pos hround]
        exact ⟨Nat.lt_succ_self 2, rfl⟩
  | parked =>
      have hwoken : ticket ∈ q.wake.woken := by
        rcases hreached with hin | hin
        · rw [hparked] at hin
          cases hin
        · exact hin
      simp only [step, Wake.goOn?, if_pos hwoken]
      exact ⟨Nat.lt_succ_self 2, rfl⟩
  | got k => exact absurd rfl hg
  | closed => exact absurd rfl hg

end Getter

end Visibility
