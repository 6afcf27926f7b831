import Visibility.Proofs.Queue.Attempts
import Visibility.Proofs.Queue.Vigil

namespace Visibility

namespace Getter

variable {κ : Type} [DecidableEq κ] {q : Queue κ} {ticket : Nat} {g : Getter κ}

/-- A getter that will look at the queue comes closer to its look with each step. -/
theorem step_seeks (h : g.seeks q.wake ticket = true) :
    (∃ round, g = .look round) ∨ (g.step ticket q).2.seeks (g.step ticket q).1.wake ticket = true ∧
      (g.step ticket q).2.remaining < g.remaining := by
  cases g with
  | enter => exact .inr ⟨rfl, Nat.lt_succ_self 1⟩
  | look round => exact .inl ⟨round, rfl⟩
  | park round =>
      refine .inr ?_
      have hround : q.wake.round ≠ round := Ne.symm (of_decide_eq_true h)
      simp only [step, Wake.park]
      by_cases hpermit : q.wake.permit = true
      · rw [if_pos hpermit]
        exact ⟨rfl, Nat.lt_succ_self 2⟩
      · rw [if_neg hpermit, if_pos hround]
        exact ⟨rfl, Nat.lt_succ_self 2⟩
  | parked =>
      have hwoken : ticket ∈ q.wake.woken := of_decide_eq_true h
      simp only [step, Wake.goOn?, if_pos hwoken]
      exact .inr ⟨rfl, Nat.lt_succ_self 2⟩
  | got k | closed => cases h

end Getter

namespace Wake

/-- A notifier that woke those who were woken before, in the same round. -/
structure Retains (w w' : Wake) (ticket : Nat) : Prop where
  round : w'.round = w.round
  woken : ticket ∈ w.woken → ticket ∈ w'.woken

theorem Retains.refl (w : Wake) (ticket : Nat) : w.Retains w ticket := ⟨rfl, id⟩

theorem retains_one (w : Wake) (ticket : Nat) : w.Retains w.one ticket := by
  rw [one]
  split
  · exact ⟨rfl, id⟩
  · exact ⟨rfl, List.mem_append_left _⟩

theorem Retains.seeks {κ : Type} {w w' : Wake} {ticket : Nat} (h : w.Retains w' ticket) {g : Getter κ}
    (hseeks : g.seeks w ticket = true) : g.seeks w' ticket = true := by
  cases g with
  | park round =>
      refine decide_eq_true ?_
      rw [h.round]
      exact of_decide_eq_true hseeks
  | parked => exact decide_eq_true (h.woken (of_decide_eq_true hseeks))
  | _ => exact hseeks

end Wake

theorem Queue.Nudges.retains {κ : Type} {q q' : Queue κ} (h : q.Nudges q') (ticket : Nat) :
    q.wake.Retains q'.wake ticket := by
  rcases h.wake with hwake | hwake
  · rw [hwake]
    exact .refl _ _
  · rw [hwake]
    exact q.wake.retains_one ticket

theorem Getter.retains_step {κ : Type} [DecidableEq κ] {i ticket : Nat} (h : ticket ≠ i) (q : Queue κ)
    (g : Getter κ) : q.wake.Retains (g.step i q).1.wake ticket := by
  have hsame := Wake.Retains.refl q.wake ticket
  cases g with
  | look round =>
      simp only [step]
      cases ht : q.take? with
      | some r => exact (Queue.nudges_take? ht).retains ticket
      | none =>
          dsimp only
          split <;> exact hsame
  | park round =>
      simp only [step, Wake.park]
      by_cases hpermit : q.wake.permit = true
      · rw [if_pos hpermit]
        exact ⟨rfl, id⟩
      rw [if_neg hpermit]
      by_cases hround : q.wake.round ≠ round
      · rw [if_pos hround]
        exact hsame
      · rw [if_neg hround]
        exact ⟨rfl, id⟩
  | parked =>
      simp only [step, Wake.goOn?]
      by_cases hwoken : i ∈ q.wake.woken
      · rw [if_pos hwoken]
        exact ⟨rfl, (List.mem_erase_of_ne h).2⟩
      · rw [if_neg hwoken]
        exact hsame
  | _ => exact hsame

namespace Traffic

variable {κ : Type} [DecidableEq κ] {t : Traffic κ}

theorem retains_next {e : Event κ} {ticket : Nat} (he : e ≠ .get ticket)
    (hopen : (t.next e).queue.shuttingDown = false) :
    t.queue.wake.Retains (t.next e).queue.wake ticket := by
  have hsame := Wake.Retains.refl t.queue.wake ticket
  cases e with
  | add k => exact (t.queue.nudges_add k).retains ticket
  | addAfter delay k => exact (t.queue.nudges_addAfter t.clock delay k).retains ticket
  | retry k => exact (t.queue.nudges_retry t.clock k).retains ticket
  | expire d =>
      simp only [next]
      split
      · exact (t.queue.nudges_expire d).retains ticket
      · exact hsame
  | get i =>
      have hi : ticket ≠ i := fun h => he (congrArg _ h.symm)
      simp only [next]
      cases t.getters[i]? with
      | none => exact hsame
      | some g =>
          show t.queue.wake.Retains (g.again.step i t.queue).1.wake ticket
          exact g.again.retains_step hi t.queue
  | done i =>
      simp only [next]
      cases t.key? i with
      | none => exact hsame
      | some k => exact (t.queue.nudges_release k).retains ticket
  | shutDown => cases hopen
  | _ => exact hsame

theorem Move.waiting {t' : Traffic κ} {entry : Option (Entry κ)} (h : t.Move t' entry) :
    (∃ k, entry = some (.handed k) ∧ t.queue.waiting = k :: t'.queue.waiting) ∨
      (∀ k, entry ≠ some (.handed k)) ∧ t.queue.waiting <+: t'.queue.waiting := by
  cases h with
  | still hqueue hkeys => exact .inr ⟨nofun, hqueue.waiting ▸ List.prefix_refl _⟩
  | accept q k hstill haccepts hqueue hkeys =>
      refine .inr ⟨nofun, ?_⟩
      rw [hqueue, ← hstill.waiting, Queue.add, if_pos haccepts]
      dsimp only
      split
      · exact List.prefix_refl _
      · exact List.prefix_append _ _
  | hand i k htake hfree hkeys =>
      obtain ⟨hwaiting, -⟩ := Queue.take?_eq_some htake
      exact .inl ⟨k, rfl, hwaiting⟩
  | release i k hi hqueue hkeys =>
      refine .inr ⟨nofun, ?_⟩
      rw [hqueue, Queue.release]
      dsimp only
      split
      · exact List.prefix_append _ _
      · exact List.prefix_refl _
  | shutDown hqueue hkeys => exact .inr ⟨nofun, hqueue ▸ List.prefix_refl _⟩

theorem mem_delayed_next {x : Delayed κ} (hx : x ∈ t.queue.delayed) {e : Event κ}
    (hopen : (t.next e).queue.shuttingDown = false) :
    x ∈ (t.next e).queue.delayed ∨ e = .expire x ∧ x.due ≤ t.clock := by
  have haddAfter : ∀ (q : Queue κ) (delay : Nat) (k : κ), x ∈ q.delayed →
      x ∈ (q.addAfter t.clock delay k).delayed := by
    intro q delay k hq
    rw [Queue.addAfter]
    split
    · exact hq
    · split
      · rwa [Queue.delayed_add]
      · exact List.mem_append_left _ hq
  cases e with
  | add k =>
      refine .inl ?_
      show x ∈ (t.queue.add k).delayed
      rwa [Queue.delayed_add]
  | addAfter delay k => exact .inl (haddAfter t.queue delay k hx)
  | retry k => exact .inl (haddAfter _ _ k hx)
  | expire y =>
      simp only [next]
      split
      · rename_i hy
        by_cases hxy : x = y
        · exact .inr ⟨by rw [hxy], hxy ▸ hy.2⟩
        · refine .inl ?_
          show x ∈ (t.queue.expire y).delayed
          rw [Queue.expire, Queue.delayed_add]
          exact (List.mem_erase_of_ne hxy).2 hx
      · exact .inl hx
  | get i =>
      refine .inl ?_
      simp only [next]
      cases t.getters[i]? with
      | none => exact hx
      | some g =>
          show x ∈ (g.again.step i t.queue).1.delayed
          rcases g.again.step_queue i t.queue with ⟨wake, hwake⟩ | ⟨k, htake⟩
          · rw [hwake]
            exact hx
          · rwa [Queue.delayed_take? htake]
  | done i =>
      refine .inl ?_
      simp only [next]
      cases t.key? i with
      | none => exact hx
      | some k =>
          show x ∈ (t.queue.release k).delayed
          rwa [Queue.delayed_release]
  | shutDown => cases hopen
  | _ => exact .inl hx

end Traffic

end Visibility
