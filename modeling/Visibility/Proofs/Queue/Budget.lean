import Mathlib.Data.List.Count
import Visibility.Proofs.Queue.Account
import Visibility.Table.Lemmas

/-!
The budget of a key: how often it may be handed out if it is tried again a limited number of times after it
failed.

Each add that is not a retry pays for one hand-out and all the retries after it. A hand-out to come has its
full price put by, whether the key is dirty or its delay runs, and a key that is being handled has that of
its retries. Each failure that is counted stands for a hand-out that is put by and will not be needed.
-/

namespace Visibility

namespace Queue

variable {κ : Type} [DecidableEq κ] {q q' : Queue κ} {j k : κ}

/-- How many hand-outs of a key are to come: the one that it is dirty for, and one for each delay. -/
def pending (q : Queue κ) (k : κ) : Nat :=
  (if k ∈ q.dirty then 1 else 0) + q.delayed.countP (·.key = k)

theorem pending_pos_iff : 0 < q.pending k ↔ k ∈ q.dirty ∨ ∃ d ∈ q.delayed, d.key = k := by
  have hdelayed : 0 < q.delayed.countP (·.key = k) ↔ ∃ d ∈ q.delayed, d.key = k := by
    simp [List.countP_pos_iff]
  rw [pending, ← hdelayed]
  by_cases hk : k ∈ q.dirty
  · simp only [hk, if_true, true_or, iff_true]
    omega
  · simp only [hk, if_false, false_or, Nat.zero_add]

@[simp] theorem delayed_add (q : Queue κ) (k : κ) : (q.add k).delayed = q.delayed := by
  simp only [add, push, measure]
  split
  · split <;> rfl
  · rfl

@[simp] theorem delayed_release (q : Queue κ) (k : κ) : (q.release k).delayed = q.delayed := by
  simp only [release, push, measure]
  split <;> rfl

theorem delayed_take? (h : q.take? = some (k, q')) : q'.delayed = q.delayed := by
  obtain ⟨rest, -, rfl⟩ := exists_of_take? h
  rfl

theorem pending_add (q : Queue κ) (j k : κ) :
    (q.add j).pending k = q.pending k + if j = k ∧ q.accepts k = true then 1 else 0 := by
  simp only [pending, delayed_add, dirty_add]
  by_cases hj : j = k
  · subst hj
    by_cases haccepts : q.accepts j = true
    · obtain ⟨-, hnew⟩ := accepts_eq_true_iff.1 haccepts
      simp [haccepts, hnew]
      omega
    · simp [haccepts]
  · by_cases haccepts : q.accepts j = true
    · simp [haccepts, hj, Ne.symm hj]
    · simp [haccepts, hj]

theorem count_accepted (q : Queue κ) (j k : κ) :
    ((some j).filter q.accepts).toList.count k = if j = k ∧ q.accepts k = true then 1 else 0 := by
  by_cases hk : j = k ∧ q.accepts k = true
  · obtain ⟨rfl, haccepts⟩ := hk
    rw [Option.filter_some_pos haccepts, Option.toList_some, List.count_singleton_self,
      if_pos ⟨rfl, haccepts⟩]
  · rw [if_neg hk, List.count_eq_zero, Option.mem_toList, Option.filter_eq_some_iff]
    rintro ⟨hj, haccepts⟩
    exact hk ⟨Option.some.inj hj, haccepts⟩

theorem pending_take? (hcoherent : q.Coherent) (h : q.take? = some (j, q')) (k : κ) :
    q.pending k = q'.pending k + if j = k then 1 else 0 := by
  obtain ⟨hwaiting, hdirty, -, -⟩ := take?_eq_some h
  have hj : j ∈ q.dirty := hcoherent.dirty j (hwaiting ▸ List.mem_cons_self)
  simp only [pending, delayed_take? h, hdirty]
  by_cases hjk : j = k
  · subst hjk
    simp [hj]
    omega
  · simp [hjk, Ne.symm hjk]

/-- A key that is added is to be handed out at most once more, and at least once unless the queue shuts
down. -/
structure Owes (q q' : Queue κ) (j k : κ) : Prop where
  le : q'.pending k ≤ q.pending k + if j = k then 1 else 0
  pos : q.shuttingDown = false → j = k ∨ 0 < q.pending k → 0 < q'.pending k

theorem owes_add (q : Queue κ) (j k : κ) : q.Owes (q.add j) j k := by
  have hpending := q.pending_add j k
  constructor
  · rw [hpending]
    by_cases hj : j = k
    · rw [if_pos hj]
      split <;> omega
    · simp [hj]
  · rintro hopen (rfl | hk)
    · exact pending_pos_iff.2 (.inl (mem_dirty_add.2 (.inr ⟨rfl, hopen⟩)))
    · omega

theorem owes_addAfter (q : Queue κ) (now delay : Nat) (j k : κ) :
    q.Owes (q.addAfter now delay j) j k := by
  rw [addAfter]
  by_cases hshut : q.shuttingDown = true
  · rw [if_pos hshut]
    exact ⟨Nat.le_add_right _ _, fun hopen => absurd hshut (by simp [hopen])⟩
  rw [if_neg hshut]
  by_cases hdelay : delay = 0
  · rw [if_pos hdelay]
    exact q.owes_add j k
  · rw [if_neg hdelay]
    have hpending : pending { q with delayed := q.delayed ++ [⟨Clock.after now delay, j⟩] } k =
        q.pending k + if j = k then 1 else 0 := by
      simp only [pending, List.countP_append, List.countP_singleton, decide_eq_true_eq]
      omega
    refine ⟨Nat.le_of_eq hpending, fun _ hk => ?_⟩
    rw [hpending]
    rcases hk with rfl | hk
    · rw [if_pos rfl]
      omega
    · omega

theorem owes_retry (q : Queue κ) (now : Nat) (j k : κ) : q.Owes (q.retry now j) j k := by
  obtain ⟨hle, hpos⟩ := owes_addAfter { q with
    failures := (j, q.requeues j + 1) :: (q.forget j).failures
    metrics := { q.metrics with retries := q.metrics.retries + 1 } } now
    (q.limiter.delay (q.requeues j + 1)) j k
  exact ⟨hle, hpos⟩

/-- The end of a delay is worth a hand-out of the key, unless one is to come anyway. -/
theorem pending_expire {d : Delayed κ} (hd : d ∈ q.delayed) (k : κ) :
    (q.expire d).pending k ≤ q.pending k ∧
      (q.shuttingDown = false → 0 < q.pending k → 0 < (q.expire d).pending k) := by
  have herase : pending { q with delayed := q.delayed.erase d } k + (if d.key = k then 1 else 0) =
      q.pending k := by
    have hpos : d.key = k → 0 < q.delayed.countP (·.key = k) := fun hk =>
      List.countP_pos_iff.2 ⟨d, hd, decide_eq_true hk⟩
    simp only [pending, List.countP_erase, hd, true_and, decide_eq_true_eq]
    by_cases hk : d.key = k
    · have := hpos hk
      simp only [hk, if_true]
      omega
    · simp only [hk, if_false]
      omega
  obtain ⟨hle, hpos⟩ := owes_add { q with delayed := q.delayed.erase d } d.key k
  refine ⟨herase ▸ hle, fun hopen hk => hpos hopen ?_⟩
  by_cases hkey : d.key = k
  · exact .inl hkey
  · rw [if_neg hkey, Nat.add_zero] at herase
    exact .inr (herase ▸ hk)

theorem pending_release (q : Queue κ) (j k : κ) : (q.release j).pending k = q.pending k := by
  rw [pending, dirty_release, delayed_release, pending]

theorem pending_shutDown (q : Queue κ) (k : κ) : q.shutDown.pending k ≤ q.pending k := by
  simp only [pending, shutDown, List.countP_nil]
  exact Nat.le_add_right _ _

theorem requeues_add (q : Queue κ) (j k : κ) : (q.add j).requeues k = q.requeues k := by
  simp only [add, push, measure]
  split
  · split <;> rfl
  · rfl

theorem requeues_addAfter (q : Queue κ) (now delay : Nat) (j k : κ) :
    (q.addAfter now delay j).requeues k = q.requeues k := by
  rw [addAfter]
  split
  · rfl
  · split
    · exact q.requeues_add j k
    · rfl

theorem requeues_forget (q : Queue κ) (j k : κ) :
    (q.forget j).requeues k = if k = j then 0 else q.requeues k := by
  rw [requeues, forget, Table.lookup_filter_ne, requeues]
  split <;> rfl

theorem requeues_retry (q : Queue κ) (now : Nat) (j k : κ) :
    (q.retry now j).requeues k = if k = j then q.requeues k + 1 else q.requeues k := by
  rw [retry, requeues_addAfter, requeues, Table.lookup_cons_eq]
  split
  · rename_i hk
    rw [hk]
    rfl
  · rename_i hk
    exact (q.requeues_forget j k).trans (if_neg hk)

theorem requeues_release (q : Queue κ) (j k : κ) : (q.release j).requeues k = q.requeues k := by
  simp only [release, push, measure]
  split <;> rfl

theorem requeues_take? (h : q.take? = some (j, q')) (k : κ) : q'.requeues k = q.requeues k := by
  obtain ⟨rest, -, rfl⟩ := exists_of_take? h
  rfl

/-- The budget of a key, which is being handled by a number of workers, had a number of adds that were not
retries, and was handed out a number of times. -/
structure Budget (q : Queue κ) (retries : Nat) (k : κ) (busy arrived handed : Nat) : Prop where
  within : q.requeues k ≤ retries
  paid : handed + retries * busy + (retries + 1) * q.pending k ≤
    (retries + 1) * arrived + q.requeues k
  bound : handed ≤ (retries + 1) * arrived
  owed : q.shuttingDown = false → q.requeues k ≠ 0 → 0 < q.pending k + busy

variable {retries busy arrived handed : Nat}

theorem budget_new (l : Limiter) : ({ limiter := l } : Queue κ).Budget retries k 0 0 0 :=
  ⟨Nat.zero_le _, Nat.zero_le _, Nat.zero_le _, fun _ h => absurd rfl h⟩

theorem Budget.keep (h : q.Budget retries k busy arrived handed) (hrequeues : q'.requeues k = q.requeues k)
    (hpending : q'.pending k ≤ q.pending k)
    (howed : q'.shuttingDown = false →
      q.shuttingDown = false ∧ (0 < q.pending k → 0 < q'.pending k)) :
    q'.Budget retries k busy arrived handed := by
  have hpaid := h.paid
  have hmul := Nat.mul_le_mul_left (retries + 1) hpending
  refine ⟨hrequeues ▸ h.within, ?_, h.bound, ?_⟩
  · rw [hrequeues]
    omega
  · intro hopen hfailed
    obtain ⟨hopen, hpos⟩ := howed hopen
    have howed := h.owed hopen (hrequeues ▸ hfailed)
    omega

theorem Budget.add (h : q.Budget retries k busy arrived handed) (j : κ) :
    (q.add j).Budget retries k busy (arrived + ((some j).filter q.accepts).toList.count k) handed := by
  have hpending := q.pending_add j k
  have hpaid := h.paid
  have hbound := h.bound
  rw [count_accepted]
  by_cases hk : j = k ∧ q.accepts k = true
  · rw [if_pos hk] at hpending ⊢
    refine ⟨(q.requeues_add j k).symm ▸ h.within, ?_, ?_, fun _ _ => by omega⟩
    · -- the new add puts by the price of the hand-out that is now to come
      rw [hpending, requeues_add, Nat.mul_succ, Nat.mul_succ]
      omega
    · rw [Nat.mul_succ]
      omega
  · rw [if_neg hk, Nat.add_zero] at hpending
    rw [if_neg hk]
    refine h.keep (q.requeues_add j k) (Nat.le_of_eq hpending) fun hopen => ?_
    rw [shuttingDown_add] at hopen
    exact ⟨hopen, fun hpos => hpending ▸ hpos⟩

theorem Budget.take (h : q.Budget retries k busy arrived handed) (hcoherent : q.Coherent)
    (ht : q.take? = some (j, q')) :
    q'.Budget retries k (busy + (decide (j = k)).toNat) arrived (handed + (decide (j = k)).toNat) := by
  have hpending := pending_take? hcoherent ht k
  have hrequeues := requeues_take? ht k
  by_cases hj : j = k
  · have hpaid := h.paid
    have hwithin := h.within
    rw [if_pos hj] at hpending
    rw [hpending, Nat.mul_succ] at hpaid
    rw [decide_eq_true hj, Bool.toNat_true]
    refine ⟨hrequeues ▸ h.within, ?_, ?_, fun _ _ => by omega⟩
    · -- one part of what was put by pays for the hand-out, the rest stays for the retries
      rw [hrequeues, Nat.mul_succ]
      omega
    · omega
  · obtain ⟨-, -, -, hsame⟩ := take?_eq_some ht
    rw [if_neg hj, Nat.add_zero] at hpending
    rw [decide_eq_false hj]
    refine h.keep hrequeues (Nat.le_of_eq hpending.symm) fun hopen => ?_
    exact ⟨hsame.symm.trans hopen, fun hpos => hpending ▸ hpos⟩

theorem Budget.forget (h : q.Budget retries k (busy + 1) arrived handed) :
    (q.forget k).Budget retries k busy arrived handed := by
  have hrequeues : (q.forget k).requeues k = 0 := (q.requeues_forget k k).trans (if_pos rfl)
  have hpending : (q.forget k).pending k = q.pending k := rfl
  have hpaid := h.paid
  have hwithin := h.within
  rw [Nat.mul_succ] at hpaid
  refine ⟨hrequeues ▸ Nat.zero_le _, ?_, h.bound, fun _ hfailed => absurd hrequeues hfailed⟩
  -- the count falls to nothing, but by no more than the handling had put by for retries
  rw [hrequeues, hpending]
  omega

theorem Budget.retry (h : q.Budget retries k (busy + 1) arrived handed) (hleft : q.requeues k < retries)
    (now : Nat) : (q.retry now k).Budget retries k busy arrived handed := by
  obtain ⟨hle, hpos⟩ := q.owes_retry now k k
  have hrequeues : (q.retry now k).requeues k = q.requeues k + 1 :=
    (q.requeues_retry now k k).trans (if_pos rfl)
  have hpaid := h.paid
  have hmul := Nat.mul_le_mul_left (retries + 1) hle
  rw [if_pos rfl, Nat.mul_succ] at hmul
  rw [Nat.mul_succ] at hpaid
  refine ⟨hrequeues ▸ hleft, ?_, h.bound, ?_⟩
  · -- the count rises by one, which with what the handling had put by is the price of a hand-out
    rw [hrequeues]
    omega
  · intro hopen _
    have := hpos ((q.grows_retry now k).shuttingDown ▸ hopen) (.inl rfl)
    omega

end Queue

end Visibility
