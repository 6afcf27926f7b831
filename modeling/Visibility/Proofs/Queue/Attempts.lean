import Visibility.Proofs.Queue.Budget
import Visibility.Proofs.Queue.Traffic

namespace Visibility

/-- What happened to a key: how often it was added other than to be tried again and how often it was handed
out, whether its tries succeeded, in order, how often it was to be tried again and how often it was given
up. -/
@[ext] structure Attempts where
  arrived : Nat := 0
  handed : Nat := 0
  outcomes : List Bool := []
  retried : Nat := 0
  dropped : Nat := 0
deriving DecidableEq

namespace Attempts

instance : Append Attempts where
  append a b := ⟨a.arrived + b.arrived, a.handed + b.handed, a.outcomes ++ b.outcomes,
    a.retried + b.retried, a.dropped + b.dropped⟩

@[simp] theorem arrived_append (a b : Attempts) : (a ++ b).arrived = a.arrived + b.arrived := rfl

@[simp] theorem handed_append (a b : Attempts) : (a ++ b).handed = a.handed + b.handed := rfl

@[simp] theorem outcomes_append (a b : Attempts) : (a ++ b).outcomes = a.outcomes ++ b.outcomes := rfl

@[simp] theorem retried_append (a b : Attempts) : (a ++ b).retried = a.retried + b.retried := rfl

@[simp] theorem dropped_append (a b : Attempts) : (a ++ b).dropped = a.dropped + b.dropped := rfl

/-- What happened to a key that was added once and given up after its retries. -/
def givenUp (retries : Nat) : Attempts :=
  ⟨1, retries + 1, List.replicate (retries + 1) false, retries, 1⟩

@[simp] theorem append_nothing (a : Attempts) : a ++ ({} : Attempts) = a := by
  ext1 <;> simp

end Attempts

namespace Queue

variable {κ : Type} [DecidableEq κ] {q q' : Queue κ} {j k : κ} {retries now busy busy' : Nat}
  {a b : Attempts}

theorem pending_retry_of_ne (h : j ≠ k) (q : Queue κ) (now : Nat) :
    (q.retry now j).pending k = q.pending k := by
  simp only [retry, addAfter]
  split
  · rfl
  · split
    · rw [pending_add, if_neg fun hk => h hk.1]
      rfl
    · simp [pending, h]

/-- What a step does to a key that some workers work on, and what happens to the key. -/
inductive Course (retries now : Nat) (k : κ) (q q' : Queue κ) (busy busy' : Nat) (a : Attempts) : Prop where
  | still (hpending : q'.pending k = q.pending k ∨ 1 < q.pending k) (hfailures : q'.requeues k = q.requeues k)
      (hbusy : busy' = busy) (ha : a = {})
  | added (hpending : q'.pending k = q.pending k + 1) (hfailures : q'.requeues k = q.requeues k)
      (hbusy : busy' = busy) (ha : a = { arrived := 1 })
  | taken (hpending : q.pending k = q'.pending k + 1) (hfailures : q'.requeues k = q.requeues k)
      (hbusy : busy' = busy + 1) (ha : a = { handed := 1 })
  | succeeded (hqueue : q' = q.forget k) (hbusy : busy = busy' + 1) (ha : a = { outcomes := [true] })
  | retried (hqueue : q' = q.retry now k) (hleft : q.requeues k < retries) (hbusy : busy = busy' + 1)
      (ha : a = { outcomes := [false], retried := 1 })
  | dropped (hqueue : q' = q.drop k) (hleft : retries ≤ q.requeues k) (hbusy : busy = busy' + 1)
      (ha : a = { outcomes := [false], dropped := 1 })

theorem course_add (q : Queue κ) (retries now : Nat) (j k : κ) (busy : Nat) :
    q.Course retries now k (q.add j) busy busy
      { arrived := ((some j).filter q.accepts).toList.count k } := by
  have hpending := q.pending_add j k
  have hfailures := q.requeues_add j k
  rw [count_accepted]
  by_cases hk : j = k ∧ q.accepts k = true
  · rw [if_pos hk] at hpending ⊢
    exact .added hpending hfailures rfl rfl
  · rw [if_neg hk] at hpending ⊢
    exact .still (.inl hpending) hfailures rfl rfl

/-- How a key stands that was added at most once, given what happened to it. -/
inductive Standing (retries : Nat) (k : κ) (q : Queue κ) (busy : Nat) (a : Attempts) : Prop where
  | fresh (hpending : q.pending k = 0) (hbusy : busy = 0) (hfailures : q.requeues k = 0) (ha : a = {})
  /-- Every try so far failed, and another one is to come. -/
  | underWay (n : Nat) (hn : n ≤ retries) (hplace : q.pending k + busy = 1) (hfailures : q.requeues k = n)
      (ha : a = ⟨1, n + busy, List.replicate n false, n, 0⟩)
  | succeeded (n : Nat) (hn : n ≤ retries) (hpending : q.pending k = 0) (hbusy : busy = 0)
      (hfailures : q.requeues k = 0) (ha : a = ⟨1, n + 1, List.replicate n false ++ [true], n, 0⟩)
  | dropped (hpending : q.pending k = 0) (hbusy : busy = 0) (hfailures : q.requeues k = 0)
      (ha : a = .givenUp retries)

theorem Standing.le_one (h : q.Standing retries k busy a) : q.pending k + busy ≤ 1 := by
  cases h with
  | underWay n hn hplace hfailures ha => omega
  | _ => omega

theorem Standing.underWay_of_pos (h : q.Standing retries k busy a) (hpos : 0 < q.pending k + busy) :
    q.requeues k ≤ retries ∧ q.pending k + busy = 1 ∧
      a = ⟨1, q.requeues k + busy, List.replicate (q.requeues k) false, q.requeues k, 0⟩ := by
  cases h with
  | underWay n hn hplace hfailures ha => exact ⟨hfailures ▸ hn, hplace, hfailures ▸ ha⟩
  | _ => omega

theorem Standing.next (h : q.Standing retries k busy a) (hcourse : q.Course retries now k q' busy busy' b)
    (hopen : q.shuttingDown = false) (honce : (a ++ b).arrived ≤ 1) :
    q'.Standing retries k busy' (a ++ b) := by
  have hone := h.le_one
  cases hcourse with
  | still hpending hfailures hbusy hb =>
      have hsame : q'.pending k = q.pending k := hpending.resolve_right (by omega)
      subst hb hbusy
      rw [Attempts.append_nothing]
      cases h with
      | fresh hp hb hf ha => exact .fresh (hsame.trans hp) hb (hfailures.trans hf) ha
      | underWay n hn hplace hf ha => exact .underWay n hn (hsame ▸ hplace) (hfailures.trans hf) ha
      | succeeded n hn hp hb hf ha => exact .succeeded n hn (hsame.trans hp) hb (hfailures.trans hf) ha
      | dropped hp hb hf ha => exact .dropped (hsame.trans hp) hb (hfailures.trans hf) ha
  | added hpending hfailures hbusy hb =>
      subst hb
      cases h with
      | fresh hp hb hf ha =>
          subst ha hb
          refine .underWay 0 (Nat.zero_le _) (by omega) (hfailures.trans hf) ?_
          subst hbusy
          rfl
      | underWay n hn hplace hf ha | succeeded n hn hp hb hf ha | dropped hp hb hf ha =>
          rw [ha] at honce
          exact absurd honce (Nat.not_succ_le_self 1)
  | taken hpending hfailures hbusy hb =>
      obtain ⟨hn, hplace, ha⟩ := h.underWay_of_pos (by omega)
      subst ha hb
      refine .underWay _ hn (by omega) hfailures ?_
      ext1 <;> simp
      omega
  | succeeded hqueue hbusy hb =>
      obtain ⟨hn, hplace, ha⟩ := h.underWay_of_pos (by omega)
      subst ha hb hqueue
      refine .succeeded _ hn (by show q.pending k = 0; omega) (by omega) ?_ ?_
      · rw [requeues_forget, if_pos rfl]
      · ext1 <;> simp
        omega
  | retried hqueue hleft hbusy hb =>
      obtain ⟨hn, hplace, ha⟩ := h.underWay_of_pos (by omega)
      obtain ⟨hle, hpos⟩ := q.owes_retry now k k
      have hbetween := hpos hopen (.inl rfl)
      rw [if_pos rfl] at hle
      subst ha hb hqueue
      refine .underWay _ hleft (by omega) ?_ ?_
      · rw [requeues_retry, if_pos rfl]
      · ext1 <;> simp [List.replicate_succ']
        omega
  | dropped hqueue hleft hbusy hb =>
      obtain ⟨hn, hplace, ha⟩ := h.underWay_of_pos (by omega)
      have hall := Nat.le_antisymm hn hleft
      subst ha hb hqueue
      refine .dropped (by show q.pending k = 0; omega) (by omega) ?_ ?_
      · exact (q.requeues_forget k k).trans (if_pos rfl)
      · rw [hall, Attempts.givenUp]
        ext1 <;> simp [List.replicate_succ']
        omega

theorem retry_at_once (hopen : q.shuttingDown = false) (hclean : k ∉ q.dirty) (hheld : k ∈ q.processing)
    (hwait : q.limiter.delay (q.requeues k + 1) = 0) (now : Nat) :
    k ∈ (q.retry now k).dirty := by
  simp [retry, addAfter, hopen, hwait, add, accepts, hclean, hheld]

theorem retry_later (hopen : q.shuttingDown = false) (hwait : q.limiter.delay (q.requeues k + 1) ≠ 0)
    (now : Nat) :
    (q.retry now k).delayed =
      q.delayed ++ [⟨Clock.after now (q.limiter.delay (q.requeues k + 1)), k⟩] := by
  simp [retry, addAfter, hopen, hwait]

theorem not_mem_dirty_of_delayed {x : Delayed κ} (hx : x ∈ q.delayed) (hone : q.pending x.key = 1) :
    x.key ∉ q.dirty := by
  intro hdirty
  have hpos : 0 < q.delayed.countP (·.key = x.key) :=
    List.countP_pos_iff.2 ⟨x, hx, decide_eq_true rfl⟩
  rw [pending, if_pos hdirty] at hone
  omega

/-- A queue of the same limiter whose counters tell of some more retries and drops. -/
structure Tallies (q q' : Queue κ) (retries drops : Nat) : Prop where
  limiter : q'.limiter = q.limiter
  retries : q'.metrics.retries = q.metrics.retries + retries
  drops : q'.metrics.drops = q.metrics.drops + drops

omit [DecidableEq κ] in
theorem Tallies.refl (q : Queue κ) : q.Tallies q 0 0 := ⟨rfl, rfl, rfl⟩

theorem tallies_add (q : Queue κ) (k : κ) : q.Tallies (q.add k) 0 0 := by
  simp only [add, push, measure]
  split
  · split <;> exact ⟨rfl, rfl, rfl⟩
  · exact .refl q

theorem tallies_addAfter (q : Queue κ) (now delay : Nat) (k : κ) :
    q.Tallies (q.addAfter now delay k) 0 0 := by
  rw [addAfter]
  split
  · exact .refl q
  · split
    · exact q.tallies_add k
    · exact ⟨rfl, rfl, rfl⟩

theorem tallies_retry (q : Queue κ) (now : Nat) (k : κ) : q.Tallies (q.retry now k) 1 0 := by
  obtain ⟨hlimiter, hretries, hdrops⟩ := tallies_addAfter { q with
    failures := (k, q.requeues k + 1) :: (q.forget k).failures
    metrics := { q.metrics with retries := q.metrics.retries + 1 } } now
    (q.limiter.delay (q.requeues k + 1)) k
  exact ⟨hlimiter, hretries, hdrops⟩

theorem tallies_expire (q : Queue κ) (d : Delayed κ) : q.Tallies (q.expire d) 0 0 := by
  obtain ⟨hlimiter, hretries, hdrops⟩ := tallies_add { q with delayed := q.delayed.erase d } d.key
  exact ⟨hlimiter, hretries, hdrops⟩

theorem tallies_release (q : Queue κ) (k : κ) : q.Tallies (q.release k) 0 0 := by
  simp only [release, push, measure]
  split <;> exact ⟨rfl, rfl, rfl⟩

theorem tallies_take? (h : q.take? = some (k, q')) : q.Tallies q' 0 0 := by
  obtain ⟨rest, -, rfl⟩ := exists_of_take? h
  exact ⟨rfl, rfl, rfl⟩

end Queue

theorem Getter.step_queue {κ : Type} [DecidableEq κ] (g : Getter κ) (ticket : Nat) (q : Queue κ) :
    (∃ wake, (g.step ticket q).1 = { q with wake }) ∨ ∃ k, q.take? = some (k, (g.step ticket q).1) := by
  by_cases hg : ∃ k, g = .got k
  · obtain ⟨k, rfl⟩ := hg
    exact .inl ⟨q.wake, rfl⟩
  replace hg : ∀ k, g ≠ .got k := fun k hk => hg ⟨k, hk⟩
  by_cases hgot : ∃ k, (g.step ticket q).2 = .got k
  · obtain ⟨k, hk⟩ := hgot
    exact .inr ⟨k, (Getter.step_eq_got hg hk).2⟩
  · exact .inl (Getter.step_waits fun k hk => hgot ⟨k, hk⟩).1

namespace Traffic.Event

variable {κ : Type}

/-- The key that an event tries again. -/
def retried? : Event κ → Option κ
  | .retry k => some k
  | _ => none

/-- The key that an event gives up. -/
def dropped? : Event κ → Option κ
  | .drop k => some k
  | _ => none

end Traffic.Event

namespace Traffic

variable {κ : Type} [DecidableEq κ]

theorem tallies_next (t : Traffic κ) (e : Event κ) :
    t.queue.Tallies (t.next e).queue e.retried?.toList.length e.dropped?.toList.length := by
  have hsame := Queue.Tallies.refl t.queue
  cases e with
  | add k => exact t.queue.tallies_add k
  | addAfter delay k => exact t.queue.tallies_addAfter t.clock delay k
  | retry k => exact t.queue.tallies_retry t.clock k
  | expire d =>
      simp only [next]
      split
      · exact t.queue.tallies_expire d
      · exact hsame
  | get i =>
      simp only [next]
      cases hi : t.getters[i]? with
      | none => exact hsame
      | some g =>
          show t.queue.Tallies (g.again.step i t.queue).1 0 0
          rcases g.again.step_queue i t.queue with ⟨wake, hwake⟩ | ⟨k, htake⟩
          · rw [hwake]
            exact ⟨rfl, rfl, rfl⟩
          · exact Queue.tallies_take? htake
  | done i =>
      simp only [next]
      cases t.key? i with
      | none => exact hsame
      | some k => exact t.queue.tallies_release k
  | forget k => exact ⟨rfl, rfl, rfl⟩
  | drop k => exact ⟨rfl, rfl, rfl⟩
  | shutDown => exact ⟨rfl, rfl, rfl⟩
  | elapse time => exact hsame

/-- The counters tell how many keys were tried again and given up. -/
theorem tallies_run (t : Traffic κ) (events : List (Event κ)) :
    t.queue.Tallies (t.run events).queue (events.filterMap Event.retried?).length
      (events.filterMap Event.dropped?).length := by
  induction events using List.reverseRecOn with
  | nil => exact .refl t.queue
  | append_singleton events e ih =>
      obtain ⟨hlimiter, hretries, hdrops⟩ := (t.run events).tallies_next e
      rw [run, List.foldl_concat]
      refine ⟨hlimiter.trans ih.limiter, hretries.trans ?_, hdrops.trans ?_⟩
      · rw [ih.retries, List.filterMap_append, List.length_append, Nat.add_assoc]
        cases e <;> rfl
      · rw [ih.drops, List.filterMap_append, List.length_append, Nat.add_assoc]
        cases e <;> rfl

end Traffic

end Visibility
