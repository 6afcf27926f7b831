import Visibility.Proofs.Queue.Coherence

namespace Visibility

/-- What a queue did with a key. -/
inductive Entry (κ : Type) where
  /-- An add of the key was accepted. -/
  | accepted (key : κ)
  | handed (key : κ)
deriving DecidableEq, Repr

namespace Entry

variable {κ : Type}

def key : Entry κ → κ
  | accepted k | handed k => k

def isAccepted : Entry κ → Bool
  | accepted _ => true
  | handed _ => false

variable [DecidableEq κ]

/-- The last entry about a key. -/
def latest? (log : List (Entry κ)) (k : κ) : Option (Entry κ) :=
  log.reverse.find? fun e => e.key = k

theorem latest?_concat (log : List (Entry κ)) (e : Entry κ) (k : κ) :
    latest? (log ++ [e]) k = if e.key = k then some e else latest? log k := by
  rw [latest?, List.reverse_concat, List.find?_cons, latest?]
  by_cases hk : e.key = k
  · simp [hk]
  · simp [hk]

theorem latest?_eq_handed {log : List (Entry κ)} {k : κ} (hmem : accepted k ∈ log)
    (hlatest : latest? log k ≠ some (accepted k)) : latest? log k = some (handed k) := by
  cases he : latest? log k with
  | none =>
      rw [latest?, List.find?_eq_none] at he
      have hne := he _ (List.mem_reverse.2 hmem)
      simp [key] at hne
  | some e =>
      have hkey : e.key = k := by
        simpa using List.find?_some he
      cases e with
      | accepted j =>
          obtain rfl : j = k := hkey
          exact absurd he hlatest
      | handed j =>
          obtain rfl : j = k := hkey
          rfl

end Entry

namespace Queue

variable {κ : Type} {q q' : Queue κ}

/-- Two queues with the same keys in the same places, and with the same counts of them. -/
structure Still (q q' : Queue κ) : Prop where
  waiting : q'.waiting = q.waiting
  dirty : q'.dirty = q.dirty
  processing : q'.processing = q.processing
  shuttingDown : q'.shuttingDown = q.shuttingDown
  adds : q'.metrics.adds = q.metrics.adds
  depth : q'.metrics.depth = q.metrics.depth

theorem Still.refl (q : Queue κ) : q.Still q := ⟨rfl, rfl, rfl, rfl, rfl, rfl⟩

theorem Still.grows (h : q.Still q') : q.Grows q' :=
  grows_of_eq h.waiting h.dirty h.processing h.shuttingDown

variable [DecidableEq κ] {k : κ}

theorem still_forget (q : Queue κ) (k : κ) : q.Still (q.forget k) := ⟨rfl, rfl, rfl, rfl, rfl, rfl⟩

theorem still_drop (q : Queue κ) (k : κ) : q.Still (q.drop k) := ⟨rfl, rfl, rfl, rfl, rfl, rfl⟩

theorem accepts_eq_true_iff : q.accepts k = true ↔ q.shuttingDown = false ∧ k ∉ q.dirty := by
  simp [accepts]

theorem adds_add (h : q.accepts k = true) : (q.add k).metrics.adds = q.metrics.adds + 1 := by
  simp only [add, h, if_true]
  split
  · rfl
  · rfl

theorem depth_add (h : q.metrics.depth = q.waiting.length) :
    (q.add k).metrics.depth = (q.add k).waiting.length := by
  simp only [add]
  split
  · split
    · exact h
    · rfl
  · exact h

theorem depth_release (h : q.metrics.depth = q.waiting.length) :
    (q.release k).metrics.depth = (q.release k).waiting.length := by
  simp only [release]
  split
  · rfl
  · exact h

theorem adds_release (q : Queue κ) (k : κ) : (q.release k).metrics.adds = q.metrics.adds := by
  simp only [release]
  split
  · rfl
  · rfl

theorem metrics_take? (h : q.take? = some (k, q')) :
    q'.metrics = { q.metrics with depth := q'.waiting.length } := by
  obtain ⟨rest, -, rfl⟩ := exists_of_take? h
  rfl

/-- What a queue did so far, as far as it can be told from the queue: a key is dirty just when it was
accepted after it was last handed out. -/
structure Account (q : Queue κ) (log : List (Entry κ)) : Prop where
  distinct : q.dirty.Nodup
  dirty : ∀ k, k ∈ q.dirty ↔ Entry.latest? log k = some (.accepted k)
  count : ∀ k, log.count (.accepted k) = log.count (.handed k) + if k ∈ q.dirty then 1 else 0
  adds : q.metrics.adds = log.countP Entry.isAccepted
  depth : q.metrics.depth = q.waiting.length

variable {log : List (Entry κ)}

theorem account_new (l : Limiter) : ({ limiter := l } : Queue κ).Account [] := by
  constructor
  · exact List.nodup_nil
  · intro k
    constructor
    · intro hk
      cases hk
    · intro hk
      cases hk
  · intro k
    rfl
  · rfl
  · rfl

theorem Account.still (h : q.Account log) (hstill : q.Still q') : q'.Account log := by
  constructor
  · rw [hstill.dirty]
    exact h.distinct
  · rw [hstill.dirty]
    exact h.dirty
  · rw [hstill.dirty]
    exact h.count
  · rw [hstill.adds]
    exact h.adds
  · rw [hstill.depth, hstill.waiting]
    exact h.depth

theorem Account.accept (h : q.Account log) (haccepts : q.accepts k = true) :
    (q.add k).Account (log ++ [.accepted k]) := by
  have hdirty : (q.add k).dirty = k :: q.dirty := by rw [dirty_add, if_pos haccepts]
  obtain ⟨-, hnew⟩ := accepts_eq_true_iff.1 haccepts
  constructor
  · rw [hdirty]
    exact List.nodup_cons.2 ⟨hnew, h.distinct⟩
  · intro j
    rw [hdirty, Entry.latest?_concat, List.mem_cons, h.dirty j]
    by_cases hj : k = j
    · subst hj
      simp [Entry.key]
    · simp [Entry.key, hj, Ne.symm hj]
  · intro j
    have hcount := h.count j
    rw [hdirty, List.count_append, List.count_append]
    by_cases hj : j = k
    · subst hj
      simp [hnew] at hcount ⊢
      exact hcount
    · simp [hj, Ne.symm hj] at hcount ⊢
      exact hcount
  · rw [adds_add haccepts, List.countP_append, h.adds]
    rfl
  · exact depth_add h.depth

theorem Account.hand (h : q.Account log) (hcoherent : q.Coherent) (ht : q.take? = some (k, q')) :
    q'.Account (log ++ [.handed k]) := by
  obtain ⟨hwaiting, hdirty, -, -⟩ := take?_eq_some ht
  have hk : k ∈ q.dirty := hcoherent.dirty k (hwaiting ▸ List.mem_cons_self)
  have hmetrics := metrics_take? ht
  constructor
  · rw [hdirty]
    exact h.distinct.filter _
  · intro j
    rw [hdirty, Entry.latest?_concat, List.mem_filter, h.dirty j]
    by_cases hj : k = j
    · subst hj
      simp [Entry.key]
    · simp [Entry.key, hj, Ne.symm hj]
  · intro j
    have hcount := h.count j
    rw [hdirty, List.count_append, List.count_append]
    by_cases hj : j = k
    · subst hj
      simp [hk] at hcount ⊢
      exact hcount
    · simp [hj, Ne.symm hj] at hcount ⊢
      exact hcount
  · rw [hmetrics, List.countP_append]
    exact h.adds
  · rw [hmetrics]

theorem Account.release (h : q.Account log) (k : κ) : (q.release k).Account log := by
  constructor
  · rw [dirty_release]
    exact h.distinct
  · rw [dirty_release]
    exact h.dirty
  · rw [dirty_release]
    exact h.count
  · rw [adds_release]
    exact h.adds
  · exact depth_release h.depth

end Queue

end Visibility
