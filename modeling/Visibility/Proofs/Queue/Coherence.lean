import Mathlib.Data.List.Basic
import Mathlib.Logic.Function.Basic
import Visibility.Queue.Getter

namespace Visibility

namespace Queue

variable {κ : Type} {q q' : Queue κ}

/-- The lists of a queue fit together: a waiting key waits once, is dirty, and no worker has it; a
dirty key waits unless a worker has it. -/
structure Coherent (q : Queue κ) : Prop where
  nodup : q.waiting.Nodup
  dirty : ∀ k ∈ q.waiting, k ∈ q.dirty
  apart : ∀ k ∈ q.waiting, k ∉ q.processing
  placed : ∀ k ∈ q.dirty, k ∈ q.waiting ∨ k ∈ q.processing

theorem coherent_new (l : Limiter) : ({ limiter := l } : Queue κ).Coherent := by
  constructor
  · exact List.nodup_nil
  · intro k hk
    cases hk
  · intro k hk
    cases hk
  · intro k hk
    cases hk

/-- A queue to which keys may have been added since, and no worker took or released one. -/
structure Grows (q q' : Queue κ) : Prop where
  coherent : q.Coherent → q'.Coherent
  processing : q'.processing = q.processing
  dirty : ∀ k ∈ q.dirty, k ∈ q'.dirty
  shuttingDown : q'.shuttingDown = q.shuttingDown

theorem Grows.refl (q : Queue κ) : q.Grows q := ⟨id, rfl, fun _ => id, rfl⟩

theorem Grows.trans {a b c : Queue κ} (hab : a.Grows b) (hbc : b.Grows c) : a.Grows c where
  coherent h := hbc.coherent (hab.coherent h)
  processing := hbc.processing.trans hab.processing
  dirty k hk := hbc.dirty k (hab.dirty k hk)
  shuttingDown := hbc.shuttingDown.trans hab.shuttingDown

theorem grows_of_eq (hwaiting : q'.waiting = q.waiting) (hdirty : q'.dirty = q.dirty)
    (hprocessing : q'.processing = q.processing) (hshut : q'.shuttingDown = q.shuttingDown) :
    q.Grows q' := by
  refine ⟨fun h => ?_, hprocessing, fun k hk => hdirty ▸ hk, hshut⟩
  constructor
  · rw [hwaiting]
    exact h.nodup
  · rw [hwaiting, hdirty]
    exact h.dirty
  · rw [hwaiting, hprocessing]
    exact h.apart
  · rw [hwaiting, hdirty, hprocessing]
    exact h.placed

/-- A coherent queue whose keys are with some holders, each with those it took and did not release. -/
structure Lent (q : Queue κ) (keys : Nat → Option κ) : Prop where
  coherent : q.Coherent
  held : ∀ i k, keys i = some k → k ∈ q.processing
  apart : ∀ i j k, keys i = some k → keys j = some k → i = j

variable {keys : Nat → Option κ}

theorem Lent.grows (h : q.Lent keys) (hgrows : q.Grows q') : q'.Lent keys :=
  ⟨hgrows.coherent h.coherent, fun i k hk => hgrows.processing ▸ h.held i k hk, h.apart⟩

theorem Lent.shutDown (h : q.Lent keys) : q.shutDown.Lent keys :=
  ⟨⟨h.coherent.nodup, h.coherent.dirty, h.coherent.apart, h.coherent.placed⟩, h.held, h.apart⟩

variable [DecidableEq κ] {k k' : κ}

@[simp] theorem processing_add (q : Queue κ) (k : κ) : (q.add k).processing = q.processing := by
  simp only [add, push, measure]
  split
  · split <;> rfl
  · rfl

@[simp] theorem shuttingDown_add (q : Queue κ) (k : κ) :
    (q.add k).shuttingDown = q.shuttingDown := by
  simp only [add, push, measure]
  split
  · split <;> rfl
  · rfl

theorem dirty_add (q : Queue κ) (k : κ) :
    (q.add k).dirty = if q.accepts k then k :: q.dirty else q.dirty := by
  simp only [add, push, measure]
  split
  · split <;> rfl
  · rfl

theorem mem_dirty_add : k' ∈ (q.add k).dirty ↔ k' ∈ q.dirty ∨ k' = k ∧ q.shuttingDown = false := by
  rw [dirty_add]
  split
  · rename_i haccepts
    have hopen : q.shuttingDown = false := by
      simp only [accepts, Bool.and_eq_true, Bool.not_eq_true'] at haccepts
      exact haccepts.1
    simp [hopen, or_comm]
  · rename_i haccepts
    constructor
    · exact .inl
    · rintro (h | ⟨rfl, hopen⟩)
      · exact h
      · simpa [accepts, hopen] using haccepts

/-- Coherent but for one key, which does not wait but may have to. -/
structure Due (q : Queue κ) (k : κ) : Prop where
  nodup : q.waiting.Nodup
  dirty : ∀ a ∈ q.waiting, a ∈ q.dirty
  apart : ∀ a ∈ q.waiting, a ∉ q.processing
  placed : ∀ a ∈ q.dirty, a ≠ k → a ∈ q.waiting ∨ a ∈ q.processing
  missing : k ∉ q.waiting

theorem Due.coherent (h : q.Due k) (hk : k ∈ q.dirty → k ∈ q.processing) : q.Coherent := by
  refine ⟨h.nodup, h.dirty, h.apart, ?_⟩
  intro a ha
  by_cases hak : a = k
  · subst hak
    exact .inr (hk ha)
  · exact h.placed a ha hak

theorem Due.push (h : q.Due k) (hdirty : k ∈ q.dirty) (hprocessing : k ∉ q.processing) :
    (q.push k).Coherent := by
  constructor
  · show (q.waiting ++ [k]).Nodup
    rw [List.nodup_append]
    refine ⟨h.nodup, List.pairwise_singleton _ k, ?_⟩
    intro a ha b hb hab
    rw [List.mem_singleton] at hb
    exact h.missing (hb ▸ hab ▸ ha)
  · intro a ha
    rcases List.mem_append.1 ha with ha | ha
    · exact h.dirty a ha
    · rw [List.mem_singleton.1 ha]
      exact hdirty
  · intro a ha
    rcases List.mem_append.1 ha with ha | ha
    · exact h.apart a ha
    · rw [List.mem_singleton.1 ha]
      exact hprocessing
  · intro a ha
    show a ∈ q.waiting ++ [k] ∨ a ∈ q.processing
    rw [List.mem_append, List.mem_singleton]
    by_cases hak : a = k
    · exact .inl (.inr hak)
    · exact (h.placed a ha hak).imp_left .inl

theorem Coherent.add (h : q.Coherent) (k : κ) : (q.add k).Coherent := by
  rw [Queue.add]
  split
  · rename_i haccepts
    have hnew : k ∉ q.dirty := by
      simp only [accepts, Bool.and_eq_true, decide_eq_true_eq] at haccepts
      exact haccepts.2
    have hdue (m : QueueMetrics) : { q with dirty := k :: q.dirty, metrics := m }.Due k := by
      refine ⟨h.nodup, ?_, h.apart, ?_, fun hk => hnew (h.dirty k hk)⟩
      · intro a ha
        exact List.mem_cons_of_mem k (h.dirty a ha)
      · intro a ha hak
        exact h.placed a ((List.mem_cons.1 ha).resolve_left hak)
    -- a key that a worker has is not put behind the others before the worker releases it
    dsimp only
    split
    · rename_i hk
      exact (hdue _).coherent fun _ => hk
    · rename_i hk
      exact (hdue _).push List.mem_cons_self hk
  · exact h

theorem grows_add (q : Queue κ) (k : κ) : q.Grows (q.add k) :=
  ⟨fun h => h.add k, processing_add q k, fun _ ha => mem_dirty_add.2 (.inl ha), shuttingDown_add q k⟩

theorem grows_addAfter (q : Queue κ) (now delay : Nat) (k : κ) :
    q.Grows (q.addAfter now delay k) := by
  rw [addAfter]
  split
  · exact .refl q
  · split
    · exact q.grows_add k
    · exact grows_of_eq rfl rfl rfl rfl

theorem grows_expire (q : Queue κ) (d : Delayed κ) : q.Grows (q.expire d) := by
  rw [expire]
  refine Grows.trans ?_ (grows_add _ d.key)
  exact grows_of_eq rfl rfl rfl rfl

theorem grows_forget (q : Queue κ) (k : κ) : q.Grows (q.forget k) := grows_of_eq rfl rfl rfl rfl

theorem grows_retry (q : Queue κ) (now : Nat) (k : κ) : q.Grows (q.retry now k) := by
  rw [retry]
  refine Grows.trans ?_ (grows_addAfter _ now _ k)
  exact grows_of_eq rfl rfl rfl rfl

theorem grows_drop (q : Queue κ) (k : κ) : q.Grows (q.drop k) := grows_of_eq rfl rfl rfl rfl

@[simp] theorem processing_release (q : Queue κ) (k : κ) :
    (q.release k).processing = q.processing.filter (· ≠ k) := by
  simp only [release, push, measure]
  split <;> rfl

@[simp] theorem dirty_release (q : Queue κ) (k : κ) : (q.release k).dirty = q.dirty := by
  simp only [release, push, measure]
  split <;> rfl

@[simp] theorem shuttingDown_release (q : Queue κ) (k : κ) :
    (q.release k).shuttingDown = q.shuttingDown := by
  simp only [release, push, measure]
  split <;> rfl

theorem Coherent.release (h : q.Coherent) (hk : k ∈ q.processing) : (q.release k).Coherent := by
  have hwaiting : k ∉ q.waiting := fun hw => h.apart k hw hk
  have hdue : { q with processing := q.processing.filter (· ≠ k) }.Due k := by
    refine ⟨h.nodup, h.dirty, ?_, ?_, hwaiting⟩
    · intro a ha hp
      exact h.apart a ha (List.mem_filter.1 hp).1
    · intro a ha hak
      refine (h.placed a ha).imp_right fun hp => List.mem_filter.2 ⟨hp, ?_⟩
      exact decide_eq_true hak
  have hfree : k ∉ q.processing.filter (· ≠ k) := by simp
  rw [Queue.release]
  dsimp only
  split
  · rename_i hdirty
    exact hdue.push hdirty hfree
  · rename_i hdirty
    exact hdue.coherent fun hd => absurd hd hdirty

theorem exists_of_take? (h : q.take? = some (k, q')) :
    ∃ rest, q.waiting = k :: rest ∧
      q' = { q with
        waiting := rest
        dirty := q.dirty.filter (· ≠ k)
        processing := k :: q.processing.filter (· ≠ k)
        wake := if rest.isEmpty then q.wake else q.wake.one
        metrics := { q.metrics with depth := rest.length } } := by
  rw [take?] at h
  split at h
  · cases h
  · rename_i k' rest hw
    simp only [Option.some.injEq, Prod.mk.injEq] at h
    obtain ⟨rfl, rfl⟩ := h
    exact ⟨rest, hw, rfl⟩

theorem take?_eq_some (h : q.take? = some (k, q')) :
    q.waiting = k :: q'.waiting ∧ q'.dirty = q.dirty.filter (· ≠ k) ∧
      q'.processing = k :: q.processing.filter (· ≠ k) ∧ q'.shuttingDown = q.shuttingDown := by
  obtain ⟨rest, hw, rfl⟩ := exists_of_take? h
  exact ⟨hw, rfl, rfl, rfl⟩

theorem Coherent.take (h : q.Coherent) (ht : q.take? = some (k, q')) :
    q'.Coherent ∧ k ∉ q.processing := by
  obtain ⟨hwaiting, hdirty, hprocessing, -⟩ := take?_eq_some ht
  have hnodup := h.nodup
  rw [hwaiting, List.nodup_cons] at hnodup
  have hmem : ∀ a ∈ q'.waiting, a ∈ q.waiting ∧ a ≠ k := by
    intro a ha
    refine ⟨hwaiting ▸ List.mem_cons_of_mem k ha, ?_⟩
    rintro rfl
    exact hnodup.1 ha
  refine ⟨⟨hnodup.2, ?_, ?_, ?_⟩, h.apart k (hwaiting ▸ List.mem_cons_self)⟩
  · intro a ha
    rw [hdirty, List.mem_filter]
    exact ⟨h.dirty a (hmem a ha).1, decide_eq_true (hmem a ha).2⟩
  · intro a ha
    rw [hprocessing, List.mem_cons, List.mem_filter, not_or, not_and]
    exact ⟨(hmem a ha).2, fun hp => absurd hp (h.apart a (hmem a ha).1)⟩
  · intro a ha
    rw [hdirty, List.mem_filter, decide_eq_true_eq] at ha
    rw [hprocessing, List.mem_cons, List.mem_filter, decide_eq_true_eq]
    rcases h.placed a ha.1 with hw | hp
    · rw [hwaiting, List.mem_cons] at hw
      exact .inl (hw.resolve_left ha.2)
    · exact .inr (.inr ⟨hp, ha.2⟩)

theorem Lent.take (h : q.Lent keys) (i : Nat) (ht : q.take? = some (k, q')) :
    q'.Lent (Function.update keys i (some k)) := by
  obtain ⟨hcoherent, hfree⟩ := h.coherent.take ht
  obtain ⟨-, -, hprocessing, -⟩ := take?_eq_some ht
  have hne : ∀ j a, keys j = some a → a ≠ k := by
    rintro j a hj rfl
    exact hfree (h.held j a hj)
  refine ⟨hcoherent, ?_, ?_⟩
  · intro j a hj
    rw [hprocessing]
    by_cases hji : j = i
    · rw [hji, Function.update_self, Option.some.injEq] at hj
      rw [hj]
      exact List.mem_cons_self
    · rw [Function.update_of_ne hji] at hj
      exact List.mem_cons_of_mem k
        (List.mem_filter.2 ⟨h.held j a hj, decide_eq_true (hne j a hj)⟩)
  · intro j l a hj hl
    by_cases hji : j = i
    · by_cases hli : l = i
      · rw [hji, hli]
      · rw [hji, Function.update_self, Option.some.injEq] at hj
        rw [Function.update_of_ne hli] at hl
        exact absurd hj.symm (hne l a hl)
    · rw [Function.update_of_ne hji] at hj
      by_cases hli : l = i
      · rw [hli, Function.update_self, Option.some.injEq] at hl
        exact absurd hl.symm (hne j a hj)
      · rw [Function.update_of_ne hli] at hl
        exact h.apart j l a hj hl

theorem Lent.release (h : q.Lent keys) {i : Nat} (hi : keys i = some k) :
    (q.release k).Lent (Function.update keys i none) := by
  have hold : ∀ j a, Function.update keys i none j = some a → keys j = some a ∧ j ≠ i := by
    intro j a hj
    by_cases hji : j = i
    · rw [hji, Function.update_self] at hj
      cases hj
    · rw [Function.update_of_ne hji] at hj
      exact ⟨hj, hji⟩
  refine ⟨h.coherent.release (h.held i k hi), ?_, ?_⟩
  · intro j a hj
    obtain ⟨hj, hji⟩ := hold j a hj
    rw [processing_release]
    refine List.mem_filter.2 ⟨h.held j a hj, decide_eq_true ?_⟩
    rintro rfl
    exact hji (h.apart j i a hj hi)
  · intro j l a hj hl
    exact h.apart j l a (hold j a hj).1 (hold l a hl).1

end Queue

theorem Getter.step_cases {κ : Type} [DecidableEq κ] (ticket : Nat) (q : Queue κ) {g : Getter κ}
    (hg : ∀ k, g ≠ .got k) :
    (∃ k, (g.step ticket q).2 = .got k ∧ q.take? = some (k, (g.step ticket q).1)) ∨
      (∀ k, (g.step ticket q).2 ≠ .got k) ∧ q.Grows (g.step ticket q).1 := by
  have hsame := Queue.Grows.refl q
  cases g with
  | enter => exact .inr ⟨nofun, hsame⟩
  | look round =>
      simp only [step]
      split
      · rename_i k q' ht
        exact .inl ⟨k, rfl, ht⟩
      · split
        · exact .inr ⟨nofun, hsame⟩
        · exact .inr ⟨nofun, hsame⟩
  | park round =>
      simp only [step]
      split
      · exact .inr ⟨nofun, Queue.grows_of_eq rfl rfl rfl rfl⟩
      · exact .inr ⟨nofun, Queue.grows_of_eq rfl rfl rfl rfl⟩
  | parked =>
      simp only [step]
      split
      · exact .inr ⟨nofun, Queue.grows_of_eq rfl rfl rfl rfl⟩
      · exact .inr ⟨nofun, hsame⟩
  | got k => exact absurd rfl (hg k)
  | closed => exact .inr ⟨nofun, hsame⟩

end Visibility
