import Mathlib.Data.List.Induction
import Visibility.Proofs.Queue.Account

namespace Visibility

/-- What a run shows, given what each event shows. -/
def shown {σ ε α : Type} (next : σ → ε → σ) (see : σ → ε → Option α) : σ → List ε → List α
  | _, [] => []
  | s, e :: events => (see s e).toList ++ shown next see (next s e) events

theorem shown_append {σ ε α : Type} (next : σ → ε → σ) (see : σ → ε → Option α) (s : σ)
    (events events' : List ε) :
    shown next see s (events ++ events') =
      shown next see s events ++ shown next see (events.foldl next s) events' := by
  induction events generalizing s with
  | nil => rfl
  | cons e events ih => rw [List.cons_append, shown, shown, ih, List.foldl_cons, List.append_assoc]

theorem shown_concat {σ ε α : Type} (next : σ → ε → σ) (see : σ → ε → Option α) (s : σ)
    (events : List ε) (e : ε) :
    shown next see s (events ++ [e]) =
      shown next see s events ++ (see (events.foldl next s) e).toList := by
  rw [shown_append, shown, shown, List.append_nil]

namespace Getter

variable {κ : Type}

/-- One who was told that the queue is closed may ask again. -/
def again : Getter κ → Getter κ
  | closed => enter
  | g => g

/-- The key that a getter has. -/
def key? : Getter κ → Option κ
  | got k => some k
  | _ => none

theorem again_ne_closed (g : Getter κ) : g.again ≠ closed := by
  cases g <;> exact nofun

variable [DecidableEq κ]

theorem step_eq_closed {ticket : Nat} {q : Queue κ} {g : Getter κ} (hg : g ≠ closed)
    (h : (g.step ticket q).2 = closed) :
    q.waiting = [] ∧ q.shuttingDown = true ∧ (g.step ticket q).1 = q := by
  cases g with
  | enter => cases h
  | look round =>
      simp only [step] at h ⊢
      cases ht : q.take? with
      | some r =>
          rw [ht] at h
          cases h
      | none =>
          rw [ht] at h
          have hwaiting : q.waiting = [] := by
            rw [Queue.take?] at ht
            split at ht
            · assumption
            · cases ht
          by_cases hshut : q.shuttingDown = true
          · exact ⟨hwaiting, hshut, by rw [if_pos hshut]⟩
          · rw [if_neg hshut] at h
            cases h
  | park round =>
      simp only [step] at h
      split at h <;> cases h
  | parked =>
      simp only [step] at h
      split at h <;> cases h
  | got k => cases h
  | closed => exact absurd rfl hg

theorem step_eq_got {ticket : Nat} {q : Queue κ} {g : Getter κ}
    {k : κ} (hg : ∀ k, g ≠ .got k) (h : (g.step ticket q).2 = .got k) :
    (∃ round, g = .look round) ∧ q.take? = some (k, (g.step ticket q).1) := by
  rcases g.step_cases ticket q hg with ⟨j, hj, htake⟩ | ⟨hnone, -⟩
  · obtain rfl : j = k := Getter.got.inj (hj.symm.trans h)
    refine ⟨?_, htake⟩
    cases g with
    | look round => exact ⟨round, rfl⟩
    | park round =>
        simp only [step] at h
        split at h <;> cases h
    | parked =>
        simp only [step] at h
        split at h <;> cases h
    | got k => exact absurd rfl (hg k)
    | _ => cases h
  · exact absurd h (hnone k)

theorem step_waits {ticket : Nat} {q : Queue κ} {g : Getter κ}
    (h : ∀ k, (g.step ticket q).2 ≠ .got k) :
    (∃ wake, (g.step ticket q).1 = { q with wake }) ∧ ∀ round, g = .look round → q.take? = none := by
  cases g with
  | look round =>
      simp only [step] at h ⊢
      cases ht : q.take? with
      | some r =>
          rw [ht] at h
          exact absurd rfl (h r.1)
      | none =>
          refine ⟨⟨q.wake, ?_⟩, fun _ _ => rfl⟩
          dsimp only
          split <;> rfl
  | park round =>
      simp only [step]
      refine ⟨?_, fun _ hlook => by cases hlook⟩
      split <;> exact ⟨_, rfl⟩
  | parked =>
      simp only [step]
      refine ⟨?_, fun _ hlook => by cases hlook⟩
      split <;> exact ⟨_, rfl⟩
  | _ => exact ⟨⟨q.wake, rfl⟩, fun _ hlook => by cases hlook⟩

end Getter

/-- A queue and those who get keys from it, each with at most one key at a time. -/
structure Traffic (κ : Type) where
  queue : Queue κ
  getters : List (Getter κ)
  /-- The time, in milliseconds. -/
  clock : Nat := 0

namespace Traffic

/-- One operation on the queue, or one step of a getter. -/
inductive Event (κ : Type) where
  | add (key : κ)
  | addAfter (delay : Nat) (key : κ)
  | retry (key : κ)
  /-- The end of the delay of a key. -/
  | expire (d : Delayed κ)
  /-- A step of a getter. -/
  | get (index : Nat)
  /-- A getter is done with its key. -/
  | done (index : Nat)
  | forget (key : κ)
  | drop (key : κ)
  | shutDown
  | elapse (time : Nat)

variable {κ : Type} {t t' : Traffic κ} {i : Nat} {k : κ}

/-- The key that a getter has got and not released. -/
def key? (t : Traffic κ) (i : Nat) : Option κ := t.getters[i]?.bind Getter.key?

theorem lt_of_key? (h : t.key? i = some k) : i < t.getters.length := by
  obtain ⟨g, hg, -⟩ := Option.bind_eq_some_iff.1 h
  exact (List.getElem?_eq_some_iff.1 hg).1

theorem key?_set {queue : Queue κ} {g : Getter κ} (hi : i < t.getters.length) :
    key? { t with queue := queue, getters := t.getters.set i g } =
      Function.update t.key? i g.key? := by
  funext j
  by_cases hj : j = i
  · subst hj
    rw [Function.update_self, key?, List.getElem?_set_self hi, Option.bind_some]
  · rw [Function.update_of_ne hj, key?, key?, List.getElem?_set_ne (Ne.symm hj)]

theorem key?_set_of_eq {queue : Queue κ} {g g' : Getter κ} (hi : t.getters[i]? = some g)
    (hkey : g'.key? = g.key?) :
    key? { t with queue := queue, getters := t.getters.set i g' } = t.key? := by
  obtain ⟨hlt, -⟩ := List.getElem?_eq_some_iff.1 hi
  have hold : t.key? i = g.key? := by rw [key?, hi, Option.bind_some]
  rw [key?_set hlt, hkey, ← hold, Function.update_eq_self]

variable [DecidableEq κ]

def onQueue (t : Traffic κ) (f : Queue κ → Queue κ) : Traffic κ := { t with queue := f t.queue }

def get (t : Traffic κ) (i : Nat) (g : Getter κ) : Traffic κ :=
  let r := g.again.step i t.queue
  { t with queue := r.1, getters := t.getters.set i r.2 }

/-- A getter is done with the key that it has. -/
def release (t : Traffic κ) (i : Nat) (k : κ) : Traffic κ :=
  { t with queue := t.queue.release k, getters := t.getters.set i .enter }

def next (t : Traffic κ) : Event κ → Traffic κ
  | .add k => t.onQueue (·.add k)
  | .addAfter delay k => t.onQueue (·.addAfter t.clock delay k)
  | .retry k => t.onQueue (·.retry t.clock k)
  | .expire d => if d ∈ t.queue.delayed ∧ d.due ≤ t.clock then t.onQueue (·.expire d) else t
  | .get i => t.getters[i]?.elim t (t.get i)
  | .done i => (t.key? i).elim t (t.release i)
  | .forget k => t.onQueue (·.forget k)
  | .drop k => t.onQueue (·.drop k)
  | .shutDown => t.onQueue (·.shutDown)
  | .elapse time => { t with clock := t.clock + time }

/-- A queue with nothing in it and getters that have not begun. -/
def boot (limiter : Limiter) (getters : Nat) : Traffic κ where
  queue := { limiter }
  getters := List.replicate getters .enter

def run (t : Traffic κ) (events : List (Event κ)) : Traffic κ := events.foldl next t

/-- The key that an event adds at once. -/
def added? (t : Traffic κ) : Event κ → Option κ
  | .add k => some k
  | .addAfter delay k => if delay = 0 then some k else none
  | .retry k => if t.queue.limiter.delay (t.queue.requeues k + 1) = 0 then some k else none
  | .expire d => if d ∈ t.queue.delayed ∧ d.due ≤ t.clock then some d.key else none
  | _ => none

/-- The key that an event hands out. -/
def handed? (t : Traffic κ) : Event κ → Option κ
  | .get i =>
      match t.getters[i]? with
      | some (.look _) => t.queue.take?.map (·.1)
      | _ => none
  | _ => none

/-- The entry that an event makes. -/
def logs? (t : Traffic κ) (e : Event κ) : Option (Entry κ) :=
  match t.handed? e with
  | some k => some (.handed k)
  | none => ((t.added? e).filter t.queue.accepts).map .accepted

/-- The accepted adds and the hand-outs of a run, in order. -/
def log (t : Traffic κ) (events : List (Event κ)) : List (Entry κ) := shown next logs? t events

/-- What an event does to the keys of a queue and to those that getters have, by the entry that it
makes. -/
inductive Move (t t' : Traffic κ) : Option (Entry κ) → Prop where
  | still (hqueue : t.queue.Still t'.queue) (hkeys : t'.key? = t.key?) : Move t t' none
  | accept (q : Queue κ) (k : κ) (hstill : t.queue.Still q) (haccepts : q.accepts k = true)
      (hqueue : t'.queue = q.add k) (hkeys : t'.key? = t.key?) : Move t t' (some (.accepted k))
  | hand (i : Nat) (k : κ) (htake : t.queue.take? = some (k, t'.queue)) (hfree : t.key? i = none)
      (hkeys : t'.key? = Function.update t.key? i (some k)) : Move t t' (some (.handed k))
  | release (i : Nat) (k : κ) (hi : t.key? i = some k) (hqueue : t'.queue = t.queue.release k)
      (hkeys : t'.key? = Function.update t.key? i none) : Move t t' none
  | shutDown (hqueue : t'.queue = t.queue.shutDown) (hkeys : t'.key? = t.key?) : Move t t' none

theorem move_add {q : Queue κ} (hstill : t.queue.Still q) (k : κ) :
    t.Move (t.onQueue fun _ => q.add k) (((some k).filter t.queue.accepts).map .accepted) := by
  have hsame : q.accepts k = t.queue.accepts k := by
    rw [Queue.accepts, Queue.accepts, hstill.shuttingDown, hstill.dirty]
  cases haccepts : t.queue.accepts k with
  | true =>
      rw [Option.filter_some_pos haccepts]
      exact .accept q k hstill (hsame.trans haccepts) rfl rfl
  | false =>
      rw [Option.filter_some_neg (by simp [haccepts])]
      have hadd : q.add k = q := by
        rw [Queue.add, hsame, haccepts]
        rfl
      refine .still ?_ rfl
      show t.queue.Still (q.add k)
      rw [hadd]
      exact hstill

theorem move_addAfter {q : Queue κ} (hstill : t.queue.Still q) (now delay : Nat) (k : κ) :
    t.Move (t.onQueue fun _ => q.addAfter now delay k)
      (((if delay = 0 then some k else none).filter t.queue.accepts).map .accepted) := by
  by_cases hdelay : delay = 0
  · have hadd : q.addAfter now delay k = q.add k := by
      rw [Queue.addAfter, if_pos hdelay]
      split
      · rename_i hshut
        have hrefused : q.accepts k = false := by simp [Queue.accepts, hshut]
        rw [Queue.add, hrefused]
        rfl
      · rfl
    rw [if_pos hdelay, hadd]
    exact move_add hstill k
  · rw [if_neg hdelay]
    refine .still ?_ rfl
    show t.queue.Still (q.addAfter now delay k)
    rw [Queue.addAfter, if_neg hdelay]
    split
    · exact hstill
    · exact ⟨hstill.waiting, hstill.dirty, hstill.processing, hstill.shuttingDown, hstill.adds,
        hstill.depth⟩

theorem move_get {g : Getter κ} (hi : t.getters[i]? = some g) :
    t.Move (t.get i g) (t.logs? (.get i)) := by
  obtain ⟨hlt, -⟩ := List.getElem?_eq_some_iff.1 hi
  have hold : t.key? i = g.key? := by rw [key?, hi, Option.bind_some]
  have hsame : t.queue.Still t.queue := .refl _
  simp only [logs?, handed?, hi, get, added?]
  cases g with
  | enter => exact .still hsame (key?_set_of_eq hi rfl)
  | look round =>
      simp only [Getter.again, Getter.step]
      cases ht : t.queue.take? with
      | some r => exact .hand i r.1 ht hold (key?_set hlt)
      | none =>
          dsimp only
          split
          · exact .still hsame (key?_set_of_eq hi rfl)
          · exact .still hsame (key?_set_of_eq hi rfl)
  | park round =>
      simp only [Getter.again, Getter.step]
      split
      · exact .still ⟨rfl, rfl, rfl, rfl, rfl, rfl⟩ (key?_set_of_eq hi rfl)
      · exact .still ⟨rfl, rfl, rfl, rfl, rfl, rfl⟩ (key?_set_of_eq hi rfl)
  | parked =>
      simp only [Getter.again, Getter.step]
      split
      · exact .still ⟨rfl, rfl, rfl, rfl, rfl, rfl⟩ (key?_set_of_eq hi rfl)
      · exact .still hsame (key?_set_of_eq hi rfl)
  | got k => exact .still hsame (key?_set_of_eq hi rfl)
  | closed => exact .still hsame (key?_set_of_eq hi rfl)

theorem move (t : Traffic κ) (e : Event κ) : t.Move (t.next e) (t.logs? e) := by
  have hsame : t.queue.Still t.queue := .refl _
  cases e with
  | add k => exact move_add hsame k
  | addAfter delay k => exact move_addAfter hsame t.clock delay k
  | retry k =>
      have hstill : t.queue.Still { t.queue with
          failures := (k, t.queue.requeues k + 1) :: (t.queue.forget k).failures
          metrics := { t.queue.metrics with retries := t.queue.metrics.retries + 1 } } :=
        ⟨rfl, rfl, rfl, rfl, rfl, rfl⟩
      exact move_addAfter hstill t.clock _ k
  | expire d =>
      simp only [next, logs?, handed?, added?]
      split
      · exact move_add (q := { t.queue with delayed := t.queue.delayed.erase d })
          ⟨rfl, rfl, rfl, rfl, rfl, rfl⟩ d.key
      · exact .still hsame rfl
  | get i =>
      simp only [next]
      cases hi : t.getters[i]? with
      | none =>
          simp only [logs?, handed?, hi]
          exact .still hsame rfl
      | some g => exact move_get hi
  | done i =>
      simp only [next]
      cases hi : t.key? i with
      | none => exact .still hsame rfl
      | some k => exact .release i k hi rfl (key?_set (lt_of_key? hi))
  | forget k => exact .still (t.queue.still_forget k) rfl
  | drop k => exact .still (t.queue.still_drop k) rfl
  | shutDown => exact .shutDown rfl rfl
  | elapse time => exact .still hsame rfl

theorem Move.dirty {entry : Option (Entry κ)} (h : t.Move t' entry) (hk : k ∈ t.queue.dirty) :
    k ∈ t'.queue.dirty ∨ entry = some (.handed k) := by
  cases h with
  | still hqueue hkeys => exact .inl (hqueue.dirty ▸ hk)
  | accept q j hstill haccepts hqueue hkeys =>
      refine .inl ?_
      rw [hqueue, Queue.mem_dirty_add, hstill.dirty]
      exact .inl hk
  | hand i j htake hfree hkeys =>
      obtain ⟨-, hdirty, -⟩ := Queue.take?_eq_some htake
      by_cases hj : k = j
      · exact .inr (by rw [hj])
      · refine .inl ?_
        rw [hdirty]
        exact List.mem_filter.2 ⟨hk, decide_eq_true hj⟩
  | release i j hi hqueue hkeys =>
      refine .inl ?_
      rw [hqueue, Queue.dirty_release]
      exact hk
  | shutDown hqueue hkeys =>
      refine .inl ?_
      rw [hqueue]
      exact hk

/-- The books of a queue: a key that is being handled is with exactly one getter, and the log
accounts for the dirty ones. -/
structure Books (t : Traffic κ) (log : List (Entry κ)) : Prop where
  lent : t.queue.Lent t.key?
  owned : ∀ k ∈ t.queue.processing, ∃ i, t.key? i = some k
  account : t.queue.Account log

variable {entries : List (Entry κ)}

theorem Books.move {entry : Option (Entry κ)} (h : t.Books entries) (hmove : t.Move t' entry) :
    t'.Books (entries ++ entry.toList) := by
  cases hmove with
  | still hqueue hkeys =>
      rw [Option.toList_none, List.append_nil]
      refine ⟨?_, ?_, h.account.still hqueue⟩
      · rw [hkeys]
        exact h.lent.grows hqueue.grows
      · rw [hkeys, hqueue.processing]
        exact h.owned
  | accept q k hstill haccepts hqueue hkeys =>
      refine ⟨?_, ?_, ?_⟩
      · rw [hkeys, hqueue]
        exact h.lent.grows (hstill.grows.trans (q.grows_add k))
      · rw [hkeys, hqueue, Queue.processing_add, hstill.processing]
        exact h.owned
      · rw [hqueue]
        exact (h.account.still hstill).accept haccepts
  | hand i k htake hfree hkeys =>
      obtain ⟨-, -, hprocessing, -⟩ := Queue.take?_eq_some htake
      refine ⟨?_, ?_, h.account.hand h.lent.coherent htake⟩
      · rw [hkeys]
        exact h.lent.take i htake
      · intro j hj
        rw [hprocessing, List.mem_cons, List.mem_filter] at hj
        rw [hkeys]
        rcases hj with rfl | ⟨hj, -⟩
        · exact ⟨i, Function.update_self _ _ _⟩
        · obtain ⟨l, hl⟩ := h.owned j hj
          refine ⟨l, ?_⟩
          rw [Function.update_of_ne, hl]
          rintro rfl
          rw [hfree] at hl
          cases hl
  | release i k hi hqueue hkeys =>
      rw [Option.toList_none, List.append_nil]
      refine ⟨?_, ?_, ?_⟩
      · rw [hkeys, hqueue]
        exact h.lent.release hi
      · intro j hj
        rw [hqueue, Queue.processing_release, List.mem_filter, decide_eq_true_eq] at hj
        obtain ⟨l, hl⟩ := h.owned j hj.1
        refine ⟨l, ?_⟩
        rw [hkeys, Function.update_of_ne, hl]
        rintro rfl
        rw [hi, Option.some.injEq] at hl
        exact hj.2 hl.symm
      · rw [hqueue]
        exact h.account.release k
  | shutDown hqueue hkeys =>
      rw [Option.toList_none, List.append_nil]
      refine ⟨?_, ?_, ?_⟩
      · rw [hkeys, hqueue]
        exact h.lent.shutDown
      · rw [hkeys, hqueue]
        exact h.owned
      · rw [hqueue]
        exact ⟨h.account.distinct, h.account.dirty, h.account.count, h.account.adds, h.account.depth⟩

theorem books_boot (limiter : Limiter) (getters : Nat) :
    (boot limiter getters : Traffic κ).Books [] := by
  have hnone : ∀ i, (boot limiter getters : Traffic κ).key? i = none := by
    intro i
    simp only [key?, boot, Option.bind_eq_none_iff]
    intro g hg
    rw [List.eq_of_mem_replicate (List.mem_of_getElem? hg)]
    rfl
  refine ⟨⟨Queue.coherent_new _, ?_, ?_⟩, nofun, Queue.account_new _⟩
  · intro i k hk
    rw [hnone] at hk
    cases hk
  · intro i j k hk
    rw [hnone] at hk
    cases hk

theorem books_run (limiter : Limiter) (getters : Nat) (events : List (Event κ)) :
    ((boot limiter getters).run events).Books ((boot limiter getters).log events) := by
  induction events using List.reverseRecOn with
  | nil => exact books_boot limiter getters
  | append_singleton events e ih =>
      rw [log, shown_concat, run, List.foldl_append]
      exact ih.move (move _ e)

theorem mem_waiting_of_handed? {e : Event κ} (h : t.handed? e = some k) : k ∈ t.queue.waiting := by
  cases e with
  | get i =>
      simp only [handed?] at h
      split at h
      · obtain ⟨⟨k', q'⟩, ht, rfl⟩ := Option.map_eq_some_iff.1 h
        obtain ⟨hwaiting, -⟩ := Queue.take?_eq_some ht
        rw [hwaiting]
        exact List.mem_cons_self
      · cases h
  | _ => cases h

theorem handed?_of_logs? {e : Event κ} (h : t.logs? e = some (.handed k)) : t.handed? e = some k := by
  rw [logs?] at h
  split at h
  · rename_i j hj
    rw [hj, Entry.handed.inj (Option.some.inj h)]
  · obtain ⟨j, -, hj⟩ := Option.map_eq_some_iff.1 h
    cases hj

theorem count_logs? (t : Traffic κ) (e : Event κ) (k : κ) :
    (t.logs? e).toList.count (.handed k) = (t.handed? e).toList.count k := by
  rw [logs?]
  cases t.handed? e with
  | none =>
      rw [Option.toList_none, List.count_nil, List.count_eq_zero, Option.mem_toList]
      intro hmem
      obtain ⟨j, -, hj⟩ := Option.map_eq_some_iff.1 hmem
      cases hj
  | some j => simp [List.count_singleton]

/-- In every run a key waits at most once and not while a getter has it, no key is handed out that a
getter has, and each accepted add of a key was answered by one hand-out unless the key is dirty. The
counters say how many adds were accepted and how many keys wait. -/
theorem handed_exactly_once (limiter : Limiter) (getters : Nat) (events : List (Event κ)) :
    let t := (boot limiter getters).run events
    let log := (boot limiter getters).log events
    t.queue.waiting.Nodup ∧
      (∀ k ∈ t.queue.waiting, k ∉ t.queue.processing) ∧
      (∀ k, k ∈ t.queue.processing ↔ ∃ i, t.key? i = some k) ∧
      (∀ k, k ∈ t.queue.dirty ↔ k ∈ t.queue.waiting ∨
        k ∈ t.queue.processing ∧ Entry.latest? log k = some (.accepted k)) ∧
      (∀ e k, t.handed? e = some k → ∀ i, t.key? i ≠ some k) ∧
      (∀ k, log.count (.accepted k) = log.count (.handed k) + if k ∈ t.queue.dirty then 1 else 0) ∧
      t.queue.metrics.adds = log.countP Entry.isAccepted ∧
      t.queue.metrics.depth = t.queue.waiting.length := by
  intro t log
  have hbooks : t.Books log := books_run limiter getters events
  obtain ⟨hlent, howned, haccount⟩ := hbooks
  have hcoherent := hlent.coherent
  refine ⟨hcoherent.nodup, hcoherent.apart, ?_, ?_, ?_, haccount.count, haccount.adds,
    haccount.depth⟩
  · intro k
    constructor
    · exact howned k
    · rintro ⟨i, hi⟩
      exact hlent.held i k hi
  · intro k
    constructor
    · intro hk
      exact (hcoherent.placed k hk).imp_right fun hp => ⟨hp, (haccount.dirty k).1 hk⟩
    · rintro (hk | ⟨-, hk⟩)
      · exact hcoherent.dirty k hk
      · exact (haccount.dirty k).2 hk
  · intro e k hk i hi
    exact hcoherent.apart k (mem_waiting_of_handed? hk) (hlent.held i k hi)

theorem Move.shuttingDown {entry : Option (Entry κ)} (h : t.Move t' entry)
    (hshut : t.queue.shuttingDown = true) : t'.queue.shuttingDown = true := by
  cases h with
  | still hqueue hkeys => exact hqueue.shuttingDown.trans hshut
  | accept q k hstill haccepts hqueue hkeys =>
      rw [hqueue, Queue.shuttingDown_add]
      exact hstill.shuttingDown.trans hshut
  | hand i k htake hfree hkeys =>
      obtain ⟨-, -, -, hsame⟩ := Queue.take?_eq_some htake
      exact hsame.trans hshut
  | release i k hi hqueue hkeys =>
      rw [hqueue, Queue.shuttingDown_release]
      exact hshut
  | shutDown hqueue hkeys =>
      rw [hqueue]
      rfl

theorem Move.of_shuttingDown {entry : Option (Entry κ)} (h : t.Move t' entry)
    (hcoherent : t.queue.Coherent) (hshut : t.queue.shuttingDown = true) :
    entry = none ∧ t'.queue.dirty = t.queue.dirty ∨
      ∃ k ∈ t.queue.dirty, entry = some (.handed k) ∧
        t'.queue.dirty = t.queue.dirty.filter (· ≠ k) := by
  cases h with
  | still hqueue hkeys => exact .inl ⟨rfl, hqueue.dirty⟩
  | accept q k hstill haccepts hqueue hkeys =>
      obtain ⟨hopen, -⟩ := Queue.accepts_eq_true_iff.1 haccepts
      rw [hstill.shuttingDown, hshut] at hopen
      cases hopen
  | hand i k htake hfree hkeys =>
      obtain ⟨hwaiting, hdirty, -, -⟩ := Queue.take?_eq_some htake
      exact .inr ⟨k, hcoherent.dirty k (hwaiting ▸ List.mem_cons_self), rfl, hdirty⟩
  | release i k hi hqueue hkeys =>
      refine .inl ⟨rfl, ?_⟩
      rw [hqueue, Queue.dirty_release]
  | shutDown hqueue hkeys =>
      refine .inl ⟨rfl, ?_⟩
      rw [hqueue]
      rfl

/-- Once a queue shuts down, all that it does is to hand out keys that were dirty then, each one once. -/
theorem Books.log_of_shuttingDown (h : t.Books entries) (hshut : t.queue.shuttingDown = true)
    (events : List (Event κ)) :
    ∃ keys : List κ, t.log events = keys.map .handed ∧ keys.Nodup ∧ ∀ k ∈ keys, k ∈ t.queue.dirty := by
  -- the keys still to be handed out are dirty, and a key that is handed out is not dirty any more
  induction events generalizing t entries with
  | nil => exact ⟨[], rfl, List.nodup_nil, nofun⟩
  | cons e events ih =>
      have hmove := t.move e
      obtain ⟨keys, hlog, hnodup, hmem⟩ := ih (h.move hmove) (hmove.shuttingDown hshut)
      have hcons : t.log (e :: events) = (t.logs? e).toList ++ (t.next e).log events := rfl
      rw [hcons, hlog]
      rcases hmove.of_shuttingDown h.lent.coherent hshut with ⟨hentry, hdirty⟩ |
        ⟨k, hk, hentry, hdirty⟩
      · rw [hentry]
        exact ⟨keys, rfl, hnodup, fun k hk => hdirty ▸ hmem k hk⟩
      · rw [hentry]
        refine ⟨k :: keys, rfl, List.nodup_cons.2 ⟨fun hkeys => ?_, hnodup⟩, ?_⟩
        · have hleft := hmem k hkeys
          rw [hdirty] at hleft
          simp at hleft
        · intro j hj
          rcases List.mem_cons.1 hj with rfl | hj
          · exact hk
          · have hleft := hmem j hj
            rw [hdirty] at hleft
            exact (List.mem_filter.1 hleft).1

/-- A key that waits has somebody who will look at the queue again. -/
structure Attended (t : Traffic κ) : Prop where
  nonempty : t.getters ≠ []
  closed : Getter.closed ∈ t.getters → t.queue.shuttingDown = true
  waiting : t.queue.waiting ≠ [] → ∃ g ∈ t.getters, g ≠ .closed

omit [DecidableEq κ] in
theorem attended_boot (limiter : Limiter) {getters : Nat} (h : 0 < getters) :
    (boot limiter getters : Traffic κ).Attended := by
  refine ⟨?_, ?_, fun hwaiting => absurd rfl hwaiting⟩
  · intro hnil
    have hlength := congrArg List.length hnil
    rw [boot, List.length_replicate, List.length_nil] at hlength
    omega
  · intro hclosed
    cases List.eq_of_mem_replicate hclosed

theorem Attended.of_getters {entry : Option (Entry κ)} (h : t.Attended) (hmove : t.Move t' entry)
    (hgetters : t'.getters = t.getters) : t'.Attended := by
  refine ⟨?_, ?_, ?_⟩
  · rw [hgetters]
    exact h.nonempty
  · rw [hgetters]
    exact fun hclosed => hmove.shuttingDown (h.closed hclosed)
  · rw [hgetters]
    intro hwaiting
    by_cases hclosed : Getter.closed ∈ t.getters
    · refine h.waiting fun hnil => hwaiting ?_
      cases hmove with
      | still hqueue hkeys => rw [hqueue.waiting, hnil]
      | accept q k hstill haccepts hqueue hkeys =>
          obtain ⟨hopen, -⟩ := Queue.accepts_eq_true_iff.1 haccepts
          rw [hstill.shuttingDown, h.closed hclosed] at hopen
          cases hopen
      | hand i k htake hfree hkeys =>
          obtain ⟨hcons, -⟩ := Queue.take?_eq_some htake
          rw [hnil] at hcons
          cases hcons
      | release i k hi hqueue hkeys =>
          -- a getter that releases its key goes on
          have hsame : t'.key? = t.key? := by
            funext j
            rw [key?, key?, hgetters]
          rw [← hsame, hkeys, Function.update_self] at hi
          cases hi
      | shutDown hqueue hkeys =>
          rw [hqueue]
          exact hnil
    · obtain ⟨g, hg⟩ := List.exists_mem_of_ne_nil _ h.nonempty
      exact ⟨g, hg, fun heq => hclosed (heq ▸ hg)⟩

theorem Attended.get (h : t.Attended) {g : Getter κ} (hi : t.getters[i]? = some g)
    (hshut : t.queue.shuttingDown = true → (t.get i g).queue.shuttingDown = true) :
    (t.get i g).Attended := by
  obtain ⟨hlt, -⟩ := List.getElem?_eq_some_iff.1 hi
  have hmem : (g.again.step i t.queue).2 ∈ (t.get i g).getters := List.mem_set hlt _
  refine ⟨List.ne_nil_of_mem hmem, ?_, ?_⟩
  · intro hclosed
    rcases List.mem_or_eq_of_mem_set hclosed with hclosed | hclosed
    · exact hshut (h.closed hclosed)
    · obtain ⟨-, hdown, -⟩ := Getter.step_eq_closed g.again_ne_closed hclosed.symm
      exact hshut hdown
  · -- the getter that goes on is the one that will look, for it only ends at an empty queue
    intro hwaiting
    refine ⟨_, hmem, fun hclosed => hwaiting ?_⟩
    obtain ⟨hnil, -, hqueue⟩ := Getter.step_eq_closed g.again_ne_closed hclosed
    show (g.again.step i t.queue).1.waiting = []
    rw [hqueue, hnil]

theorem Attended.release (h : t.Attended) (hi : t.key? i = some k) : (t.release i k).Attended := by
  have hmem : Getter.enter ∈ (t.release i k).getters := List.mem_set (lt_of_key? hi) _
  refine ⟨List.ne_nil_of_mem hmem, ?_, fun _ => ⟨_, hmem, nofun⟩⟩
  intro hclosed
  show (t.queue.release k).shuttingDown = true
  rw [Queue.shuttingDown_release]
  rcases List.mem_or_eq_of_mem_set hclosed with hclosed | hclosed
  · exact h.closed hclosed
  · cases hclosed

theorem Attended.next (h : t.Attended) (e : Event κ) : (t.next e).Attended := by
  have hmove := t.move e
  cases e with
  | get i =>
      simp only [Traffic.next] at hmove ⊢
      cases hi : t.getters[i]? with
      | none => exact h
      | some g =>
          rw [hi] at hmove
          exact h.get hi hmove.shuttingDown
  | done i =>
      simp only [Traffic.next]
      cases hi : t.key? i with
      | none => exact h
      | some k => exact h.release hi
  | expire d =>
      refine h.of_getters hmove ?_
      simp only [Traffic.next]
      split <;> rfl
  | _ => exact h.of_getters hmove rfl

theorem attended_run (limiter : Limiter) {getters : Nat} (h : 0 < getters)
    (events : List (Event κ)) : ((boot limiter getters).run events).Attended := by
  induction events using List.reverseRecOn with
  | nil => exact attended_boot limiter h
  | append_singleton events e ih =>
      rw [run, List.foldl_concat]
      exact ih.next e

end Traffic

end Visibility
